import LightningOnion.Crypto.SharedSecrets
import LightningOnion.Failure.CircuitCodec
import LightningOnion.Packet.Filler

/-! Decrypting a returned failure.

The sender takes the hops' layers off one by one, in the order of the route, until
the MAC of one of them verifies. The loop always makes `numMaxHops` turns, and uses a
fixed dummy secret in those it does not need. Every slice and index is checked as Go
checks it: `none` is a panic. -/
namespace LightningOnion
open Lib

/-- The expected length of a failure on the wire: the padded message and its MAC. -/
def onionErrorLength : Nat := 2 + 2 + 256 + 32

section
variable (P : Primitives)

/-- Obfuscates the data; doing it twice is not doing it. -/
def onionEncrypt (sharedSecret : Hash256) (data : List UInt8) : List UInt8 :=
  let ammagKey := generateKey P .ammag sharedSecret
  let streamBytes := generateCipherStream P ammagKey data.length
  xor (List.replicate data.length 0) data streamBytes

structure OnionErrorDecrypter where
  circuit : Circuit (PrivateKey P)

/-- The secret of the turns that are not needed. -/
def dummySecret : Hash256 := ⟨List.replicate 32 1, List.length_replicate⟩

/-- The variables of the decryption loop. -/
structure DecryptState where
  encryptedData : List UInt8
  sender : Option PublicKey
  msg : List UInt8

/-- The secret for turn `i`: the next in line, or the dummy when there is no need for
one or none is left. -/
def turnSecret (sharedSecrets : List Hash256) (i : Nat) (sender : Option PublicKey) :
    Option Hash256 :=
  if sender.isSome ∨ sharedSecrets.length < i + 1 then some dummySecret else sharedSecrets[i]?

/-- Turn `i` of the loop. -/
def decryptStep (paymentPath : List PublicKey) (sharedSecrets : List Hash256) (i : Nat)
    (st : DecryptState) : Option DecryptState := do
  let sharedSecret ← turnSecret sharedSecrets i st.sender
  let encryptedData := onionEncrypt P sharedSecret st.encryptedData
  let expectedMac ← slice encryptedData 0 32
  let data ← slice encryptedData 32 encryptedData.length
  let realMac := calcMac P (generateKey P .um sharedSecret) data
  if realMac.toList = expectedMac ∧ st.sender.isNone then
    let sender ← paymentPath[i]?
    return ⟨encryptedData, some sender, data⟩
  else
    return ⟨encryptedData, st.sender, st.msg⟩

/-- `k` turns from turn `i` on. -/
def decryptLoop (paymentPath : List PublicKey) (sharedSecrets : List Hash256) :
    (k i : Nat) → DecryptState → Option DecryptState
  | 0, _, st => some st
  | k + 1, i, st => do
    let st' ← decryptStep P paymentPath sharedSecrets i st
    decryptLoop paymentPath sharedSecrets k (i + 1) st'

variable {P}

/-- The node the failure comes from, and its message. -/
def OnionErrorDecrypter.decryptError (o : OnionErrorDecrypter P) (encryptedData : List UInt8) :
    Option (Except Error (PublicKey × List UInt8)) :=
  if encryptedData.length ≠ onionErrorLength then
    some (.error (.invalidErrorLength onionErrorLength encryptedData.length))
  else do
    let sharedSecrets ← generateSharedSecrets P o.circuit.paymentPath o.circuit.sessionKey
    let st ← decryptLoop P o.circuit.paymentPath sharedSecrets numMaxHops 0 ⟨encryptedData, none, []⟩
    match st.sender with
    | none => return .error .onionFailureNotRetrieved
    | some sender => return .ok (sender, st.msg)

end

/-! ### The layers -/

section Layers
variable (P : Primitives) (secrets : List Hash256) (blob : List UInt8)

/-- The secret of turn `i` as long as no sender is found. -/
def secretAt (i : Nat) : Hash256 := secrets.getD i dummySecret

/-- The blob without its first `i` layers. -/
def peeled : Nat → List UInt8
  | 0 => blob
  | i + 1 => onionEncrypt P (secretAt secrets i) (peeled i)

/-- Under layer `i` lies a MAC that verifies. -/
def Verifies (i : Nat) : Prop :=
  (calcMac P (generateKey P .um (secretAt secrets i)) ((peeled P secrets blob (i + 1)).drop 32)).toList =
    (peeled P secrets blob (i + 1)).take 32

instance (i : Nat) : Decidable (Verifies P secrets blob i) :=
  inferInstanceAs (Decidable (_ = _))

theorem onionEncrypt_eq (secret : Hash256) (data : List UInt8) : onionEncrypt P secret data =
    pad data (generateCipherStream P (generateKey P .ammag secret) data.length) := by
  have hlen : (generateCipherStream P (generateKey P .ammag secret) data.length).length = data.length :=
    length_generateCipherStream P _ _
  rw [onionEncrypt, xor_eq _ _ _ (by rw [hlen, List.length_replicate, Nat.min_self])]
  rw [hlen, Nat.min_self, List.drop_of_length_le (by rw [List.length_replicate]), List.append_nil]

@[simp] theorem length_onionEncrypt (secret : Hash256) (data : List UInt8) :
    (onionEncrypt P secret data).length = data.length := by
  rw [onionEncrypt_eq, length_pad, length_generateCipherStream, Nat.min_self]

theorem onionEncrypt_onionEncrypt (secret : Hash256) (data : List UInt8) :
    onionEncrypt P secret (onionEncrypt P secret data) = data := by
  rw [onionEncrypt_eq, length_onionEncrypt, onionEncrypt_eq]
  exact pad_pad _ _ (by rw [length_generateCipherStream])

theorem length_peeled (i : Nat) : (peeled P secrets blob i).length = blob.length := by
  induction i with
  | zero => rfl
  | succ i ih => rw [peeled, length_onionEncrypt, ih]

end Layers

/-! ### The loop -/

section Loop
variable (P : Primitives) (path : List PublicKey) (secrets : List Hash256)

theorem slices_of_le {data : List UInt8} (h : 32 ≤ data.length) :
    slice data 0 32 = some (data.take 32) ∧ slice data 32 data.length = some (data.drop 32) := by
  refine ⟨?_, ?_⟩
  · have := slice_of_le (Nat.zero_le 32) h
    rwa [List.drop_zero] at this
  · have := slice_of_le h (Nat.le_refl _)
    rwa [List.take_length] at this

theorem decryptStep_eq {i : Nat} {st : DecryptState} {secret : Hash256}
    (hsecret : turnSecret secrets i st.sender = some secret) (hlen : 32 ≤ st.encryptedData.length) :
    decryptStep P path secrets i st =
      let data := onionEncrypt P secret st.encryptedData
      if (calcMac P (generateKey P .um secret) (data.drop 32)).toList = data.take 32 ∧ st.sender.isNone then
        path[i]?.map fun pk => ⟨data, some pk, data.drop 32⟩
      else some ⟨data, st.sender, st.msg⟩ := by
  obtain ⟨hmac, hdata⟩ := slices_of_le
    (show 32 ≤ (onionEncrypt P secret st.encryptedData).length by rwa [length_onionEncrypt])
  simp only [decryptStep, hsecret, hmac, hdata, Option.bind_eq_bind, Option.bind_some]
  split
  · cases path[i]? <;> rfl
  · rfl

/-- Once the sender is known, a turn changes the data only. -/
theorem decryptLoop_found (k i : Nat) {data msg : List UInt8} {pk : PublicKey}
    (hlen : 32 ≤ data.length) :
    ∃ data', decryptLoop P path secrets k i ⟨data, some pk, msg⟩ = some ⟨data', some pk, msg⟩ := by
  induction k generalizing i data with
  | zero => exact ⟨data, rfl⟩
  | succ k ih =>
    have hstep : decryptStep P path secrets i ⟨data, some pk, msg⟩ =
        some ⟨onionEncrypt P dummySecret data, some pk, msg⟩ := by
      have hdummy : turnSecret secrets i (some pk) = some dummySecret := by simp [turnSecret]
      rw [decryptStep_eq P path secrets hdummy hlen]
      simp
    rw [decryptLoop, hstep]
    exact ih (i + 1) (by rwa [length_onionEncrypt])

variable (blob : List UInt8)

/-- Before that, turn `i` takes layer `i` off and looks at the MAC under it. -/
theorem decryptStep_searching (hblob : 32 ≤ blob.length) (i : Nat) (msg : List UInt8) :
    decryptStep P path secrets i ⟨peeled P secrets blob i, none, msg⟩ =
      if Verifies P secrets blob i then
        path[i]?.map fun pk =>
          ⟨peeled P secrets blob (i + 1), some pk, (peeled P secrets blob (i + 1)).drop 32⟩
      else some ⟨peeled P secrets blob (i + 1), none, msg⟩ := by
  have hsecret : turnSecret secrets i none = some (secretAt secrets i) := by
    rw [secretAt, List.getD_eq_getElem?_getD, turnSecret]
    by_cases hi : i < secrets.length
    · simp [hi]
    · rw [if_pos (.inr (by omega)), List.getElem?_eq_none (by omega)]
      rfl
  rw [decryptStep_eq P path secrets hsecret (by rwa [length_peeled])]
  simp only [Option.isNone_none, and_true]
  rfl

/-- No MAC among the turns verifies: no sender. -/
theorem decryptLoop_none (hblob : 32 ≤ blob.length) (k i : Nat) (msg : List UInt8)
    (hno : ∀ j, i ≤ j → j < i + k → ¬Verifies P secrets blob j) :
    decryptLoop P path secrets k i ⟨peeled P secrets blob i, none, msg⟩ =
      some ⟨peeled P secrets blob (i + k), none, msg⟩ := by
  induction k generalizing i with
  | zero => rfl
  | succ k ih =>
    rw [decryptLoop, decryptStep_searching P path secrets blob hblob,
      if_neg (hno i (Nat.le_refl i) (by omega))]
    refine (ih (i + 1) fun j hj hlt => hno j (by omega) (by omega)).trans ?_
    rw [show i + 1 + k = i + (k + 1) by omega]

/-- The first one that does decides: its node is indexed, in range or not. -/
theorem decryptLoop_first (hblob : 32 ≤ blob.length) (k i j : Nat) (msg : List UInt8) (hij : i ≤ j)
    (hjk : j < i + k) (hj : Verifies P secrets blob j)
    (hno : ∀ j', i ≤ j' → j' < j → ¬Verifies P secrets blob j') :
    (path[j]? = none → decryptLoop P path secrets k i ⟨peeled P secrets blob i, none, msg⟩ = none) ∧
      ∀ pk, path[j]? = some pk → ∃ data',
        decryptLoop P path secrets k i ⟨peeled P secrets blob i, none, msg⟩ =
          some ⟨data', some pk, (peeled P secrets blob (j + 1)).drop 32⟩ := by
  induction k generalizing i with
  | zero => omega
  | succ k ih =>
    rw [decryptLoop, decryptStep_searching P path secrets blob hblob]
    by_cases heq : i = j
    · subst heq
      rw [if_pos hj]
      refine ⟨fun h => by rw [h]; rfl, fun pk h => ?_⟩
      rw [h]
      exact decryptLoop_found P path secrets k (i + 1) (by rwa [length_peeled])
    · rw [if_neg (hno i (Nat.le_refl i) (by omega))]
      exact ih (i + 1) (by omega) (by omega) fun j' h h' => hno j' (by omega) h'

end Loop

/-! ### The outcome -/

/-- The failure of the first hop from hop `i` on whose MAC verifies. -/
def firstVerified (P : Primitives) (secrets : List Hash256) (blob : List UInt8) :
    (path : List PublicKey) → (i : Nat) → Except Error (PublicKey × List UInt8)
  | [], _ => .error .onionFailureNotRetrieved
  | pk :: rest, i =>
    if Verifies P secrets blob i then .ok (pk, (peeled P secrets blob (i + 1)).drop 32)
    else firstVerified P secrets blob rest (i + 1)

section Outcome
variable {P : Primitives} {secrets : List Hash256} {blob : List UInt8}

theorem firstVerified_none (path : List PublicKey) (i : Nat)
    (hno : ∀ j, i ≤ j → j < i + path.length → ¬Verifies P secrets blob j) :
    firstVerified P secrets blob path i = .error .onionFailureNotRetrieved := by
  induction path generalizing i with
  | nil => rfl
  | cons pk rest ih =>
    rw [List.length_cons] at hno
    rw [firstVerified, if_neg (hno i (Nat.le_refl i) (by omega))]
    exact ih (i + 1) fun j hj hlt => hno j (by omega) (by omega)

theorem firstVerified_first (path : List PublicKey) (i j : Nat) (hij : i ≤ j) {pk : PublicKey}
    (hpk : path[j - i]? = some pk) (hj : Verifies P secrets blob j)
    (hno : ∀ j', i ≤ j' → j' < j → ¬Verifies P secrets blob j') :
    firstVerified P secrets blob path i = .ok (pk, (peeled P secrets blob (j + 1)).drop 32) := by
  induction path generalizing i with
  | nil => simp at hpk
  | cons first rest ih =>
    rw [firstVerified]
    by_cases heq : i = j
    · subst heq
      rw [Nat.sub_self] at hpk
      cases hpk
      rw [if_pos hj]
    · rw [if_neg (hno i (Nat.le_refl i) (by omega))]
      refine ih (i + 1) (by omega) ?_ fun j' h h' => hno j' (by omega) h'
      rwa [show j - i = j - (i + 1) + 1 by omega, List.getElem?_cons_succ] at hpk

variable {o : OnionErrorDecrypter P} (hlen : blob.length = onionErrorLength)
  (hs : generateSharedSecrets P o.circuit.paymentPath o.circuit.sessionKey = some secrets)
include hlen hs

theorem decryptError_none (hno : ∀ j, j < numMaxHops → ¬Verifies P secrets blob j) :
    o.decryptError blob = some (.error .onionFailureNotRetrieved) := by
  have hloop := decryptLoop_none P o.circuit.paymentPath secrets blob (by rw [hlen]; decide)
    numMaxHops 0 [] fun j _ hj => hno j (by omega)
  simp only [peeled] at hloop
  rw [OnionErrorDecrypter.decryptError, if_neg (not_not_intro hlen), hs]
  simp only [Option.bind_eq_bind, Option.bind_some, hloop]
  rfl

theorem decryptError_first {j : Nat} (hjmax : j < numMaxHops) (hj : Verifies P secrets blob j)
    (hno : ∀ j', j' < j → ¬Verifies P secrets blob j') :
    o.decryptError blob = o.circuit.paymentPath[j]?.map fun pk =>
      .ok (pk, (peeled P secrets blob (j + 1)).drop 32) := by
  obtain ⟨hout, hin⟩ := decryptLoop_first P o.circuit.paymentPath secrets blob (by rw [hlen]; decide)
    numMaxHops 0 j [] (Nat.zero_le j) (by omega) hj fun j' _ => hno j'
  simp only [peeled] at hout hin
  rw [OnionErrorDecrypter.decryptError, if_neg (not_not_intro hlen), hs]
  cases hpk : o.circuit.paymentPath[j]? with
  | none =>
    simp only [Option.bind_eq_bind, Option.bind_some, hout hpk]
    rfl
  | some pk =>
    obtain ⟨data', hloop⟩ := hin pk hpk
    simp only [Option.bind_eq_bind, Option.bind_some, hloop]
    rfl

end Outcome

/-! ### A circuit to try it on -/

/-- Key derivation gives the secret itself, and the MAC of a longer message is its key. -/
def echoMac (key msg : List UInt8) : Bytes 32 :=
  ⟨((if msg.length = 32 then msg else key) ++ List.replicate 32 0).take 32, by simp⟩

/-- A sender's circuit of one hop. -/
def sampleDecrypter : OnionErrorDecrypter (samplePrimitives echoMac) :=
  ⟨⟨sampleKey echoMac, [residuePoint 1]⟩⟩

theorem sampleDecrypter_secrets : generateSharedSecrets (samplePrimitives echoMac)
    sampleDecrypter.circuit.paymentPath sampleDecrypter.circuit.sessionKey = some [sampleHash] := rfl

/-- A message of zeroes under a MAC. -/
def sampleBlob (mac : Hash256) : List UInt8 := mac.toList ++ List.replicate 260 0

theorem length_sampleBlob (mac : Hash256) : (sampleBlob mac).length = onionErrorLength := by
  rw [sampleBlob, List.length_append, mac.toList_length, List.length_replicate]
  rfl

/-! ### Arbitrary input -/

/-- **When a failure is decrypted as it should be.** On a path of up to `numMaxHops`
hops, a blob of the right length yields the first hop whose MAC verifies, or the
error that there is none, exactly when there is one or no MAC verifies under the
dummy secret either: a MAC that only the padding turns find makes the loop index the
path behind its end. -/
theorem decryptError_eq_iff {P : Primitives} (o : OnionErrorDecrypter P) (blob : List UInt8)
    (hpos : 1 ≤ o.circuit.paymentPath.length) (hmax : o.circuit.paymentPath.length ≤ numMaxHops)
    (hlen : blob.length = onionErrorLength) :
    ∃ secrets, generateSharedSecrets P o.circuit.paymentPath o.circuit.sessionKey = some secrets ∧
      (o.decryptError blob = some (firstVerified P secrets blob o.circuit.paymentPath 0) ↔
        (∃ i, i < o.circuit.paymentPath.length ∧ Verifies P secrets blob i) ∨
          ∀ j, o.circuit.paymentPath.length ≤ j → j < numMaxHops → ¬Verifies P secrets blob j) := by
  obtain ⟨secrets, hs⟩ := generateSharedSecrets_isSome P o.circuit.paymentPath o.circuit.sessionKey
    (List.ne_nil_of_length_pos hpos)
  refine ⟨secrets, hs, ?_⟩
  by_cases hany : ∃ j, j < numMaxHops ∧ Verifies P secrets blob j
  · obtain ⟨hjmax, hj⟩ := Nat.find_spec hany
    have hno : ∀ j', j' < Nat.find hany → ¬Verifies P secrets blob j' := fun j' hlt hv =>
      Nat.find_min hany hlt ⟨by omega, hv⟩
    generalize Nat.find hany = j at hjmax hj hno
    rw [decryptError_first hlen hs hjmax hj hno]
    by_cases hreal : j < o.circuit.paymentPath.length
    · have hpk := List.getElem?_eq_getElem hreal
      rw [hpk, firstVerified_first o.circuit.paymentPath 0 j (Nat.zero_le j) hpk hj fun j' _ => hno j']
      exact ⟨fun _ => .inl ⟨j, hreal, hj⟩, fun _ => rfl⟩
    · -- Only a padding turn's MAC verifies: the index is out of range.
      rw [List.getElem?_eq_none (by omega)]
      constructor
      · intro heq
        cases heq
      · intro hcase
        rcases hcase with ⟨i, hi, hv⟩ | hdummy
        · exact absurd hv (hno i (by omega))
        · exact absurd hj (hdummy j (by omega) hjmax)
  · have hno : ∀ j, j < numMaxHops → ¬Verifies P secrets blob j := fun j hj hv => hany ⟨j, hj, hv⟩
    rw [decryptError_none hlen hs hno,
      firstVerified_none o.circuit.paymentPath 0 fun j _ hj => hno j (by omega)]
    exact ⟨fun _ => .inr fun j _ => hno j, fun _ => rfl⟩

/-- The hop's own MAC: its message is returned. -/
theorem sampleBlob_decrypted : sampleDecrypter.decryptError (sampleBlob sampleHash) =
    some (.ok (residuePoint 1, List.replicate 260 0)) := by
  obtain ⟨secrets, hs, hiff⟩ :=
    decryptError_eq_iff sampleDecrypter (sampleBlob sampleHash) (by decide) (by decide)
      (length_sampleBlob sampleHash)
  rw [sampleDecrypter_secrets] at hs
  cases hs
  have hverifies : Verifies (samplePrimitives echoMac) [sampleHash] (sampleBlob sampleHash) 0 := by
    decide +kernel
  rw [hiff.mpr (.inl ⟨0, by decide, hverifies⟩)]
  show some (if _ then _ else _) = _
  rw [if_pos hverifies]
  have hdata : (peeled (samplePrimitives echoMac) [sampleHash] (sampleBlob sampleHash) 1).drop 32 =
      List.replicate 260 0 := by
    decide +kernel
  rw [hdata]

/-- The dummy secret's MAC: no hop's MAC verifies, and instead of the error the loop
panics in its second turn. -/
theorem sampleBlob_panics : (sampleBlob dummySecret).length = onionErrorLength ∧
    firstVerified (samplePrimitives echoMac) [sampleHash] (sampleBlob dummySecret)
      sampleDecrypter.circuit.paymentPath 0 = .error .onionFailureNotRetrieved ∧
    sampleDecrypter.decryptError (sampleBlob dummySecret) = none := by
  refine ⟨length_sampleBlob dummySecret, ?_, ?_⟩
  · have hno : ¬Verifies (samplePrimitives echoMac) [sampleHash] (sampleBlob dummySecret) 0 := by
      decide +kernel
    show (if _ then _ else _) = _
    rw [if_neg hno]
    rfl
  · have : (sampleDecrypter.decryptError (sampleBlob dummySecret)).isNone := by decide +kernel
    exact Option.isNone_iff_eq_none.mp this

end LightningOnion
