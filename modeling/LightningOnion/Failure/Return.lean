import LightningOnion.Failure.Decrypt
import LightningOnion.Route.Delivery

/-! Failures on their way back.

The erring hop puts a MAC on its message and encrypts both; every hop before it adds
a layer, so the layers lie in the order in which the sender takes them off. Each hop
uses the secret it derives from the key on the packet it was sent, which is the
sender's secret for that hop. -/
namespace LightningOnion
open Lib

/-- A hop's side of a failure's encryption. -/
structure OnionErrorEncrypter where
  sharedSecret : Hash256
  deriving DecidableEq

section
variable {P : Primitives}

/-- The encrypter of a router for the packet that came with `ephemeralKey`. -/
def newOnionErrorEncrypter (router : Router P) (ephemeralKey : PublicKey) :
    Except Error OnionErrorEncrypter :=
  match router.generateSharedSecret ephemeralKey with
  | .error err => .error err
  | .ok sharedSecret => .ok ⟨sharedSecret⟩

variable (P)

/-- Encrypts a failure, after putting a MAC on it where it is raised. -/
def OnionErrorEncrypter.encryptError (o : OnionErrorEncrypter) (initial : Bool) (data : List UInt8) :
    List UInt8 :=
  let data :=
    if initial then (calcMac P (generateKey P .um o.sharedSecret) data).toList ++ data else data
  onionEncrypt P o.sharedSecret data

/-- What `data` has become when hops `k - 1, …, 0` have passed it on. -/
def passedOn (enc : Nat → OnionErrorEncrypter) : (k : Nat) → (data : List UInt8) → List UInt8
  | 0, data => data
  | i + 1, data => passedOn enc i ((enc i).encryptError P false data)

/-- The failure of hop `k` as the sender receives it. -/
def returnedFailure (enc : Nat → OnionErrorEncrypter) (k : Nat) (message : List UInt8) : List UInt8 :=
  passedOn P enc k ((enc k).encryptError P true message)

end

section Layers
variable (P : Primitives) (secrets : List Hash256) (enc : Nat → OnionErrorEncrypter)

theorem length_passedOn (k : Nat) (data : List UInt8) : (passedOn P enc k data).length = data.length := by
  induction k generalizing data with
  | zero => rfl
  | succ i ih =>
    rw [passedOn, ih]
    exact length_onionEncrypt P _ _

/-- Taking the layers of the first `k` hops off undoes their passing it on. -/
theorem peeled_passedOn (k : Nat) (data : List UInt8)
    (henc : ∀ i, i < k → (enc i).sharedSecret = secretAt secrets i) :
    peeled P secrets (passedOn P enc k data) k = data := by
  induction k generalizing data with
  | zero => rfl
  | succ i ih =>
    rw [peeled, passedOn, ih _ fun j hj => henc j (by omega), ← henc i (Nat.lt_succ_self i)]
    exact onionEncrypt_onionEncrypt P _ data

/-- Under the layer of the erring hop lie its MAC and its message. -/
theorem peeled_returnedFailure (k : Nat) (message : List UInt8)
    (henc : ∀ i, i ≤ k → (enc i).sharedSecret = secretAt secrets i) :
    peeled P secrets (returnedFailure P enc k message) (k + 1) =
      (calcMac P (generateKey P .um (secretAt secrets k)) message).toList ++ message := by
  rw [peeled, returnedFailure, peeled_passedOn P secrets enc k _ fun i hi => henc i (Nat.le_of_lt hi),
    ← henc k (Nat.le_refl k)]
  exact onionEncrypt_onionEncrypt P _ _

theorem verifies_returnedFailure (k : Nat) (message : List UInt8)
    (henc : ∀ i, i ≤ k → (enc i).sharedSecret = secretAt secrets i) :
    Verifies P secrets (returnedFailure P enc k message) k ∧
      (peeled P secrets (returnedFailure P enc k message) (k + 1)).drop 32 = message := by
  have hmac : ∀ key, (calcMac P key message).toList.length = 32 := fun key => List.Vector.toList_length _
  rw [Verifies, peeled_returnedFailure P secrets enc k message henc, List.drop_left' (hmac _),
    List.take_left' (hmac _)]
  exact ⟨rfl, rfl⟩

theorem length_returnedFailure (k : Nat) {message : List UInt8} (hlen : message.length = 260) :
    (returnedFailure P enc k message).length = onionErrorLength := by
  rw [returnedFailure, length_passedOn]
  refine (length_onionEncrypt P _ _).trans ?_
  rw [if_pos rfl, List.length_append, List.Vector.toList_length, hlen]
  rfl

end Layers

/-! ### The hops' secrets -/

section Hops
variable {P : Primitives} (sessionKey : PrivateKey P) (node : Nat → PrivateKey P)

/-- The packets of the first `k + 1` hops: the first one carries the session's key,
and each hop unwraps the next out of its own. -/
structure Unwrapped (k : Nat) (pkt : Nat → OnionPacket) : Prop where
  first : (pkt 0).ephemeralKey = sessionKey.pubKey
  next : ∀ i, i < k → ∃ assocData hopData,
    unwrapPacket P (pkt i) (generateSharedSecret P (pkt i).ephemeralKey (node i)) assocData =
      .ok (pkt (i + 1), hopData)

variable {sessionKey node}

theorem ephemeralKey_unwrapPacket {pkt pkt' : OnionPacket} {secret : Hash256} {assocData : List UInt8}
    {hopData : HopData} (h : unwrapPacket P pkt secret assocData = .ok (pkt', hopData)) :
    pkt'.ephemeralKey = blindGroupElement P pkt.ephemeralKey
      (computeBlindingFactor P pkt.ephemeralKey secret.toList).toList := by
  rw [unwrapPacket] at h
  split at h
  · cases h
  · rw [← (Prod.mk.inj (Except.ok.inj h)).1]

theorem Unwrapped.ephemeralKey_eq {k : Nat} {pkt : Nat → OnionPacket}
    (h : Unwrapped sessionKey node k pkt) {i : Nat} (hi : i ≤ k) :
    (pkt i).ephemeralKey = hopEphemeral sessionKey node i := by
  induction i with
  | zero => exact h.first
  | succ i ih =>
    obtain ⟨assocData, hopData, hunwrap⟩ := h.next i hi
    rw [ephemeralKey_unwrapPacket hunwrap, ih (by omega)]
    rfl

theorem sharedSecret_of_ok {k : Nat} {pkt : Nat → OnionPacket} (h : Unwrapped sessionKey node k pkt)
    {i : Nat} (hi : i ≤ k) {enc : OnionErrorEncrypter}
    (henc : newOnionErrorEncrypter ⟨node i⟩ (pkt i).ephemeralKey = .ok enc) :
    enc.sharedSecret = hopSecret sessionKey node i := by
  rw [newOnionErrorEncrypter, Router.generateSharedSecret, h.ephemeralKey_eq hi] at henc
  split at henc
  · cases henc
  · rename_i secret hsecret
    split at hsecret
    · rw [← Except.ok.inj henc, ← Except.ok.inj hsecret]
      rfl
    · cases hsecret

end Hops

/-- A failure made with the dummy secret and passed on by all the hops of a route with
room left: when no hop's MAC verifies on it, decrypting it panics, whatever the
message. -/
theorem decryptError_dummy {P : Primitives} {o : OnionErrorDecrypter P} {secrets : List Hash256}
    (hs : generateSharedSecrets P o.circuit.paymentPath o.circuit.sessionKey = some secrets)
    (hroom : secrets.length < numMaxHops) (message : List UInt8) (hlen : message.length = 260)
    (hno : ∀ j, j < secrets.length → ¬Verifies P secrets
      (returnedFailure P (fun i => ⟨secretAt secrets i⟩) secrets.length message) j) :
    o.decryptError (returnedFailure P (fun i => ⟨secretAt secrets i⟩) secrets.length message) = none := by
  have hverifies := (verifies_returnedFailure P secrets (fun i => ⟨secretAt secrets i⟩) secrets.length
    message fun i _ => rfl).1
  rw [decryptError_first (length_returnedFailure P _ _ hlen) hs hroom hverifies hno,
    List.getElem?_eq_none (length_generateSharedSecrets P hs).ge]
  rfl

theorem Route.unwrapped {P : Primitives} (R : Route P) {k : Nat} (hk : k < R.length) :
    Unwrapped R.sessionKey R.node k R.packetAt :=
  ⟨rfl, fun i hi => ⟨R.assocData, R.instructions i, R.unwrapPacket_packetAt (by omega)⟩⟩

/-! ### A route to try it on -/

/-- A hash that reveals a compressed point. -/
def openHash (msg : List UInt8) : Hash256 := ⟨(msg.tail ++ List.replicate 32 0).take 32, by simp⟩

/-- Residues, with a hash and a MAC that show what goes into them. -/
abbrev openPrimitives : Primitives := transparent 5 openHash echoMac fun _ _ => 0

theorem five_le_scalars : 5 ≤ 2 ^ 256 := by decide

def openCurve : CurveModel openPrimitives (ZMod 5) :=
  transparentCurve 5 Nat.prime_five five_le_scalars _ _ _

/-- Two hops with different secrets. -/
def openRoute : Route (transparent 5 openHash echoMac fun _ _ => 0) where
  path := Route.samplePath 2
  node := fun _ => .ofScalar _ 1 one_lt_scalars
  sessionKey := .ofScalar _ 2 (by decide)
  assocData := []
  pos := by rw [Route.trueRouteLength_samplePath 2 (by decide)]; exact Nat.two_pos
  nodePub := fun i hi => by
    rw [Route.trueRouteLength_samplePath 2 (by decide)] at hi
    rw [Route.samplePath, PaymentPath.hop_repeated _ (by decide) hi]
    rfl

/-- The encrypter each hop of it builds. -/
def openEncrypter (i : Nat) : OnionErrorEncrypter := ⟨openRoute.secret i⟩

/-! ### The way back -/

/-- With the sender's secrets at the hops, the failure decrypts to its hop and message. -/
theorem decryptError_of_secrets {P : Primitives} {E : Type} [AddCommGroup E] (C : CurveModel P E)
    (sessionKey : PrivateKey P) (node : Nat → PrivateKey P) {n : Nat} (hmax : n ≤ numMaxHops) {k : Nat}
    (hk : k < n) {message : List UInt8} (hlen : message.length = 260) {enc : Nat → OnionErrorEncrypter}
    (henc : ∀ i, i ≤ k → (enc i).sharedSecret = hopSecret sessionKey node i)
    (hno : ∀ j, j < k → ¬Verifies P ((List.range n).map (hopSecret sessionKey node))
      (returnedFailure P enc k message) j) :
    OnionErrorDecrypter.decryptError ⟨⟨sessionKey, (List.range n).map fun i => (node i).pubKey⟩⟩
      (returnedFailure P enc k message) = some (.ok ((node k).pubKey, message)) := by
  have hsecretAt : ∀ i, i ≤ k → (enc i).sharedSecret =
      secretAt ((List.range n).map (hopSecret sessionKey node)) i := by
    intro i hi
    rw [henc i hi, secretAt, List.getD_eq_getElem?_getD, List.getElem?_map,
      List.getElem?_range (by omega)]
    rfl
  obtain ⟨hverifies, hmessage⟩ := verifies_returnedFailure P _ enc k message hsecretAt
  rw [decryptError_first (length_returnedFailure P enc k hlen)
    (generateSharedSecrets_eq C sessionKey node n (by omega)) (by omega) hverifies hno]
  simp only [List.getElem?_map, List.getElem?_range hk, Option.map_some, hmessage]

/-- **The error return path.** The hops of the route can all build their encrypters
from the keys on the packets they unwrap; and a failure that hop `k` raises and the
hops before it pass on decrypts, with the sender's circuit, to the key of hop `k` and
its message, unless the MAC of an earlier hop verifies by accident. -/
theorem decryptError_returned {P : Primitives} {E : Type} [AddCommGroup E] (C : CurveModel P E)
    (sessionKey : PrivateKey P) (node : Nat → PrivateKey P) {n : Nat} (hmax : n ≤ numMaxHops) {k : Nat}
    (hk : k < n) (message : List UInt8) (hlen : message.length = 260) (pkt : Nat → OnionPacket)
    (hpkt : Unwrapped sessionKey node k pkt) :
    (sessionKey.d % P.order ≠ 0 → BlindingsNonzero sessionKey node k → ∀ i, i ≤ k →
        ∃ enc, newOnionErrorEncrypter ⟨node i⟩ (pkt i).ephemeralKey = .ok enc) ∧
      ∀ enc : Nat → OnionErrorEncrypter,
        (∀ i, i ≤ k → newOnionErrorEncrypter ⟨node i⟩ (pkt i).ephemeralKey = .ok (enc i)) →
        (∀ j, j < k → ¬Verifies P ((List.range n).map (hopSecret sessionKey node))
          (returnedFailure P enc k message) j) →
        OnionErrorDecrypter.decryptError
            ⟨⟨sessionKey, (List.range n).map fun i => (node i).pubKey⟩⟩
            (returnedFailure P enc k message) = some (.ok ((node k).pubKey, message)) := by
  refine ⟨fun hx hb i hi => ?_, fun enc henc hno => ?_⟩
  · have hcurve := (hopEphemeral_isOnCurve C sessionKey node hx i fun j hj => hb j (by omega)).2
    rw [newOnionErrorEncrypter, Router.generateSharedSecret, hpkt.ephemeralKey_eq hi, if_pos hcurve]
    exact ⟨_, rfl⟩
  · exact decryptError_of_secrets C sessionKey node hmax hk hlen
      (fun i hi => sharedSecret_of_ok hpkt hi (henc i hi)) hno

/-- The second of two hops fails: the sender learns that it did, and why. -/
theorem openRoute_returned : OnionErrorDecrypter.decryptError
    ⟨⟨openRoute.sessionKey, (List.range 2).map fun i => (openRoute.node i).pubKey⟩⟩
    (returnedFailure (transparent 5 openHash echoMac fun _ _ => 0) openEncrypter 1
      (List.replicate 260 7)) =
      some (.ok (residuePoint 1, List.replicate 260 7)) := by
  have hpkt := openRoute.unwrapped (show 1 < openRoute.length by decide)
  refine (decryptError_returned (transparentCurve 5 (by decide) (by decide) _ _ _)
    openRoute.sessionKey openRoute.node (by decide) (show 1 < 2 by decide) _
    List.length_replicate openRoute.packetAt hpkt).2 openEncrypter ?_ ?_
  · intro i hi
    have hcurve : ∀ i ≤ 1, (transparent 5 openHash echoMac fun _ _ => 0).isOnCurve
        (hopEphemeral openRoute.sessionKey openRoute.node i) = true := by
      decide +kernel
    rw [newOnionErrorEncrypter, Router.generateSharedSecret, hpkt.ephemeralKey_eq hi,
      if_pos (hcurve i hi)]
    rfl
  · decide +kernel

end LightningOnion
