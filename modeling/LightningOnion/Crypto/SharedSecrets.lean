import LightningOnion.Crypto.Keys
import LightningOnion.Crypto.Transparent
import LightningOnion.Lib.Blinding

/-! The shared secrets of a route, from both sides.

The sender computes all of them at once (`generateSharedSecrets`), keeping one
scalar; each hop computes its own from the key it is handed, and re-blinds that
key for the next (`hopEphemeral`, `hopSecret`). `generateSharedSecrets_eq` says
the two agree. -/
namespace LightningOnion
open Lib

variable (P : Primitives)

/-! ### The sender -/

/-- The loop over the hops after the first: `cachedBlindingFactor` is the product
of the session key and all blinding factors but the last. -/
def sharedSecretsLoop (cachedBlindingFactor : Nat) (lastBlindingFactor : Hash256) :
    List PublicKey → List Hash256
  | [] => []
  | hop :: rest =>
    let cached := cachedBlindingFactor * beNat lastBlindingFactor.toList % P.order
    let ephemeral := blindBaseElement P (natBytes cached)
    let secret := P.sha256 (P.serializeCompressed (blindGroupElement P hop (natBytes cached)))
    -- The last hop's blinding factor is never needed.
    if rest.isEmpty then [secret]
    else secret :: sharedSecretsLoop cached (computeBlindingFactor P ephemeral secret.toList) rest

/-- The shared secret of every hop. An empty path is indexed out of range. -/
def generateSharedSecrets (paymentPath : List PublicKey) (sessionKey : PrivateKey P) :
    Option (List Hash256) :=
  match paymentPath with
  | [] => none
  | first :: rest =>
    let secret := generateSharedSecret P first sessionKey
    some (secret :: sharedSecretsLoop P sessionKey.d
      (computeBlindingFactor P sessionKey.pubKey secret.toList) rest)

theorem length_sharedSecretsLoop (cached : Nat) (blinding : Hash256) (keys : List PublicKey) :
    (sharedSecretsLoop P cached blinding keys).length = keys.length := by
  induction keys generalizing cached blinding with
  | nil => rfl
  | cons hop rest ih =>
    rw [sharedSecretsLoop]
    cases rest with
    | nil => rfl
    | cons next rest => simp [ih]

theorem length_generateSharedSecrets {keys : List PublicKey} {sessionKey : PrivateKey P}
    {secrets : List Hash256} (h : generateSharedSecrets P keys sessionKey = some secrets) :
    secrets.length = keys.length := by
  cases keys with
  | nil => simp [generateSharedSecrets] at h
  | cons first rest =>
    simp only [generateSharedSecrets, Option.some.injEq] at h
    rw [← h]
    simp [length_sharedSecretsLoop]

theorem generateSharedSecrets_isSome (keys : List PublicKey) (sessionKey : PrivateKey P)
    (h : keys ≠ []) : ∃ secrets, generateSharedSecrets P keys sessionKey = some secrets := by
  cases keys with
  | nil => exact absurd rfl h
  | cons first rest => exact ⟨_, rfl⟩

/-! ### The hops -/

section Hops
variable {P} (sessionKey : PrivateKey P) (node : Nat → PrivateKey P)

/-- The ephemeral key hop `i` receives, re-blinded by every hop before it. -/
def hopEphemeral : Nat → PublicKey
  | 0 => sessionKey.pubKey
  | i + 1 =>
    blindGroupElement P (hopEphemeral i) (computeBlindingFactor P (hopEphemeral i)
      (generateSharedSecret P (hopEphemeral i) (node i)).toList).toList

/-- The shared secret hop `i` computes from the key it receives. -/
def hopSecret (i : Nat) : Hash256 :=
  generateSharedSecret P (hopEphemeral sessionKey node i) (node i)

/-- The factor hop `i` blinds the ephemeral key with. -/
def hopBlinding (i : Nat) : Hash256 :=
  computeBlindingFactor P (hopEphemeral sessionKey node i) (hopSecret sessionKey node i).toList

/-- No hop before hop `i` blinds with a multiple of the curve's order. -/
def BlindingsNonzero (i : Nat) : Prop :=
  ∀ j, j < i → beNat (hopBlinding sessionKey node j).toList % P.order ≠ 0

end Hops

/-! ### Agreement -/

section Agreement
variable {P} {E : Type} [AddCommGroup E] (C : CurveModel P E)

/-- The secret derived from an ECDH point. -/
def deriveSecret (Q : E) : Hash256 := P.sha256 (P.serializeCompressed (C.point Q))

/-- The blinding factor as a scalar. -/
def blindingScalar (Q : E) (secret : Hash256) : Nat :=
  beNat (computeBlindingFactor P (C.point Q) secret.toList).toList

variable (sessionKey : PrivateKey P) (node : Nat → PrivateKey P)

/-- The group element hop `i` receives. -/
def chainElement (i : Nat) : E :=
  Blinding.ephemeral C.base (deriveSecret C) (blindingScalar C) sessionKey.d (fun j => (node j).d) i

/-- The sender's cached scalar for hop `i`. -/
def chainScalar (i : Nat) : Nat :=
  Blinding.scalar P.order C.base (deriveSecret C) (blindingScalar C) sessionKey.d
    (fun j => (node j).d) i

theorem generateSharedSecret_point (Q : E) (priv : PrivateKey P) :
    generateSharedSecret P (C.point Q) priv = deriveSecret C (priv.d • Q) := by
  have hlen : (natBytes priv.d).length ≤ 32 :=
    length_natBytes_le (Nat.lt_of_lt_of_eq priv.d_lt (by decide))
  rw [generateSharedSecret, C.scalarMult_point _ _ hlen, beNat_natBytes, deriveSecret]

/-- The keys the hops hand on are the points of the abstract chain. -/
theorem hopEphemeral_eq (i : Nat) :
    hopEphemeral sessionKey node i = C.point (chainElement C sessionKey node i) := by
  induction i with
  | zero => exact C.pubKey_eq sessionKey
  | succ i ih =>
    rw [hopEphemeral, ih, generateSharedSecret_point, blindGroupElement,
      C.scalarMult_point _ _ (by rw [List.Vector.toList_length])]
    rfl

theorem hopSecret_eq (i : Nat) : hopSecret sessionKey node i =
    deriveSecret C ((node i).d • chainElement C sessionKey node i) := by
  rw [hopSecret, hopEphemeral_eq C, generateSharedSecret_point]

theorem hopBlinding_eq (i : Nat) : beNat (hopBlinding sessionKey node i).toList =
    blindingScalar C (chainElement C sessionKey node i)
      (deriveSecret C ((node i).d • chainElement C sessionKey node i)) := by
  rw [hopBlinding, hopSecret_eq C, hopEphemeral_eq C, blindingScalar]

theorem senderSecret_eq (i : Nat) :
    deriveSecret C (chainScalar C sessionKey node i • ((node i).d • C.base)) =
      hopSecret sessionKey node i := by
  rw [hopSecret_eq C]
  exact Blinding.shared_eq P.order C.base (deriveSecret C) (blindingScalar C) sessionKey.d
    (fun j => (node j).d) C.card i

theorem chainElement_eq (i : Nat) :
    chainElement C sessionKey node i = chainScalar C sessionKey node i • C.base :=
  Blinding.ephemeral_eq P.order C.base (deriveSecret C) (blindingScalar C) sessionKey.d
    (fun j => (node j).d) C.card i

/-- One turn of the sender's loop: multiplying in hop `i`'s blinding factor gives
the scalar of hop `i + 1`. -/
theorem chainScalar_succ (i : Nat) : chainScalar C sessionKey node (i + 1) =
    chainScalar C sessionKey node i * beNat (hopBlinding sessionKey node i).toList % P.order := by
  rw [hopBlinding_eq C, ← hopSecret_eq C, ← senderSecret_eq C, chainElement_eq C]
  rfl

theorem blindBaseElement_scalar (i : Nat) :
    blindBaseElement P (natBytes (chainScalar C sessionKey node (i + 1))) =
      hopEphemeral sessionKey node (i + 1) := by
  have hlen := C.length_natBytes_mod
    (chainScalar C sessionKey node i * beNat (hopBlinding sessionKey node i).toList)
  rw [← chainScalar_succ C] at hlen
  rw [blindBaseElement, C.scalarBaseMult_eq _ hlen, beNat_natBytes, hopEphemeral_eq C,
    chainElement_eq C]

theorem blindGroupElement_scalar (i : Nat) :
    P.sha256 (P.serializeCompressed (blindGroupElement P (node (i + 1)).pubKey
      (natBytes (chainScalar C sessionKey node (i + 1))))) = hopSecret sessionKey node (i + 1) := by
  have hlen := C.length_natBytes_mod
    (chainScalar C sessionKey node i * beNat (hopBlinding sessionKey node i).toList)
  rw [← chainScalar_succ C] at hlen
  rw [blindGroupElement, C.pubKey_eq, C.scalarMult_point _ _ hlen, beNat_natBytes,
    ← senderSecret_eq C]
  rfl

/-- The sender's loop, entered after hop `i`, yields the secrets of the hops that follow. -/
theorem sharedSecretsLoop_eq (k i : Nat) :
    sharedSecretsLoop P (chainScalar C sessionKey node i) (hopBlinding sessionKey node i)
      ((List.range' (i + 1) k).map fun j => (node j).pubKey) =
      (List.range' (i + 1) k).map (hopSecret sessionKey node) := by
  induction k generalizing i with
  | zero => rfl
  | succ k ih =>
    rw [List.range'_succ, List.map_cons, List.map_cons, sharedSecretsLoop]
    simp only [← chainScalar_succ C, blindBaseElement_scalar C, blindGroupElement_scalar C]
    cases k with
    | zero => rfl
    | succ k =>
      rw [if_neg (by simp [List.range'_succ])]
      congr 1
      exact ih (i + 1)

include C in
/-- **Sender and hops agree**: for a route whose keys are `node`'s, the sender's
secrets are the ones the hops compute. -/
theorem generateSharedSecrets_eq (n : Nat) (hn : 0 < n) :
    generateSharedSecrets P ((List.range n).map fun j => (node j).pubKey) sessionKey =
      some ((List.range n).map (hopSecret sessionKey node)) := by
  obtain ⟨k, rfl⟩ : ∃ k, n = k + 1 := ⟨n - 1, by omega⟩
  have hfirst : generateSharedSecret P (node 0).pubKey sessionKey = hopSecret sessionKey node 0 := by
    rw [C.pubKey_eq, generateSharedSecret_point C, ← senderSecret_eq C]
    rfl
  rw [List.range_eq_range', List.range'_succ, List.map_cons, List.map_cons, generateSharedSecrets,
    hfirst]
  congr 2
  exact sharedSecretsLoop_eq C sessionKey node k 0

/-- Every key a hop receives passes its on-curve check. -/
theorem hopEphemeral_isOnCurve (hx : sessionKey.d % P.order ≠ 0) (i : Nat)
    (hb : BlindingsNonzero sessionKey node i) :
    chainElement C sessionKey node i ≠ 0 ∧ P.isOnCurve (hopEphemeral sessionKey node i) = true := by
  have hne : chainElement C sessionKey node i ≠ 0 := by
    refine Blinding.ephemeral_ne_zero P.order C.base (deriveSecret C) (blindingScalar C) sessionKey.d
      (fun j => (node j).d) C.prime C.card C.base_ne_zero hx i fun j hj => ?_
    have := hb j hj
    rw [hopBlinding_eq C] at this
    exact this
  refine ⟨hne, ?_⟩
  rw [hopEphemeral_eq C]
  exact C.isOnCurve_point _ hne

include C in
omit sessionKey node in
theorem parse_serialize_pubKey (k : PrivateKey P) (hk : k.d % P.order ≠ 0) :
    (P.serializeCompressed k.pubKey).length = 33 ∧
      P.parsePubKey (P.serializeCompressed k.pubKey) = some k.pubKey := by
  have hne : k.d • C.base ≠ 0 :=
    (hopEphemeral_isOnCurve C k (fun _ => k) hk 0 fun j hj => absurd hj (Nat.not_lt_zero j)).1
  rw [C.pubKey_eq]
  exact ⟨C.length_serialize _ hne, C.parse_serialize _ hne⟩

include C in
/-- **The sender's secrets are the routers' secrets.** The key every hop is handed
passes its router's check, and the secret the router then derives is the sender's
for that hop. -/
theorem generateSharedSecrets_routers (hx : 1 ≤ sessionKey.d) (hlt : sessionKey.d < P.order)
    (n : Nat) (hn : 0 < n) (hb : BlindingsNonzero sessionKey node (n - 1)) :
    generateSharedSecrets P ((List.range n).map fun j => (node j).pubKey) sessionKey =
      some ((List.range n).map (hopSecret sessionKey node)) ∧
    ∀ i, i < n →
      P.isOnCurve (hopEphemeral sessionKey node i) = true ∧
      (⟨node i⟩ : Router P).generateSharedSecret (hopEphemeral sessionKey node i) =
        .ok (hopSecret sessionKey node i) := by
  refine ⟨generateSharedSecrets_eq C sessionKey node n hn, fun i hi => ?_⟩
  have hmod : sessionKey.d % P.order ≠ 0 := by
    rw [Nat.mod_eq_of_lt hlt]
    omega
  have hbi : BlindingsNonzero sessionKey node i := fun j hj => hb j (by omega)
  obtain ⟨-, hcurve⟩ := hopEphemeral_isOnCurve C sessionKey node hmod i hbi
  refine ⟨hcurve, ?_⟩
  rw [Router.generateSharedSecret, if_pos hcurve]
  rfl

end Agreement

/-- Three hops with the key of scalar 1, modulo 5 and with a constant hash. -/
theorem generateSharedSecrets_routers_sample :
    let key := sampleKey fun _ _ => sampleHash
    generateSharedSecrets _ (List.replicate 3 key.pubKey) key =
      some (List.replicate 3 sampleHash) ∧
    ∀ i, i < 3 → (⟨key⟩ : Router _).generateSharedSecret (hopEphemeral key (fun _ => key) i) =
      .ok sampleHash := by
  intro key
  have hb : BlindingsNonzero key (fun _ => key) 2 := by
    intro j _
    show beNat sampleHash.toList % 5 ≠ 0
    decide
  obtain ⟨hsecrets, hrouters⟩ := generateSharedSecrets_routers (sampleCurve fun _ _ => sampleHash)
    key (fun _ => key) (by decide) (by decide) 3 (by decide) hb
  exact ⟨hsecrets, fun i hi => (hrouters i hi).2⟩

end LightningOnion
