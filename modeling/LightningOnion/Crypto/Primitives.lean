import Mathlib.GroupTheory.OrderOfElement
import LightningOnion.Bytes
import LightningOnion.Lib.BigEndian

/-! What the package takes from elsewhere.

Hashing, the MAC, the stream cipher and the curve are parameters: `Primitives` is
whatever the linked packages compute, with no law. Where a result needs the curve
to be a curve it asks for a `CurveModel`: an abstract group of prime order whose
nonzero elements have the affine coordinates the curve package works on. -/
namespace LightningOnion
open Lib

/-- `btcec.PublicKey`: affine coordinates, nil until populated. -/
structure PublicKey where
  x : Option Int
  y : Option Int
  deriving DecidableEq, Repr

/-- `Hash256`: the output of a SHA256 hash. -/
abbrev Hash256 := Bytes 32

/-- The linked cryptography. -/
structure Primitives where
  /-- `sha256.Sum256`. -/
  sha256 : List UInt8 → Hash256
  /-- `hmac.New(sha256.New, key)`, fed `msg`. -/
  hmac : (key msg : List UInt8) → Bytes 32
  /-- Byte `i` of the ChaCha20 keystream under `key` and the zero nonce. -/
  chacha20 : (key : Bytes 32) → (i : Nat) → UInt8
  /-- `btcec.S256().Params().N`. -/
  order : Nat
  /-- `btcec.S256().IsOnCurve`. -/
  isOnCurve : PublicKey → Bool
  /-- `btcec.S256().ScalarMult`. -/
  scalarMult : PublicKey → List UInt8 → PublicKey
  /-- `btcec.S256().ScalarBaseMult`. -/
  scalarBaseMult : List UInt8 → PublicKey
  /-- `PublicKey.SerializeCompressed`. -/
  serializeCompressed : PublicKey → List UInt8
  /-- `btcec.ParsePubKey`. -/
  parsePubKey : List UInt8 → Option PublicKey

/-- The compressed key format is a codec: a key on the curve is written in 33 bytes
that parse to it, and 33 bytes that parse are those their key is written in. -/
structure KeyCodec (P : Primitives) : Prop where
  length_serialize : ∀ k, P.isOnCurve k = true → (P.serializeCompressed k).length = 33
  parse_serialize : ∀ k, P.isOnCurve k = true → P.parsePubKey (P.serializeCompressed k) = some k
  serialize_parse : ∀ bs k, bs.length = 33 → P.parsePubKey bs = some k → P.serializeCompressed k = bs

/-- `btcec.PrivateKey`: the scalar, and the public key stored with it. -/
structure PrivateKey (P : Primitives) where
  d : Nat
  pubKey : PublicKey
  d_lt : d < 2 ^ 256
  pubKey_eq : pubKey = P.scalarBaseMult (natBytes d)

/-- The private key with scalar `d`. -/
def PrivateKey.ofScalar (P : Primitives) (d : Nat) (h : d < 2 ^ 256) : PrivateKey P :=
  ⟨d, P.scalarBaseMult (natBytes d), h, rfl⟩

/-- The curve is a group of prime order: `point` gives the affine coordinates of a
group element (for the element at infinity, those the package represents it by),
scalar multiplication is exact on big-endian scalars of up to 32 bytes, reduced or
not, and a point other than infinity is on the curve and survives the compressed
encoding. -/
structure CurveModel (P : Primitives) (E : Type) [AddCommGroup E] where
  point : E → PublicKey
  base : E
  prime : P.order.Prime
  order_le : P.order ≤ 2 ^ 256
  card : Nat.card E = P.order
  base_ne_zero : base ≠ 0
  isOnCurve_point : ∀ Q, Q ≠ 0 → P.isOnCurve (point Q) = true
  scalarMult_point : ∀ Q k, k.length ≤ 32 → P.scalarMult (point Q) k = point (beNat k • Q)
  scalarBaseMult_eq : ∀ k, k.length ≤ 32 → P.scalarBaseMult k = point (beNat k • base)
  length_serialize : ∀ Q, Q ≠ 0 → (P.serializeCompressed (point Q)).length = 33
  parse_serialize : ∀ Q, Q ≠ 0 → P.parsePubKey (P.serializeCompressed (point Q)) = some (point Q)

namespace CurveModel
variable {P : Primitives} {E : Type} [AddCommGroup E] (C : CurveModel P E)

theorem pubKey_eq (k : PrivateKey P) : k.pubKey = C.point (k.d • C.base) := by
  have hlen : (natBytes k.d).length ≤ 32 :=
    length_natBytes_le (Nat.lt_of_lt_of_eq k.d_lt (by decide))
  rw [k.pubKey_eq, C.scalarBaseMult_eq _ hlen, beNat_natBytes]

include C in
/-- A reduced scalar fits the 32 bytes scalar multiplication is exact on. -/
theorem length_natBytes_mod (k : Nat) : (natBytes (k % P.order)).length ≤ 32 := by
  apply length_natBytes_le
  have hlt : k % P.order < P.order := Nat.mod_lt _ C.prime.pos
  exact Nat.lt_of_lt_of_le (Nat.lt_of_lt_of_le hlt C.order_le) (by decide)

end CurveModel

end LightningOnion
