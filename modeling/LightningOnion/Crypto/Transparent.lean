import Mathlib.Data.ZMod.Basic
import LightningOnion.Crypto.Primitives

/-! A curve with its discrete logarithms in the clear.

The residues modulo a prime, added, with the nonzero ones written as the points of
a curve. It keeps every law of `CurveModel`, whatever the hash, the MAC and the
cipher, so what is proved from those laws is about something. -/
namespace LightningOnion
open Lib

/-- The affine coordinates a residue is written with. -/
def residuePoint (n : Nat) : PublicKey := ⟨some n, some 0⟩

def residue (k : PublicKey) : Nat := (k.x.getD 0).toNat

/-- The residues modulo `p` as a curve, next to any hash, MAC and cipher. -/
def transparent (p : Nat) (sha256 : List UInt8 → Hash256) (hmac : (key msg : List UInt8) → Bytes 32)
    (chacha20 : Bytes 32 → Nat → UInt8) : Primitives where
  sha256 := sha256
  hmac := hmac
  chacha20 := chacha20
  order := p
  isOnCurve := fun k => decide (residue k ≠ 0)
  scalarMult := fun k s => residuePoint (beNat s * residue k % p)
  scalarBaseMult := fun s => residuePoint (beNat s % p)
  serializeCompressed := fun k => 2 :: beBytes 32 (residue k)
  parsePubKey := fun bytes => some (residuePoint (beNat bytes.tail))

section
variable (p : Nat) (hp : p.Prime) (hle : p ≤ 2 ^ 256) (sha256 : List UInt8 → Hash256)
  (hmac : (key msg : List UInt8) → Bytes 32) (chacha20 : Bytes 32 → Nat → UInt8)

/-- It is a group of prime order in the sense of `CurveModel`. -/
def transparentCurve : CurveModel (transparent p sha256 hmac chacha20) (ZMod p) where
  point := fun Q => residuePoint Q.val
  base := 1
  prime := hp
  order_le := hle
  card := Nat.card_zmod p
  base_ne_zero := by
    have : Fact p.Prime := ⟨hp⟩
    exact one_ne_zero
  isOnCurve_point := fun Q hQ => by
    show decide (Q.val ≠ 0) = true
    exact decide_eq_true fun h => hQ ((ZMod.val_eq_zero Q).mp h)
  scalarMult_point := fun Q k _ => by
    show residuePoint (beNat k * Q.val % p) = residuePoint (beNat k • Q).val
    rw [nsmul_eq_mul, ZMod.val_mul, ZMod.val_natCast, Nat.mod_mul_mod]
  scalarBaseMult_eq := fun k _ => by
    show residuePoint (beNat k % p) = residuePoint (beNat k • (1 : ZMod p)).val
    rw [nsmul_eq_mul, mul_one, ZMod.val_natCast]
  length_serialize := fun Q _ => by
    show (2 :: beBytes 32 Q.val).length = 33
    rw [List.length_cons, length_beBytes]
  parse_serialize := fun Q _ => by
    show some (residuePoint (beNat (beBytes 32 Q.val))) = some (residuePoint Q.val)
    have : Fact p.Prime := ⟨hp⟩
    have hlt : Q.val < 256 ^ 32 :=
      Nat.lt_of_lt_of_le (Nat.lt_of_lt_of_le (ZMod.val_lt Q) hle) (by decide)
    rw [beNat_beBytes_of_lt hlt]

end

/-- A hash that is the same for every input. -/
def sampleHash : Hash256 := ⟨List.replicate 32 2, List.length_replicate⟩

theorem sampleHash_ne_zero : sampleHash ≠ zeroBytes 32 := by decide

/-- Residues modulo 5 with a constant hash and an all-zero keystream, next to any MAC. -/
def samplePrimitives (hmac : (key msg : List UInt8) → Bytes 32) : Primitives :=
  transparent 5 (fun _ => sampleHash) hmac (fun _ _ => 0)

def sampleCurve (hmac : (key msg : List UInt8) → Bytes 32) :
    CurveModel (samplePrimitives hmac) (ZMod 5) :=
  transparentCurve 5 (by decide) (by decide) _ _ _

/-- Parses exactly what `transparent` writes. -/
def parseResidue (bytes : List UInt8) : Option PublicKey :=
  if bytes.length = 33 ∧ bytes.head? = some 2 then some (residuePoint (beNat bytes.tail)) else none

/-- The same residues with a strict key format: a key is on the curve when it is
one the format can write. -/
def strictPrimitives : Primitives :=
  { samplePrimitives fun _ _ => zeroBytes 32 with
    isOnCurve := fun k => decide (k = residuePoint (residue k) ∧ residue k < 256 ^ 32)
    parsePubKey := parseResidue }

theorem strict_keyCodec : KeyCodec strictPrimitives where
  length_serialize := fun k _ => by
    show (2 :: beBytes 32 (residue k)).length = 33
    rw [List.length_cons, length_beBytes]
  parse_serialize := fun k hk => by
    obtain ⟨hpoint, hlt⟩ := of_decide_eq_true hk
    show parseResidue (2 :: beBytes 32 (residue k)) = some k
    rw [parseResidue, if_pos ⟨by rw [List.length_cons, length_beBytes], rfl⟩, List.tail_cons,
      beNat_beBytes_of_lt hlt, ← hpoint]
  serialize_parse := fun bs k hlen hparse => by
    have h : parseResidue bs = some k := hparse
    unfold parseResidue at h
    split at h
    · rename_i hbs
      cases h
      cases bs with
      | nil => cases hlen
      | cons b bs =>
        obtain rfl : b = 2 := Option.some.inj hbs.2
        have htail : bs.length = 32 := Nat.succ.inj hlen
        show 2 :: beBytes 32 (beNat bs) = 2 :: bs
        rw [← htail, beBytes_beNat]
    · cases h

theorem one_lt_scalars : 1 < 2 ^ 256 := by decide

/-- The key with scalar 1. -/
def sampleKey (hmac : (key msg : List UInt8) → Bytes 32) : PrivateKey (samplePrimitives hmac) :=
  .ofScalar _ 1 one_lt_scalars

end LightningOnion
