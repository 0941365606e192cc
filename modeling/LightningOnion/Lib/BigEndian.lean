import Mathlib.Data.Nat.Log
import Mathlib.Algebra.Order.Ring.Nat

/-! Numbers as big-endian byte strings.

`beBytes w v` is `v` in exactly `w` bytes, most significant first, as a
fixed-width field is written; `natBytes v` is the shortest such string, as a big
integer is. Both read back with `beNat`. -/
namespace LightningOnion.Lib

/-- The low `w` bytes of `v`, most significant first. -/
def beBytes : (w v : Nat) → List UInt8
  | 0, _ => []
  | w + 1, v => UInt8.ofNat (v / 256 ^ w) :: beBytes w v

/-- The number a byte string spells. -/
def beNat : List UInt8 → Nat
  | [] => 0
  | b :: bs => b.toNat * 256 ^ bs.length + beNat bs

/-- The shortest byte string that spells `v`; empty for zero. -/
def natBytes (v : Nat) : List UInt8 := beBytes (if v = 0 then 0 else v.log2 / 8 + 1) v

@[simp] theorem length_beBytes (w v : Nat) : (beBytes w v).length = w := by
  induction w with
  | zero => rfl
  | succ w ih => simp [beBytes, ih]

theorem beNat_beBytes (w v : Nat) : beNat (beBytes w v) = v % 256 ^ w := by
  induction w with
  | zero => simp [beBytes, beNat, Nat.mod_one]
  | succ w ih =>
    have hbyte : (UInt8.ofNat (v / 256 ^ w)).toNat = v / 256 ^ w % 256 := UInt8.toNat_ofNat'
    rw [beBytes, beNat, length_beBytes, ih, hbyte, Nat.pow_succ, Nat.mod_mul, Nat.add_comm,
      Nat.mul_comm]

theorem beNat_beBytes_of_lt {w v : Nat} (h : v < 256 ^ w) : beNat (beBytes w v) = v := by
  rw [beNat_beBytes, Nat.mod_eq_of_lt h]

theorem beNat_lt (bs : List UInt8) : beNat bs < 256 ^ bs.length := by
  induction bs with
  | nil => exact Nat.one_pos
  | cons b bs ih =>
    have hb : b.toNat + 1 ≤ 256 := b.toNat_lt
    calc b.toNat * 256 ^ bs.length + beNat bs
        < b.toNat * 256 ^ bs.length + 256 ^ bs.length := Nat.add_lt_add_left ih _
      _ = (b.toNat + 1) * 256 ^ bs.length := by rw [Nat.succ_mul]
      _ ≤ 256 * 256 ^ bs.length := Nat.mul_le_mul_right _ hb
      _ = 256 ^ (b :: bs).length := by rw [List.length_cons, Nat.pow_succ, Nat.mul_comm]

/-- Bytes above the width do not show. -/
theorem beBytes_add_mul (w k v : Nat) : beBytes w (k * 256 ^ w + v) = beBytes w v := by
  induction w generalizing k with
  | zero => rfl
  | succ w ih =>
    have hsplit : k * 256 ^ (w + 1) + v = k * 256 * 256 ^ w + v := by
      rw [Nat.pow_succ, Nat.mul_comm (256 ^ w), Nat.mul_assoc]
    have hdiv : (k * 256 * 256 ^ w + v) / 256 ^ w = k * 256 + v / 256 ^ w := by
      rw [Nat.add_comm, Nat.add_mul_div_right _ _ (Nat.pow_pos (by decide)), Nat.add_comm]
    rw [hsplit, beBytes, beBytes, ih, hdiv]
    congr 1
    apply UInt8.toNat_inj.mp
    rw [UInt8.toNat_ofNat', UInt8.toNat_ofNat', Nat.mul_add_mod_self_right]

theorem beBytes_beNat (bs : List UInt8) : beBytes bs.length (beNat bs) = bs := by
  induction bs with
  | nil => rfl
  | cons b bs ih =>
    have hhead : (b.toNat * 256 ^ bs.length + beNat bs) / 256 ^ bs.length = b.toNat := by
      rw [Nat.add_comm, Nat.add_mul_div_right _ _ (Nat.pow_pos (by decide)),
        Nat.div_eq_of_lt (beNat_lt bs), Nat.zero_add]
    rw [List.length_cons, beBytes, beNat, hhead, beBytes_add_mul, ih, UInt8.ofNat_toNat]

theorem beNat_natBytes (v : Nat) : beNat (natBytes v) = v := by
  unfold natBytes
  split
  · rename_i h
    rw [h]
    rfl
  · apply beNat_beBytes_of_lt
    have hlog : v < 2 ^ (v.log2 + 1) := Nat.lt_log2_self
    have hpow : (256 : Nat) ^ (v.log2 / 8 + 1) = 2 ^ (8 * (v.log2 / 8 + 1)) := by
      rw [Nat.pow_mul]
    rw [hpow]
    exact Nat.lt_of_lt_of_le hlog (Nat.pow_le_pow_right (by decide) (by omega))

theorem length_natBytes_le {w v : Nat} (h : v < 256 ^ w) : (natBytes v).length ≤ w := by
  unfold natBytes
  split
  · simp
  · rename_i h0
    have hpow : (256 : Nat) ^ w = 2 ^ (8 * w) := by rw [Nat.pow_mul]
    rw [hpow] at h
    have hlog : v.log2 < 8 * w := (Nat.log2_lt h0).mpr h
    rw [length_beBytes]
    omega

end LightningOnion.Lib
