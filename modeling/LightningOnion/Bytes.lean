import Mathlib.Data.Vector.Defs
import LightningOnion.Lib.Layers

/-! Byte arrays and slices.

`Bytes n` is Go's `[n]byte`; a slice is a list. The three in-place operations of
the package (`copy`, `xor`, `rightShift`) are written as the loops they are, each
followed by the string it leaves. Go checks every index and every bound, and panics
where one is out of range: `none`. `xor` is there without the checks as well, for
calls whose slices have the lengths by construction. -/
namespace LightningOnion
open Lib

/-- A fixed-size array of bytes. -/
abbrev Bytes (n : Nat) := List.Vector UInt8 n

/-- A freshly declared array. -/
def zeroBytes (n : Nat) : Bytes n := ⟨List.replicate n 0, List.length_replicate⟩

instance : Alphabet UInt8 where
  blank := 0
  mix := (· ^^^ ·)
  mix_comm := UInt8.xor_comm
  blank_mix := fun a => UInt8.zero_xor
  mix_mix := fun a b => by rw [UInt8.xor_assoc, UInt8.xor_self, UInt8.xor_zero]

/-! ### Indices and bounds -/

/-- `s[i] = b`. -/
def setAt (s : List UInt8) (i : Nat) (b : UInt8) : Option (List UInt8) :=
  if i < s.length then some (s.set i b) else none

/-- `s[lo:hi]`. -/
def slice (s : List UInt8) (lo hi : Int) : Option (List UInt8) :=
  if 0 ≤ lo ∧ lo ≤ hi ∧ hi ≤ s.length then some ((s.take hi.toNat).drop lo.toNat) else none

/-- `make([]byte, n)`. -/
def make (n : Int) : Option (List UInt8) :=
  if 0 ≤ n then some (List.replicate n.toNat 0) else none

/-- The array behind a slice of all of it. -/
def Bytes.ofSlice (n : Nat) (s : List UInt8) : Option (Bytes n) :=
  if h : s.length = n then some ⟨s, h⟩ else none

theorem slice_of_le {s : List UInt8} {lo hi : Nat} (hlo : lo ≤ hi) (hhi : hi ≤ s.length) :
    slice s lo hi = some ((s.take hi).drop lo) := by
  rw [slice, if_pos ⟨by omega, by omega, by omega⟩, Int.toNat_natCast, Int.toNat_natCast]

/-! ### `copy` -/

/-- Elements of `src` written over the front of `dst`, as far as both reach. -/
def overwrite : (dst src : List UInt8) → List UInt8
  | _ :: dst, x :: src => x :: overwrite dst src
  | dst, _ => dst

/-- `copy(dst[off:], src)`. -/
def copyAt (dst : List UInt8) (off : Nat) (src : List UInt8) : List UInt8 :=
  dst.take off ++ overwrite (dst.drop off) src

/-- `copy(dst[len(dst)-len(src):], src)`. -/
def copyTail (dst src : List UInt8) : Option (List UInt8) := do
  let tail ← slice dst (dst.length - src.length) dst.length
  return dst.take (dst.length - src.length) ++ overwrite tail src

theorem overwrite_eq (dst src : List UInt8) (h : src.length ≤ dst.length) :
    overwrite dst src = src ++ dst.drop src.length := by
  induction src generalizing dst with
  | nil => cases dst <;> rfl
  | cons x src ih =>
    cases dst with
    | nil => simp at h
    | cons y dst => simp [overwrite, ih dst (by simpa using h)]

@[simp] theorem length_overwrite (dst src : List UInt8) : (overwrite dst src).length = dst.length := by
  induction dst generalizing src with
  | nil => cases src <;> rfl
  | cons y dst ih =>
    cases src with
    | nil => rfl
    | cons x src => simp [overwrite, ih src]

@[simp] theorem length_copyAt (dst : List UInt8) (off : Nat) (src : List UInt8) :
    (copyAt dst off src).length = dst.length := by
  simp only [copyAt, List.length_append, List.length_take, length_overwrite, List.length_drop]
  omega

theorem copyAt_zero (dst src : List UInt8) (h : src.length ≤ dst.length) :
    copyAt dst 0 src = src ++ dst.drop src.length := by
  simp [copyAt, overwrite_eq dst src h]

/-- Copied to where it just fits, a slice replaces the end. -/
theorem copyAt_tail (dst src : List UInt8) (h : src.length ≤ dst.length) :
    copyAt dst (dst.length - src.length) src = overwriteTail dst src := by
  rw [copyAt, overwrite_eq _ _ (by rw [List.length_drop]; omega), List.drop_drop, overwriteTail,
    List.rdrop, List.drop_of_length_le (by omega), List.append_nil]

theorem copyTail_eq {dst src : List UInt8} (h : src.length ≤ dst.length) :
    copyTail dst src = some (copyAt dst (dst.length - src.length) src) := by
  have hbound : ((dst.length : Int) - src.length) = (dst.length - src.length : Nat) := by omega
  rw [copyTail, hbound, slice_of_le (Nat.sub_le _ _) (Nat.le_refl _), List.take_length]
  rfl

/-! ### `xor` -/

/-- Computes the bytewise XOR of `a` and `b` into `dst`; only the first
`min(len(a), len(b))` bytes of `dst` are touched. -/
def xor : (dst a b : List UInt8) → List UInt8
  | _ :: dst, x :: a, y :: b => (x ^^^ y) :: xor dst a b
  | dst, _, _ => dst

/-- The same, checked. -/
def xor? : (dst a b : List UInt8) → Option (List UInt8)
  | _ :: dst, x :: a, y :: b => (xor? dst a b).map ((x ^^^ y) :: ·)
  | [], _ :: _, _ :: _ => none
  | dst, _, _ => some dst

theorem xor?_eq {dst a b : List UInt8} (h : min a.length b.length ≤ dst.length) :
    xor? dst a b = some (xor dst a b) := by
  induction a generalizing dst b with
  | nil => cases dst <;> rfl
  | cons x a ih =>
    cases b with
    | nil => cases dst <;> rfl
    | cons y b =>
      cases dst with
      | nil => simp at h
      | cons d dst =>
        rw [xor?, ih (by simpa using h)]
        rfl

@[simp] theorem length_xor (dst a b : List UInt8) : (xor dst a b).length = dst.length := by
  induction dst generalizing a b with
  | nil => cases a <;> cases b <;> rfl
  | cons d dst ih =>
    cases a with
    | nil => rfl
    | cons x a =>
      cases b with
      | nil => rfl
      | cons y b => simp [xor, ih a b]

theorem xor_eq (dst a b : List UInt8) (h : min a.length b.length ≤ dst.length) :
    xor dst a b = pad a b ++ dst.drop (min a.length b.length) := by
  induction a generalizing dst b with
  | nil => cases dst <;> simp [xor, pad]
  | cons x a ih =>
    cases b with
    | nil => cases dst <;> simp [xor, pad]
    | cons y b =>
      cases dst with
      | nil => simp at h
      | cons d dst =>
        have hrest := ih dst b (by simpa using h)
        simp only [xor, hrest, List.length_cons, Nat.add_min_add_right, List.drop_succ_cons]
        rfl

theorem xor_self (a b : List UInt8) (h : a.length ≤ b.length) : xor a a b = pad a b := by
  rw [xor_eq a a b (by omega), List.drop_of_length_le (by omega), List.append_nil]

/-! ### `rightShift` -/

/-- `for i := k - 1; i >= 0; i-- { slice[num+i] = slice[i] }`. -/
def shiftLoop (num : Nat) : (k : Nat) → List UInt8 → Option (List UInt8)
  | 0, slice => some slice
  | i + 1, slice => do
    let b ← slice[i]?
    let slice ← setAt slice (num + i) b
    shiftLoop num i slice

/-- `for i := 0; i < num; i++ { slice[i] = 0 }`. -/
def zeroLoop : (num : Nat) → List UInt8 → Option (List UInt8)
  | 0, slice => some slice
  | i + 1, slice => do
    let slice ← zeroLoop i slice
    setAt slice i 0

/-- Shifts the slice by `num` bytes to the right and 0-fills the gap. -/
def rightShift (slice : List UInt8) (num : Nat) : Option (List UInt8) := do
  let slice ← shiftLoop num (slice.length - num) slice
  zeroLoop num slice

theorem drop_set_self {s : List UInt8} {i : Nat} {b : UInt8} (h : i < s.length) :
    (s.set i b).drop i = b :: s.drop (i + 1) := by
  rw [List.drop_set, if_neg (Nat.lt_irrefl i), Nat.sub_self, List.drop_eq_getElem_cons h,
    List.set_cons_zero]

/-- Descending, the loop reads each byte before it is overwritten. -/
theorem shiftLoop_eq (num : Nat) {k : Nat} {slice : List UInt8} (h : num + k ≤ slice.length) :
    shiftLoop num k slice = some (slice.take num ++ (slice.take k ++ slice.drop (num + k))) := by
  induction k generalizing slice with
  | zero => simp [shiftLoop]
  | succ i ih =>
    have hi : i < slice.length := by omega
    have hset : num + i < slice.length := by omega
    simp only [shiftLoop, List.getElem?_eq_getElem hi, setAt, if_pos hset, Option.bind_eq_bind,
      Option.bind_some]
    rw [ih (by rw [List.length_set]; omega), List.take_set_of_le (by omega),
      List.take_set_of_le (by omega), drop_set_self hset, List.take_add_one,
      List.getElem?_eq_getElem hi, Option.toList_some, List.append_assoc (slice.take i)]
    rfl

theorem zeroLoop_eq {num : Nat} {slice : List UInt8} (h : num ≤ slice.length) :
    zeroLoop num slice = some (List.replicate num 0 ++ slice.drop num) := by
  induction num with
  | zero => rfl
  | succ i ih =>
    have hi : i < slice.length := h
    have hlen : i < (List.replicate i (0 : UInt8) ++ slice.drop i).length := by simp; omega
    simp only [zeroLoop, ih (Nat.le_of_lt hi), Option.bind_eq_bind, Option.bind_some, setAt,
      if_pos hlen]
    rw [List.set_append_right i 0 (by simp), List.length_replicate, Nat.sub_self,
      List.drop_eq_getElem_cons hi, List.set_cons_zero, List.replicate_succ', List.append_assoc]
    rfl

theorem rightShift_eq {slice : List UInt8} {num : Nat} (h : num ≤ slice.length) :
    rightShift slice num = some (List.replicate num 0 ++ slice.take (slice.length - num)) := by
  have hall : num + (slice.length - num) = slice.length := by omega
  rw [rightShift, shiftLoop_eq num (Nat.le_of_eq hall), hall, List.drop_length, List.append_nil]
  simp only [Option.bind_eq_bind, Option.bind_some]
  rw [zeroLoop_eq (by simp; omega), List.drop_left' (by rw [List.length_take]; omega)]

end LightningOnion
