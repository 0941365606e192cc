import LightningOnion.Packet.Path

/-! The filler strings.

`headerPadding` is the loop of `generateHeaderPadding`, over the keystreams it
derives: one buffer of the final size, into whose front a growing window of each
hop's keystream is XOR'd. It leaves the filler of the layered header
(`headerPadding_eq`). -/
namespace LightningOnion
open Lib

/-- The fixed size of the routing info. -/
def routingInfoSize : Nat := numMaxHops * hopDataSize

/-- The number of keystream bytes per layer: the header and one hop more. -/
def numStreamBytes : Nat := routingInfoSize + hopDataSize

theorem hopDataSize_eq : hopDataSize = 65 := rfl
theorem routingInfoSize_eq : routingInfoSize = 1300 := rfl
theorem numStreamBytes_eq : numStreamBytes = 1365 := rfl

/-- Iteration `i` of the padding loop: hop `i - 1`'s keystream goes over the first
`i` hop sizes of the filler. -/
def padStep (stream : Nat → Option (List UInt8)) (hopSize : Nat) (filler : List UInt8) (i : Nat) :
    Option (List UInt8) := do
  let totalFillerSize : Int := (numMaxHops - i + 1) * hopSize
  let streamBytes ← stream (i - 1)
  let window ← slice streamBytes totalFillerSize (totalFillerSize + i * hopSize)
  xor? filler filler window

/-- The padding loop over the hops' keystreams. -/
def headerPadding (stream : Nat → Option (List UInt8)) (numHops hopSize : Nat) :
    Option (List UInt8) := do
  let filler ← make ((numHops - 1) * hopSize)
  (List.range' 1 (numHops - 1)).foldlM (padStep stream hopSize) filler

/-- Derives the bytes that pad the mix header, so that it keeps its size in transit. -/
def generateHeaderPadding (P : Primitives) (key : KeyType) (numHops hopSize : Nat)
    (sharedSecrets : List Hash256) : Option (List UInt8) :=
  headerPadding (fun i => (sharedSecrets[i]?).map fun secret =>
    generateCipherStream P (generateKey P key secret) numStreamBytes) numHops hopSize

section
variable (stream : Nat → List UInt8) (n : Nat) (hn : n ≤ numMaxHops)
  (hstream : ∀ i, i + 1 < n → (stream i).length = numStreamBytes)
include hn hstream

theorem filler_length_of {k : Nat} (hk : k + 1 ≤ n) :
    (filler hopDataSize stream k).length = k * hopDataSize := by
  apply length_filler
  intro j hj
  rw [hstream j (by omega), numStreamBytes_eq, hopDataSize_eq]
  have : numMaxHops = 20 := rfl
  omega

/-- The window is in range, and is the end of the keystream. -/
theorem slice_window {k : Nat} (hk : k + 1 < n) :
    slice (stream k) ((numMaxHops - (k + 1 : Nat) + 1) * hopDataSize)
      ((numMaxHops - (k + 1 : Nat) + 1) * hopDataSize + (k + 1 : Nat) * hopDataSize) =
      some ((stream k).rtake ((k + 1) * hopDataSize)) := by
  have hmax : numMaxHops = 20 := rfl
  have hlen := hstream k hk
  have hstart : ((numMaxHops : Int) - (k + 1 : Nat) + 1) * hopDataSize =
      ((numMaxHops - k) * hopDataSize : Nat) := by
    rw [hmax, hopDataSize_eq]
    omega
  have hend : (numMaxHops - k) * hopDataSize + (k + 1) * hopDataSize = numStreamBytes := by
    rw [hmax, hopDataSize_eq, numStreamBytes_eq]
    omega
  have hcast : (((numMaxHops - k) * hopDataSize : Nat) : Int) + (k + 1 : Nat) * hopDataSize =
      (numStreamBytes : Nat) := by
    exact_mod_cast hend
  rw [hstart, hcast, slice_of_le (by omega) (Nat.le_of_eq hlen.symm), ← hlen, List.take_length,
    List.rtake]
  congr 2
  omega

/-- One iteration turns the filler of `k` hops into that of `k + 1`, in place. -/
theorem padStep_eq (stream' : Nat → Option (List UInt8)) {k : Nat} (hk : k + 1 < n)
    (hs : stream' k = some (stream k)) (rest : Nat) :
    padStep stream' hopDataSize
      (filler hopDataSize stream k ++ List.replicate ((rest + 1) * hopDataSize) 0) (k + 1) =
      some (filler hopDataSize stream (k + 1) ++ List.replicate (rest * hopDataSize) 0) := by
  have hfill := filler_length_of stream n hn hstream (k := k) (by omega)
  have hwin : ((stream k).rtake ((k + 1) * hopDataSize)).length = (k + 1) * hopDataSize := by
    have hmax : numMaxHops = 20 := rfl
    rw [List.rtake, List.length_drop, hstream k hk, numStreamBytes_eq, hopDataSize_eq]
    omega
  have hsplit : filler hopDataSize stream k ++ List.replicate ((rest + 1) * hopDataSize) (0 : UInt8) =
      filler hopDataSize stream k ++ blanks hopDataSize ++ List.replicate (rest * hopDataSize) 0 := by
    rw [List.append_assoc, Nat.succ_mul, Nat.add_comm (rest * hopDataSize), List.replicate_add]
    rfl
  have hfront : (filler hopDataSize stream k ++ blanks hopDataSize).length = (k + 1) * hopDataSize := by
    rw [List.length_append, hfill, length_blanks, Nat.succ_mul]
  simp only [padStep, Nat.add_sub_cancel, hs, slice_window stream n hn hstream hk, Option.bind_eq_bind,
    Option.bind_some]
  rw [hsplit, xor?_eq (Nat.min_le_left _ _)]
  generalize hF : filler hopDataSize stream k ++ blanks hopDataSize = F at hfront
  rw [xor_eq _ _ _ (Nat.min_le_left _ _), List.length_append, hwin, hfront,
    Nat.min_eq_right (Nat.le_add_right _ _), List.drop_left' hfront]
  congr 2
  have happ := pad_append F ((stream k).rtake ((k + 1) * hopDataSize))
    (List.replicate (rest * hopDataSize) 0) [] (by rw [hfront, hwin])
  rw [List.append_nil] at happ
  rw [happ, filler, hF]
  simp [pad]

/-- **The padding loop computes the filler**, and never reads out of range. -/
theorem headerPadding_eq (hpos : 0 < n) (stream' : Nat → Option (List UInt8))
    (hs : ∀ i, i + 1 < n → stream' i = some (stream i)) :
    headerPadding stream' n hopDataSize = some (filler hopDataSize stream (n - 1)) := by
  have hloop : ∀ k rest, k + rest + 1 = n →
      (List.range' 1 k).foldlM (padStep stream' hopDataSize)
        (List.replicate ((n - 1) * hopDataSize) 0) =
      some (filler hopDataSize stream k ++ List.replicate (rest * hopDataSize) 0) := by
    intro k
    induction k with
    | zero =>
      intro rest hk
      obtain rfl : rest = n - 1 := by omega
      rfl
    | succ k ih =>
      intro rest hk
      rw [List.range'_1_concat, List.foldlM_append, ih (rest + 1) (by omega), Nat.add_comm 1 k]
      simp only [Option.bind_eq_bind, Option.bind_some, List.foldlM_cons, List.foldlM_nil,
        padStep_eq stream n hn hstream stream' (k := k) (by omega) (hs k (by omega)) rest]
      rfl
  have hmake : make ((n - 1) * hopDataSize) = some (List.replicate ((n - 1) * hopDataSize) 0) := by
    have hcast : ((n : Int) - 1) * hopDataSize = ((n - 1) * hopDataSize : Nat) := by
      rw [Nat.cast_mul, Nat.cast_sub hpos, Nat.cast_one]
    rw [hcast, make, if_pos (Int.natCast_nonneg _), Int.toNat_natCast]
  rw [headerPadding, hmake]
  simp only [Option.bind_eq_bind, Option.bind_some]
  rw [hloop (n - 1) 0 (by omega)]
  simp

end

end LightningOnion
