import LightningOnion.Packet.HopData
import LightningOnion.Replay.Batch

/-! Replay sets on the wire.

An encoding is the set's sequence numbers, two bytes each, in whatever order the map
is ranged over; nothing says where it ends. `decode` reads sequence numbers into a
set until the stream does: cleanly between two of them, or inside one, which is an
error. `decode_eq` says what that makes of any stream. -/
namespace LightningOnion
open Lib

theorem IterationOrder.toFinset_eq {κ : Type} [DecidableEq κ] {keys : Finset κ} {order : List κ}
    (h : IterationOrder keys order) : order.toFinset = keys := by
  ext k
  rw [List.mem_toFinset, h.mem_iff]

namespace ReplaySet

/-- The set with the listed sequence numbers added, one after the other. -/
def addAll (rs : ReplaySet) (seqNums : List UInt16) : ReplaySet := seqNums.foldl add rs

theorem addAll_eq (rs : ReplaySet) (seqNums : List UInt16) :
    rs.addAll seqNums = ⟨rs.replays ∪ seqNums.toFinset⟩ := by
  induction seqNums generalizing rs with
  | nil => simp [addAll]
  | cons s rest ih =>
    show (rs.add s).addAll rest = _
    rw [ih, add, List.toFinset_cons, Finset.insert_union, Finset.union_insert]

/-- The loop of `Merge`, in any order, adds the whole set. -/
theorem merge_eq_addAll (rs : ReplaySet) {rs2 : ReplaySet} {order : List UInt16}
    (ho : IterationOrder rs2.replays order) : rs.merge rs2 = rs.addAll order := by
  rw [addAll_eq, ho.toFinset_eq, merge]

/-- Writes the sequence numbers, ranging over the set in `order`. -/
def encode (_ : ReplaySet) (order : List UInt16) : List UInt8 :=
  order.flatMap fun seqNum => beBytes 2 seqNum.toNat

/-- Reads sequence numbers into the set, at most `fuel` times: the set, and the error
returned. `none` while it is still reading. -/
def decode : (fuel : Nat) → ReplaySet → Reader → Option (ReplaySet × Option Error)
  | 0, _, _ => none
  | fuel + 1, rs, r =>
    match r.readFull 2 with
    | .ok (buf, r') => decode fuel (rs.add (UInt16.ofNat (beNat buf))) r'
    | .error .eof => some (rs, none)
    | .error err => some (rs, some (.read err))

/-- The big-endian 16-bit values of a byte string; a last odd byte is none. -/
def seqNums : List UInt8 → List UInt16
  | hi :: lo :: rest => UInt16.ofNat (beNat [hi, lo]) :: seqNums rest
  | _ => []

/-- **What decoding makes of a stream**, however it is cut: all its values are added,
and an odd byte at the end is an error. Half as many reads as there are bytes, and one
more, are enough. -/
theorem decode_eq (fuel : Nat) (rs : ReplaySet) (data : List UInt8) (cuts : List Nat)
    (h : data.length / 2 < fuel) :
    decode fuel rs ⟨data, cuts⟩ = some (rs.addAll (seqNums data),
      if data.length % 2 = 0 then none else some (.read .unexpectedEOF)) := by
  induction fuel generalizing rs data cuts with
  | zero => omega
  | succ fuel ih =>
    match data with
    | [] =>
      rw [decode, Reader.readFull_of_lt _ 2 (by simp), if_pos rfl]
      rfl
    | [b] =>
      rw [decode, Reader.readFull_of_lt _ 2 (by simp), if_neg (by simp)]
      rfl
    | hi :: lo :: rest =>
      obtain ⟨cuts', hread⟩ := Reader.readFull_append [hi, lo] rest cuts
      have hfull : Reader.readFull ⟨hi :: lo :: rest, cuts⟩ 2 = .ok ([hi, lo], ⟨rest, cuts'⟩) := hread
      have hlen : (hi :: lo :: rest).length = rest.length + 2 := rfl
      rw [hlen] at h
      rw [decode, hfull, hlen, Nat.add_mod_right]
      exact ih (rs.add (UInt16.ofNat (beNat [hi, lo]))) rest cuts' (by omega)

theorem seqNums_beBytes (s : UInt16) (rest : List UInt8) :
    seqNums (beBytes 2 s.toNat ++ rest) = s :: seqNums rest := by
  have hlt : s.toNat < 256 ^ 2 := s.toNat_lt
  have hvalue : UInt16.ofNat (beNat (beBytes 2 s.toNat)) = s := by
    rw [beNat_beBytes_of_lt hlt, UInt16.ofNat_toNat]
  exact congrArg (· :: seqNums rest) hvalue

theorem seqNums_encode (rs : ReplaySet) (order : List UInt16) (rest : List UInt8) :
    seqNums (rs.encode order ++ rest) = order ++ seqNums rest := by
  induction order with
  | nil => rfl
  | cons s order ih =>
    rw [encode, List.flatMap_cons, List.append_assoc, seqNums_beBytes]
    exact congrArg (s :: ·) ih

theorem length_encode (rs : ReplaySet) (order : List UInt16) :
    (rs.encode order).length = 2 * order.length := by
  simp [encode, Nat.mul_comm]

theorem addAll_append (rs : ReplaySet) (a b : List UInt16) :
    rs.addAll (a ++ b) = (rs.addAll a).addAll b := List.foldl_append

/-- **The codec of replay sets.** Decoding ends on every stream; it succeeds exactly
on those of even length, and then the receiver has become its union with the stream's
values. An encoding takes two bytes a sequence number; two encodings, one after the
other, decode into the sets merged, and one into a new set is the set itself. -/
theorem decode_merges :
    (∀ (rs : ReplaySet) (data : List UInt8) (cuts : List Nat), ∃ rs' err,
      (∀ fuel, data.length / 2 < fuel → decode fuel rs ⟨data, cuts⟩ = some (rs', err)) ∧
      (err = none ↔ data.length % 2 = 0) ∧
      (err = none → rs'.replays = rs.replays ∪ (seqNums data).toFinset)) ∧
    (∀ (a : ReplaySet) (order : List UInt16), IterationOrder a.replays order →
      (a.encode order).length = 2 * a.size) ∧
    (∀ (a b c : ReplaySet) (order order' : List UInt16), IterationOrder a.replays order →
      IterationOrder b.replays order' → ∀ (cuts : List Nat) (fuel : Nat), a.size + b.size < fuel →
        decode fuel c ⟨a.encode order ++ b.encode order', cuts⟩ = some ((c.merge a).merge b, none) ∧
        (c.addAll order).addAll order' = (c.merge a).merge b ∧
        ((c.merge a).merge b).replays = c.replays ∪ a.replays ∪ b.replays) ∧
    (∀ (a : ReplaySet) (order : List UInt16), IterationOrder a.replays order →
      ∀ (cuts : List Nat) (fuel : Nat), a.size < fuel →
        decode fuel new ⟨a.encode order, cuts⟩ = some (a, none)) := by
  have hsize : ∀ (a : ReplaySet) (order : List UInt16), IterationOrder a.replays order →
      order.length = a.size := by
    intro a order ho
    rw [size, ← ho.toFinset_eq, List.toFinset_card_of_nodup ho.nodup]
  refine ⟨fun rs data cuts => ⟨_, _, fun fuel hfuel => decode_eq fuel rs data cuts hfuel, ?_, ?_⟩,
    fun a order ho => by rw [length_encode, hsize a order ho],
    fun a b c order order' ho ho' cuts fuel hfuel => ⟨?_, ?_, rfl⟩,
    fun a order ho cuts fuel hfuel => ?_⟩
  · by_cases heven : data.length % 2 = 0 <;> simp [heven]
  · intro _
    rw [addAll_eq]
  · have hlen : (a.encode order ++ b.encode order').length = 2 * (a.size + b.size) := by
      rw [List.length_append, length_encode, length_encode, hsize a order ho, hsize b order' ho']
      omega
    have hvalues := seqNums_encode b order' []
    rw [List.append_nil] at hvalues
    rw [decode_eq fuel c _ cuts (by rw [hlen]; omega), hlen, if_pos (by omega), seqNums_encode,
      hvalues, addAll_append, addAll_append, ← merge_eq_addAll _ ho, ← merge_eq_addAll _ ho']
    rfl
  · rw [← merge_eq_addAll _ ho, ← merge_eq_addAll _ ho']
  · have hvalues := seqNums_encode a order []
    rw [List.append_nil] at hvalues
    rw [decode_eq fuel new _ cuts (by rw [length_encode, hsize a order ho]; omega), length_encode,
      if_pos (by omega), hvalues, addAll_append, ← merge_eq_addAll _ ho]
    show some (ReplaySet.mk (∅ ∪ a.replays), none) = _
    rw [Finset.empty_union]

/-- Two sequence numbers in descending order, read byte by byte. -/
theorem decode_merges_pair : (encode ⟨{1, 2}⟩ [2, 1]).length = 4 ∧
    decode 3 new ⟨encode ⟨{1, 2}⟩ [2, 1], [1, 1, 1, 1]⟩ = some (⟨{1, 2}⟩, none) := by
  have ho : IterationOrder (ReplaySet.mk {1, 2}).replays [2, 1] :=
    ⟨by decide, fun k => by simp [or_comm]⟩
  obtain ⟨-, hlength, -, hdecode⟩ := decode_merges
  exact ⟨hlength ⟨{1, 2}⟩ [2, 1] ho, hdecode ⟨{1, 2}⟩ [2, 1] ho [1, 1, 1, 1] 3 (by decide)⟩

end ReplaySet

end LightningOnion
