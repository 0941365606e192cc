import Mathlib.Data.List.DropRight
import LightningOnion.Lib.Pad

/-! Nested headers of constant length.

A header of `L` letters carries one payload of `h` letters for each of `n` hops.
The sender works inwards out: a layer lays the hop's payload in front of the
inner header, drops the `h` letters that no longer fit, and adds the hop's
keystream. A hop works outwards in: it extends the header by `h` blanks, takes the
keystream off and cuts its payload off the front, so the length never changes.

The letters the sender drops are the ones the hop's blanks turn into, if the
inner header already ends in them. `filler` is that ending: what the blanks of the
first `i` hops have become when hop `i` sees them. The sender plants the last
filler once, in the innermost header, and every outer header then ends in its own
(`Layers.header_tail`), so every hop recovers its payload and the next header
exactly (`Layers.peel_header`). -/
namespace LightningOnion.Lib
variable {α : Type} [Alphabet α]

/-- A layer: the payload in front of the inner header, cut to `L` letters, under
the front of the keystream. -/
def wrap (L : Nat) (stream payload inner : List α) : List α :=
  pad (payload ++ inner.take (L - payload.length)) (stream.take L)

/-- Extended by `h` blanks, the header without its keystream. -/
def peel (h : Nat) (stream header : List α) : List α := pad (header ++ blanks h) stream

/-- The end of `header` replaced by `tail`. -/
def overwriteTail (header tail : List α) : List α := header.rdrop tail.length ++ tail

/-- What the blanks of hops `0, …, i - 1` have become at hop `i`. -/
def filler (h : Nat) (stream : Nat → List α) : Nat → List α
  | 0 => []
  | i + 1 => pad (filler h stream i ++ blanks h) ((stream i).rtake ((i + 1) * h))

theorem length_wrap (L : Nat) (stream payload inner : List α) (hs : L ≤ stream.length)
    (hp : payload.length ≤ L) (hi : L ≤ inner.length + payload.length) :
    (wrap L stream payload inner).length = L := by
  simp only [wrap, length_pad, List.length_append, List.length_take]
  omega

omit [Alphabet α] in
theorem length_overwriteTail (header tail : List α) (h : tail.length ≤ header.length) :
    (overwriteTail header tail).length = header.length := by
  simp only [overwriteTail, List.rdrop, List.length_append, List.length_take]
  omega

omit [Alphabet α] in
theorem rtake_append_of_le (a b : List α) {n : Nat} (h : n ≤ b.length) :
    (a ++ b).rtake n = b.rtake n := by
  have hstart : (a ++ b).length - n = a.length + (b.length - n) := by
    rw [List.length_append]
    omega
  rw [List.rtake, List.rtake, hstart, List.drop_length_add_append]

omit [Alphabet α] in
theorem drop_rtake (a : List α) {n k : Nat} (hn : n ≤ a.length) (hk : k ≤ n) :
    (a.rtake n).drop k = a.rtake (n - k) := by
  rw [List.rtake, List.rtake, List.drop_drop]
  congr 1
  omega

theorem length_filler (h : Nat) (stream : Nat → List α) (i : Nat)
    (hs : ∀ j, j < i → (j + 1) * h ≤ (stream j).length) : (filler h stream i).length = i * h := by
  induction i with
  | zero => simp [filler]
  | succ i ih =>
    have hi : (filler h stream i).length = i * h := ih fun j hj => hs j (by omega)
    have hlen := hs i (by omega)
    simp only [filler, length_pad, List.length_append, length_blanks, List.rtake, List.length_drop, hi]
    rw [Nat.succ_mul] at hlen ⊢
    omega

/-- A header that ends in the filler at hop `i` ends, after the hop's blanks and its
keystream, in the filler at hop `i + 1`. -/
theorem rtake_peel (L h : Nat) (stream : Nat → List α) (header : List α) {i : Nat}
    (hlen : header.length = L) (hs : (stream i).length = L + h) (hfit : i * h ≤ L)
    (htail : header.rtake (i * h) = filler h stream i) :
    (peel h (stream i) header).rtake ((i + 1) * h) = filler h stream (i + 1) := by
  have hpeel : (peel h (stream i) header).length = L + h := by
    rw [peel, length_pad, List.length_append, length_blanks, hlen, hs, Nat.min_self]
  have hstart : L + h - (i + 1) * h = L - i * h := by
    rw [Nat.succ_mul]
    omega
  rw [List.rtake, hlen] at htail
  rw [List.rtake, hpeel, hstart, peel, drop_pad,
    List.drop_append_of_le_length (by rw [hlen]; omega), htail, filler, List.rtake, hs, hstart]

/-- A hop takes off what the sender put on: the payload, what was kept of the
inner header, and the keystream's own end where the blanks were. -/
theorem peel_wrap (L h : Nat) (stream payload inner : List α) (hs : stream.length = L + h)
    (hp : payload.length = h) (hi : inner.length = L) (hle : h ≤ L) :
    peel h stream (wrap L stream payload inner) = payload ++ inner.take (L - h) ++ stream.drop L := by
  have hbody : (payload ++ inner.take (L - h)).length = L := by
    simp only [List.length_append, List.length_take]
    omega
  have hlen : (wrap L stream payload inner).length = L :=
    length_wrap L stream payload inner (by omega) (by omega) (by omega)
  have hfront : pad (wrap L stream payload inner) (stream.take L) = payload ++ inner.take (L - h) := by
    rw [wrap, hp]
    exact pad_pad _ _ (by rw [hbody, List.length_take]; omega)
  have hback : pad (blanks h) (stream.drop L) = stream.drop L := by
    rw [blanks_pad]
    exact List.take_of_length_le (by rw [List.length_drop]; omega)
  calc peel h stream (wrap L stream payload inner)
      = pad (wrap L stream payload inner ++ blanks h) (stream.take L ++ stream.drop L) := by
        rw [peel, List.take_append_drop]
    _ = pad (wrap L stream payload inner) (stream.take L) ++ pad (blanks h) (stream.drop L) :=
        pad_append _ _ _ _ (by rw [hlen, List.length_take]; omega)
    _ = payload ++ inner.take (L - h) ++ stream.drop L := by rw [hfront, hback]

/-- With its end replaced by `tail`, a layer gives up the payload, what `tail` left
of the inner header, `tail` without the keystream, and the keystream's own end. -/
theorem peel_overwriteTail (L h : Nat) (stream payload inner tail : List α)
    (hs : stream.length = L + h) (hp : payload.length = h) (hi : inner.length = L)
    (ht : tail.length + h ≤ L) :
    peel h stream (overwriteTail (wrap L stream payload inner) tail) =
      payload ++ (inner.take (L - h - tail.length) ++
        (pad tail ((stream.drop (L - tail.length)).take tail.length) ++ stream.drop L)) := by
  generalize ha : tail.length = a at ht ⊢
  have hlen : (wrap L stream payload inner).length = L :=
    length_wrap L stream payload inner (by omega) (by omega) (by omega)
  have hbody : (payload ++ inner.take (L - h)).take (L - a) =
      payload ++ inner.take (L - h - a) := by
    rw [List.take_append, List.take_of_length_le (by omega), hp, List.take_take]
    congr 2
    omega
  have hbodylen : (payload ++ inner.take (L - h - a)).length = L - a := by
    rw [List.length_append, hp, List.length_take, hi]
    omega
  have hfront : (wrap L stream payload inner).take (L - a) =
      pad (payload ++ inner.take (L - h - a)) (stream.take (L - a)) := by
    rw [wrap, take_pad, hp, hbody, List.take_take]
    congr 2
    omega
  have hsplit : stream = stream.take (L - a) ++ ((stream.drop (L - a)).take a ++ stream.drop L) := by
    have hdrop : stream.drop L = (stream.drop (L - a)).drop a := by
      rw [List.drop_drop]
      congr 1
      omega
    rw [hdrop, List.take_append_drop, List.take_append_drop]
  have hblanks : pad (blanks h) (stream.drop L) = stream.drop L := by
    rw [blanks_pad]
    exact List.take_of_length_le (by rw [List.length_drop]; omega)
  calc peel h stream (overwriteTail (wrap L stream payload inner) tail)
      = pad (pad (payload ++ inner.take (L - h - a)) (stream.take (L - a)) ++ (tail ++ blanks h))
          (stream.take (L - a) ++ ((stream.drop (L - a)).take a ++ stream.drop L)) := by
        rw [peel, overwriteTail, List.rdrop, hlen, ha, hfront, ← hsplit, List.append_assoc]
    _ = pad (pad (payload ++ inner.take (L - h - a)) (stream.take (L - a))) (stream.take (L - a)) ++
          (pad tail ((stream.drop (L - a)).take a) ++ pad (blanks h) (stream.drop L)) := by
        rw [pad_append _ _ _ _ (by rw [length_pad, hbodylen, List.length_take]; omega),
          pad_append _ _ _ _ (by rw [ha, List.length_take, List.length_drop]; omega)]
    _ = _ := by
        rw [pad_pad _ _ (by rw [hbodylen, List.length_take]; omega), hblanks, List.append_assoc]

/-- An onion of `n` layers: the headers the sender goes through, innermost last. -/
structure Layers (α : Type) [Alphabet α] (L h n : Nat) where
  stream : Nat → List α
  payload : Nat → List α
  header : Nat → List α
  /-- What the innermost layer is wrapped around. -/
  core : List α
  pos : 0 < n
  room : n * h ≤ L
  stream_length : ∀ i, i < n → (stream i).length = L + h
  payload_length : ∀ i, i < n → (payload i).length = h
  core_length : core.length = L
  header_last : header (n - 1) =
    overwriteTail (wrap L (stream (n - 1)) (payload (n - 1)) core) (filler h stream (n - 1))
  header_step : ∀ i, i + 1 < n → header i = wrap L (stream i) (payload i) (header (i + 1))

namespace Layers
variable {L h n : Nat} (o : Layers α L h n)

include o in
theorem fits {i : Nat} (hi : i < n) : i * h + h ≤ L := by
  have := Nat.mul_le_mul_right h (Nat.succ_le_of_lt hi)
  rw [Nat.succ_mul] at this
  exact Nat.le_trans this o.room

theorem filler_length {i : Nat} (hi : i < n) : (filler h o.stream i).length = i * h := by
  apply length_filler
  intro j hj
  have := o.fits (i := j) (by omega)
  rw [o.stream_length j (by omega), Nat.succ_mul]
  omega

/-- The innermost layer before its end is replaced. -/
theorem wrap_core_length :
    (wrap L (o.stream (n - 1)) (o.payload (n - 1)) o.core).length = L := by
  have hn : n - 1 < n := Nat.sub_lt o.pos Nat.one_pos
  have hfit := o.fits hn
  apply length_wrap
  · rw [o.stream_length _ hn]
    omega
  · rw [o.payload_length _ hn]
    omega
  · rw [o.core_length]
    omega

/-- Downward induction along the layers, from the innermost out. -/
theorem inward {P : Nat → Prop} (hlast : P (n - 1)) (hstep : ∀ i, i + 1 < n → P (i + 1) → P i)
    {i : Nat} (hi : i < n) : P i := by
  obtain ⟨k, hk⟩ : ∃ k, i + k + 1 = n := ⟨n - 1 - i, by omega⟩
  induction k generalizing i with
  | zero =>
    have : i = n - 1 := by omega
    rw [this]
    exact hlast
  | succ k ih => exact hstep i (by omega) (ih (by omega) (by omega))

theorem header_length {i : Nat} (hi : i < n) : (o.header i).length = L := by
  refine inward (P := fun i => (o.header i).length = L) ?_ ?_ hi
  · have hn : n - 1 < n := Nat.sub_lt o.pos Nat.one_pos
    have hfit := o.fits hn
    rw [o.header_last, length_overwriteTail, o.wrap_core_length]
    rw [o.wrap_core_length, o.filler_length hn]
    omega
  · intro i hi hinner
    have hfit := o.fits hi
    rw [o.header_step i hi]
    apply length_wrap
    · rw [o.stream_length i (by omega)]
      omega
    · rw [o.payload_length i (by omega)]
      omega
    · rw [hinner]
      omega

/-- **The header hop `i` checks ends in the filler of the hops before it.** -/
theorem header_tail {i : Nat} (hi : i < n) : (o.header i).rtake (i * h) = filler h o.stream i := by
  refine inward (P := fun i => (o.header i).rtake (i * h) = filler h o.stream i) ?_ ?_ hi
  · -- The innermost header ends in the filler because the sender put it there.
    have hn : n - 1 < n := Nat.sub_lt o.pos Nat.one_pos
    have hfill := o.filler_length hn
    have hfit := o.fits hn
    have hlen := o.header_length hn
    rw [List.rtake, hlen, o.header_last, overwriteTail, List.rdrop, o.wrap_core_length, hfill,
      List.drop_append_of_le_length (by rw [List.length_take, o.wrap_core_length]; omega),
      List.drop_take, Nat.sub_self]
    simp
  · -- An outer one drops the `h` letters the hop's blanks will become; its keystream
    -- undoes the hop's on the rest.
    intro i hi hinner
    have hfit := o.fits hi
    rw [Nat.succ_mul] at hinner hfit
    have hs := o.stream_length i (by omega)
    have hp := o.payload_length i (by omega)
    have hfill := o.filler_length (i := i) (by omega)
    have hlen := o.header_length hi
    have hlen' := o.header_length (i := i) (by omega)
    rw [List.rtake, hlen] at hinner
    have hkept : ((o.header (i + 1)).take (L - h)).drop (L - i * h - h) =
        pad (filler h o.stream i) (((o.stream i).drop (L - i * h)).take (i * h)) := by
      rw [List.drop_take, show L - i * h - h = L - (i * h + h) by omega, hinner, filler, take_pad,
        Nat.succ_mul, List.rtake, hs, show L + h - (i * h + h) = L - i * h by omega,
        show L - h - (L - (i * h + h)) = i * h by omega,
        List.take_left' hfill]
    rw [List.rtake, hlen', o.header_step i hi, wrap, hp, drop_pad, List.drop_append,
      List.drop_of_length_le (by omega), List.nil_append, hp, hkept, List.drop_take,
      show L - (L - i * h) = i * h by omega]
    exact pad_pad _ _ (by rw [hfill, List.length_take, List.length_drop, hs]; omega)

/-- **A hop recovers its payload and the next header exactly.** -/
theorem peel_header {i : Nat} (hi : i + 1 < n) :
    peel h (o.stream i) (o.header i) = o.payload i ++ o.header (i + 1) := by
  have hfit := o.fits hi
  rw [Nat.succ_mul] at hfit
  have hs := o.stream_length i (by omega)
  have hfill := o.filler_length (i := i) (by omega)
  have hlen := o.header_length hi
  have htail := o.header_tail hi
  rw [Nat.succ_mul, List.rtake, hlen] at htail
  have hend : (o.header (i + 1)).drop (L - h) = (o.stream i).drop L := by
    calc (o.header (i + 1)).drop (L - h)
        = ((o.header (i + 1)).drop (L - (i * h + h))).drop (i * h) := by
          rw [List.drop_drop]
          congr 1
          omega
      _ = pad (blanks h) ((o.stream i).drop L) := by
          rw [htail, filler, drop_pad, Nat.succ_mul, List.rtake, hs, List.drop_drop,
            List.drop_left' hfill]
          congr 2
          omega
      _ = (o.stream i).drop L := by
          rw [blanks_pad]
          exact List.take_of_length_le (by rw [List.length_drop, hs]; omega)
  rw [o.header_step i hi, peel_wrap L h _ _ _ hs (o.payload_length i (by omega)) hlen (by omega),
    List.append_assoc, ← hend, List.take_append_drop]

/-- The innermost hop recovers its payload, what the filler left of the core, the
filler without the hop's keystream, and the keystream's own end. -/
theorem peel_last : peel h (o.stream (n - 1)) (o.header (n - 1)) =
    o.payload (n - 1) ++ (o.core.take (L - n * h) ++
      (pad (filler h o.stream (n - 1))
        (((o.stream (n - 1)).drop (L - (n - 1) * h)).take ((n - 1) * h)) ++
      (o.stream (n - 1)).drop L)) := by
  have hn : n - 1 < n := Nat.sub_lt o.pos Nat.one_pos
  have hfit := o.fits hn
  have hfill := o.filler_length hn
  have hmul : n * h = (n - 1) * h + h := by
    rw [← Nat.succ_mul]
    congr 1
    omega
  rw [o.header_last, peel_overwriteTail L h _ _ _ _ (o.stream_length _ hn) (o.payload_length _ hn)
    o.core_length (by omega), hfill, hmul]
  congr 3
  omega

end Layers

end LightningOnion.Lib
