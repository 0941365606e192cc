import LightningOnion.Lib.Layers

/-! What a keystream can hide.

Read the other way round, a layer says nothing of what is under it: for any other
payload there is a keystream that makes the same layer of it (`wrap_repad`), and it
differs from the first only over the payload, where no filler is taken from. The front
of a layer can be anything at all (`wrap_restream`). And any string of the right length
is the filler of some keystream (`filler_fillerStream`). -/
namespace LightningOnion.Lib
variable {α : Type} [Alphabet α]

/-- The keystream that makes of `payload'` what `stream` makes of `payload`. -/
def repad (stream payload payload' : List α) : List α :=
  pad payload' (pad payload (stream.take payload.length)) ++ stream.drop payload.length

theorem length_repad (stream payload payload' : List α) (hp : payload'.length = payload.length)
    (hs : payload.length ≤ stream.length) :
    (repad stream payload payload').length = stream.length := by
  simp only [repad, List.length_append, length_pad, List.length_take, List.length_drop]
  omega

theorem drop_repad (stream payload payload' : List α) (hp : payload'.length = payload.length)
    (hs : payload.length ≤ stream.length) :
    (repad stream payload payload').drop payload.length = stream.drop payload.length := by
  apply List.drop_left'
  simp only [length_pad, List.length_take]
  omega

theorem rtake_repad (stream payload payload' : List α) (hp : payload'.length = payload.length)
    (n : Nat) (hn : n + payload.length ≤ stream.length) :
    (repad stream payload payload').rtake n = stream.rtake n := by
  have hlen := length_repad stream payload payload' hp (by omega)
  obtain ⟨d, hd⟩ : ∃ d, stream.length - n = payload.length + d :=
    ⟨stream.length - n - payload.length, by omega⟩
  rw [List.rtake, List.rtake, hlen, hd, ← List.drop_drop, ← List.drop_drop,
    drop_repad _ _ _ hp (by omega)]

theorem repad_self (stream payload : List α) (hs : payload.length ≤ stream.length) :
    repad stream payload payload = stream := by
  rw [repad, pad_pad_left _ _ (by rw [List.length_take]; omega), List.take_append_drop]

/-- **Another payload, the same layer.** -/
theorem wrap_repad (L : Nat) (stream payload payload' inner : List α)
    (hp : payload'.length = payload.length) (hs : payload.length ≤ stream.length)
    (hL : payload.length ≤ L) :
    wrap L (repad stream payload payload') payload' inner = wrap L stream payload inner := by
  have hfront : ∀ p q : List α, p.length = payload.length → q.length = payload.length →
      pad (p ++ inner.take (L - p.length)) ((q ++ stream.drop payload.length).take L) =
        pad p q ++ pad (inner.take (L - payload.length))
          ((stream.drop payload.length).take (L - payload.length)) := by
    intro p q hplen hqlen
    have hq : q.take L = q := List.take_of_length_le (by omega)
    rw [List.take_append, hq, hqlen, hplen, pad_append _ _ _ _ (by rw [hplen, hqlen])]
  have hmask : (pad payload' (pad payload (stream.take payload.length))).length = payload.length := by
    simp only [length_pad, List.length_take]
    omega
  have hkey : (stream.take payload.length).length = payload.length := by
    rw [List.length_take]
    omega
  calc wrap L (repad stream payload payload') payload' inner
      = pad payload' (pad payload' (pad payload (stream.take payload.length))) ++
          pad (inner.take (L - payload.length))
            ((stream.drop payload.length).take (L - payload.length)) :=
        hfront payload' _ hp hmask
    _ = pad payload (stream.take payload.length) ++
          pad (inner.take (L - payload.length))
            ((stream.drop payload.length).take (L - payload.length)) := by
        rw [pad_pad_left _ _ (by rw [length_pad, hp]; omega)]
    _ = wrap L stream payload inner := by
        rw [← hfront payload _ rfl hkey, List.take_append_drop, wrap]

/-- The keystream that differs from `stream` in its first `m` letters, by the
difference of `header` and `target`. -/
def restream (stream header target : List α) (m : Nat) : List α :=
  pad (pad (stream.take m) (header.take m)) (target.take m) ++ stream.drop m

section Restream
variable {stream header target : List α} {m : Nat} (hs : m ≤ stream.length) (hh : m ≤ header.length)
  (ht : m ≤ target.length)
include hs hh ht

theorem length_restream_front :
    (pad (pad (stream.take m) (header.take m)) (target.take m)).length = m := by
  simp only [length_pad, List.length_take]
  omega

theorem length_restream : (restream stream header target m).length = stream.length := by
  rw [restream, List.length_append, length_restream_front hs hh ht, List.length_drop]
  omega

theorem drop_restream : (restream stream header target m).drop m = stream.drop m :=
  List.drop_left' (length_restream_front hs hh ht)

theorem rtake_restream {n : Nat} (hn : n + m ≤ stream.length) :
    (restream stream header target m).rtake n = stream.rtake n := by
  obtain ⟨d, hd⟩ : ∃ d, stream.length - n = m + d := ⟨stream.length - n - m, by omega⟩
  rw [List.rtake, List.rtake, length_restream hs hh ht, hd, ← List.drop_drop, ← List.drop_drop,
    drop_restream hs hh ht]

end Restream

/-- **Any front, the same end.** -/
theorem wrap_restream {L m : Nat} {stream payload inner header target : List α} (hm : m ≤ L)
    (hs : L ≤ stream.length) (hbody : (payload ++ inner.take (L - payload.length)).length = L)
    (hheader : header.take m = (wrap L stream payload inner).take m) (hh : m ≤ header.length)
    (ht : m ≤ target.length) :
    wrap L (restream stream header target m) payload inner =
      target.take m ++ (wrap L stream payload inner).drop m := by
  rw [wrap] at hheader
  rw [wrap, wrap]
  generalize payload ++ inner.take (L - payload.length) = body at hbody hheader ⊢
  have hfront : (pad body ((restream stream header target m).take L)).take m = target.take m := by
    have hstream : ((restream stream header target m).take L).take m =
        pad (pad (stream.take m) (header.take m)) (target.take m) := by
      rw [List.take_take, Nat.min_eq_left hm, restream,
        List.take_left' (length_restream_front (by omega) hh ht)]
    have hkey : pad (stream.take m) (header.take m) = body.take m := by
      rw [hheader, take_pad, List.take_take, Nat.min_eq_left hm, pad_comm (body.take m)]
      exact pad_pad_left _ _ (by rw [List.length_take, List.length_take]; omega)
    rw [take_pad, hstream, hkey]
    exact pad_pad_left _ _ (by rw [List.length_take, List.length_take]; omega)
  have hback : (pad body ((restream stream header target m).take L)).drop m =
      (pad body (stream.take L)).drop m := by
    rw [drop_pad, drop_pad, List.drop_take, List.drop_take, drop_restream (by omega) hh ht]
  rw [← List.take_append_drop m (pad body ((restream stream header target m).take L)), hfront, hback]

theorem overwriteTail_restream {L m : Nat} {stream payload inner tail target : List α}
    (hm : m + tail.length = L) (hs : L ≤ stream.length)
    (hbody : (payload ++ inner.take (L - payload.length)).length = L) (ht : m ≤ target.length) :
    overwriteTail (wrap L (restream stream (overwriteTail (wrap L stream payload inner) tail) target m)
        payload inner) tail =
      target.take m ++ (overwriteTail (wrap L stream payload inner) tail).drop m := by
  have hlen : (wrap L stream payload inner).length = L := by
    rw [wrap, length_pad, hbody, List.length_take]
    omega
  have hold : overwriteTail (wrap L stream payload inner) tail =
      (wrap L stream payload inner).take m ++ tail := by
    rw [overwriteTail, List.rdrop, hlen]
    congr 2
    omega
  have hcut : ((wrap L stream payload inner).take m).length = m := by
    rw [List.length_take, hlen]
    omega
  have hfront : (target.take m).length = m := List.length_take_of_le ht
  rw [hold, wrap_restream (by omega) hs hbody (List.take_left' hcut)
    (by rw [List.length_append, hcut]; omega) ht, overwriteTail, List.rdrop, List.drop_left' hcut]
  congr 1
  have hstart : (target.take m ++ (wrap L stream payload inner).drop m).length - tail.length = m := by
    rw [List.length_append, hfront, List.length_drop, hlen]
    omega
  rw [hstart, List.take_left' hfront]

/-! ### Fillers -/

/-- The filler depends on the ends of the keystreams only. -/
theorem filler_congr (h : Nat) {stream stream' : Nat → List α} (i : Nat)
    (heq : ∀ j, j < i → (stream' j).rtake ((j + 1) * h) = (stream j).rtake ((j + 1) * h)) :
    filler h stream' i = filler h stream i := by
  induction i with
  | zero => rfl
  | succ i ih => rw [filler, filler, ih fun j hj => heq j (by omega), heq i (Nat.lt_succ_self i)]

/-- A keystream of `S` letters that turns `tail`, extended by blanks, into `target`. -/
def fillerStream (h S : Nat) (tail target : List α) : List α :=
  blanks (S - target.length) ++ pad (tail ++ blanks h) target

theorem length_fillerStream (h S : Nat) (tail target : List α) (ht : target.length = tail.length + h)
    (hS : target.length ≤ S) : (fillerStream h S tail target).length = S := by
  simp only [fillerStream, List.length_append, length_blanks, length_pad]
  omega

/-- **Any string of the right length is a filler.** -/
theorem filler_fillerStream (h S i : Nat) (stream : Nat → List α) (target : List α)
    (hfill : (filler h stream i).length = i * h) (ht : target.length = (i + 1) * h)
    (hS : target.length ≤ S) (hlast : stream i = fillerStream h S (filler h stream i) target) :
    filler h stream (i + 1) = target := by
  rw [Nat.succ_mul] at ht
  have hlen : (fillerStream h S (filler h stream i) target).length = S :=
    length_fillerStream h S _ target (by omega) hS
  have hend : (fillerStream h S (filler h stream i) target).rtake ((i + 1) * h) =
      pad (filler h stream i ++ blanks h) target := by
    rw [List.rtake, hlen, Nat.succ_mul, ← ht]
    exact List.drop_left' (length_blanks _)
  rw [filler, hlast, hend]
  exact pad_pad_left _ _ (by rw [List.length_append, length_blanks]; omega)

/-- The filler behind a fixed keystream: anything that ends as the keystream does. -/
theorem filler_behind (h i : Nat) (stream : Nat → List α) (target : List α)
    (hS : (i + 1) * h ≤ (stream i).length) (ht : target.length = (i + 1) * h)
    (hend : target.drop (i * h) = ((stream i).rtake ((i + 1) * h)).drop (i * h))
    (hfill : filler h stream i = (pad target ((stream i).rtake ((i + 1) * h))).take (i * h)) :
    filler h stream (i + 1) = target := by
  have hwindow : ((stream i).rtake ((i + 1) * h)).length = (i + 1) * h := by
    rw [List.rtake, List.length_drop]
    omega
  rw [filler, hfill]
  generalize (stream i).rtake ((i + 1) * h) = window at hend hwindow ⊢
  rw [Nat.succ_mul] at ht hwindow
  have hfront : pad (pad (target.take (i * h)) (window.take (i * h))) (window.take (i * h)) =
      target.take (i * h) :=
    pad_pad _ _ (by rw [List.length_take, List.length_take]; omega)
  have hback : pad (blanks h) (window.drop (i * h)) = target.drop (i * h) := by
    rw [blanks_pad, hend]
    exact List.take_of_length_le (by rw [List.length_drop]; omega)
  calc pad ((pad target window).take (i * h) ++ blanks h) window
      = pad (pad (target.take (i * h)) (window.take (i * h)) ++ blanks h)
          (window.take (i * h) ++ window.drop (i * h)) := by
        rw [take_pad, List.take_append_drop]
    _ = pad (pad (target.take (i * h)) (window.take (i * h))) (window.take (i * h)) ++
          pad (blanks h) (window.drop (i * h)) :=
        pad_append _ _ _ _ (by simp only [length_pad, List.length_take]; omega)
    _ = target := by rw [hfront, hback, List.take_append_drop]

end LightningOnion.Lib
