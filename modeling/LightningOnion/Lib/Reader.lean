import Mathlib.Data.List.Basic

/-! Byte readers that may deliver less than they are asked for.

A `Reader` holds the bytes still to come and how the transport will cut them: the
next read of a non-empty buffer returns at least one byte and at most what was
asked, as the cut allows, and end of file once nothing is left. `readFull` reads
on until the buffer is full. Whatever the cuts, it returns exactly the next bytes
of the stream, or fails when there are too few (`readFull_of_le`,
`readFull_of_lt`). `readOnce` reads once and leaves the rest of the buffer zero. -/
namespace LightningOnion.Lib

/-- The bytes to come, and the most each of the next reads will deliver. Reads
past the listed ones deliver all they can. -/
structure Reader where
  data : List UInt8
  cuts : List Nat

/-- The two ways reading can fail: nothing there at all, or a buffer half filled. -/
inductive ReadError where
  | eof
  | unexpectedEOF
  deriving DecidableEq, Repr

namespace Reader

/-- A reader over bytes in memory. -/
def ofBytes (data : List UInt8) : Reader := ⟨data, []⟩

/-- How many bytes the next read into a buffer of `n` delivers. -/
def delivers (r : Reader) (n : Nat) : Nat :=
  match r.cuts with
  | [] => min n r.data.length
  | c :: _ => min (min n r.data.length) (max 1 c)

/-- How many of `n` bytes read number `i` can deliver, whatever the stream holds. -/
def quota (cuts : List Nat) (i n : Nat) : Nat :=
  match cuts[i]? with
  | none => n
  | some c => min n (max 1 c)

/-- One read into a buffer of `n` bytes; `none` is end of file. -/
def read (r : Reader) (n : Nat) : Option (List UInt8 × Reader) :=
  if n = 0 then some ([], r)
  else if r.data = [] then none
  else some (r.data.take (r.delivers n), ⟨r.data.drop (r.delivers n), r.cuts.tail⟩)

/-- One read into a buffer of `n` zeroes: the buffer afterwards, full or not. -/
def readOnce (r : Reader) (n : Nat) : Option (List UInt8 × Reader) :=
  match r.read n with
  | none => none
  | some (chunk, r') => some (chunk ++ List.replicate (n - chunk.length) 0, r')

/-- Reads until `need` bytes are there or the stream ends, at most `fuel` times. -/
def fill : (fuel need : Nat) → Reader → List UInt8 × Reader
  | 0, _, r => ([], r)
  | fuel + 1, need, r =>
    if need = 0 then ([], r)
    else match r.read need with
      | none => ([], r)
      | some (chunk, r') =>
        (chunk ++ (fill fuel (need - chunk.length) r').1, (fill fuel (need - chunk.length) r').2)

/-- Fills a buffer of `n` bytes or fails. -/
def readFull (r : Reader) (n : Nat) : Except ReadError (List UInt8 × Reader) :=
  if (fill n n r).1.length = n then .ok (fill n n r)
  else if (fill n n r).1 = [] then .error .eof
  else .error .unexpectedEOF

theorem delivers_pos (r : Reader) (n : Nat) (hn : n ≠ 0) (hd : r.data ≠ []) : 0 < r.delivers n := by
  have : 0 < r.data.length := List.length_pos_iff.mpr hd
  unfold delivers
  split <;> omega

theorem delivers_le (r : Reader) (n : Nat) : r.delivers n ≤ n ∧ r.delivers n ≤ r.data.length := by
  unfold delivers
  split <;> omega

theorem quota_le (cuts : List Nat) (i n : Nat) : quota cuts i n ≤ n := by
  unfold quota
  split <;> omega

theorem quota_pos (cuts : List Nat) (i : Nat) {n : Nat} (hn : n ≠ 0) : 0 < quota cuts i n := by
  unfold quota
  split <;> omega

theorem quota_tail (cuts : List Nat) (i n : Nat) : quota cuts.tail i n = quota cuts (i + 1) n := by
  rw [quota, quota, List.getElem?_tail]

theorem delivers_eq (r : Reader) (n : Nat) : r.delivers n = min (quota r.cuts 0 n) r.data.length := by
  obtain ⟨data, _ | ⟨c, cuts⟩⟩ := r
  · rfl
  · show min (min n data.length) (max 1 c) = min (min n (max 1 c)) data.length
    omega

/-- However it is cut, the stream arrives in order. -/
theorem fill_eq (fuel need : Nat) (r : Reader) (h : need ≤ fuel) :
    (fill fuel need r).1 = r.data.take need ∧ (fill fuel need r).2.data = r.data.drop need := by
  induction fuel generalizing need r with
  | zero =>
    obtain rfl : need = 0 := by omega
    simp [fill]
  | succ fuel ih =>
    rw [fill]
    by_cases hn : need = 0
    · simp [hn]
    · rw [if_neg hn]
      by_cases hd : r.data = []
      · simp [read, hn, hd]
      · have hpos := r.delivers_pos need hn hd
        obtain ⟨hle, hlen⟩ := r.delivers_le need
        have hread : r.read need =
            some (r.data.take (r.delivers need), ⟨r.data.drop (r.delivers need), r.cuts.tail⟩) := by
          simp [read, hn, hd]
        have htook : (r.data.take (r.delivers need)).length = r.delivers need := by
          rw [List.length_take]
          omega
        obtain ⟨hgot, hrest⟩ := ih (need - r.delivers need)
          ⟨r.data.drop (r.delivers need), r.cuts.tail⟩ (by omega)
        simp only [hread, htook, hgot, hrest, List.drop_drop]
        refine ⟨?_, by congr 1; omega⟩
        rw [← List.take_add]
        congr 1
        omega

theorem fill_of_readFull {r : Reader} {n : Nat} {got : List UInt8 × Reader}
    (h : r.readFull n = .ok got) : fill n n r = got ∧ got.1.length = n := by
  unfold readFull at h
  split at h
  · rename_i hlen
    rw [Except.ok.inj h] at hlen
    exact ⟨Except.ok.inj h, hlen⟩
  · split at h <;> cases h

theorem length_of_readFull {r r' : Reader} {n : Nat} {bs : List UInt8}
    (h : r.readFull n = .ok (bs, r')) : bs.length = n :=
  (fill_of_readFull h).2

/-- Enough bytes: the buffer holds the next `n`, and the rest is still to come. -/
theorem readFull_of_le (r : Reader) (n : Nat) (h : n ≤ r.data.length) :
    ∃ cuts, r.readFull n = .ok (r.data.take n, ⟨r.data.drop n, cuts⟩) := by
  obtain ⟨hgot, hrest⟩ := fill_eq n n r (Nat.le_refl n)
  have hlen : (fill n n r).1.length = n := by
    rw [hgot, List.length_take]
    omega
  refine ⟨(fill n n r).2.cuts, ?_⟩
  rw [readFull, if_pos hlen, ← hgot, ← hrest]

theorem readFull_append (front rest : List UInt8) (cuts : List Nat) :
    ∃ cuts', readFull ⟨front ++ rest, cuts⟩ front.length = .ok (front, ⟨rest, cuts'⟩) := by
  obtain ⟨cuts', h⟩ := readFull_of_le ⟨front ++ rest, cuts⟩ front.length (by simp)
  exact ⟨cuts', by simpa using h⟩

/-- Too few bytes: end of file when there were none, an unexpected one otherwise. -/
theorem readFull_of_lt (r : Reader) (n : Nat) (h : r.data.length < n) :
    r.readFull n = .error (if r.data = [] then .eof else .unexpectedEOF) := by
  obtain ⟨hgot, -⟩ := fill_eq n n r (Nat.le_refl n)
  have hall : (fill n n r).1 = r.data := by
    rw [hgot]
    exact List.take_of_length_le (by omega)
  rw [readFull, hall, if_neg (by omega)]
  split <;> rfl

/-! ### Reading once -/

theorem readOnce_nil (cuts : List Nat) {n : Nat} (hn : n ≠ 0) : readOnce ⟨[], cuts⟩ n = none := by
  rw [readOnce, read, if_neg hn, if_pos rfl]

/-- What a read leaves in the buffer: the bytes it delivered, then zeroes. -/
theorem readOnce_eq {r : Reader} {n : Nat} (hn : n ≠ 0) (hd : r.data ≠ []) :
    r.readOnce n = some (r.data.take (r.delivers n) ++ List.replicate (n - r.delivers n) 0,
      ⟨r.data.drop (r.delivers n), r.cuts.tail⟩) := by
  obtain ⟨-, hle⟩ := r.delivers_le n
  rw [readOnce, read, if_neg hn, if_neg hd]
  simp only [List.length_take, Nat.min_eq_left hle]

/-- The buffer keeps its length, and no byte of the stream is lost on the way. -/
theorem length_of_readOnce {r r' : Reader} {n : Nat} {buf : List UInt8}
    (h : r.readOnce n = some (buf, r')) :
    buf.length = n ∧ r.data.length ≤ buf.length + r'.data.length := by
  by_cases hn : n = 0
  · subst hn
    cases h
    simp
  by_cases hd : r.data = []
  · obtain ⟨data, cuts⟩ := r
    cases hd
    rw [readOnce_nil cuts hn] at h
    cases h
  · obtain ⟨hle, hlen⟩ := r.delivers_le n
    rw [readOnce_eq hn hd] at h
    cases h
    simp only [List.length_append, List.length_take, List.length_replicate, List.length_drop]
    omega

/-- With enough bytes in the stream, the cut decides. -/
theorem readOnce_cut {data : List UInt8} (cuts : List Nat) {n : Nat} (hn : n ≠ 0) (h : n ≤ data.length) :
    readOnce ⟨data, cuts⟩ n = some (data.take (quota cuts 0 n) ++ List.replicate (n - quota cuts 0 n) 0,
      ⟨data.drop (quota cuts 0 n), cuts.tail⟩) := by
  have hd : data ≠ [] := List.ne_nil_of_length_pos (by omega)
  have hdelivers : delivers ⟨data, cuts⟩ n = quota cuts 0 n := by
    rw [delivers_eq]
    exact Nat.min_eq_left (Nat.le_trans (quota_le cuts 0 n) h)
  rw [readOnce_eq hn hd, hdelivers]

/-- If it leaves out nothing, the buffer holds what is in front. -/
theorem readOnce_front {front : List UInt8} {cuts : List Nat} (hne : front ≠ [])
    (hquota : quota cuts 0 front.length = front.length) (rest : List UInt8) :
    readOnce ⟨front ++ rest, cuts⟩ front.length = some (front, ⟨rest, cuts.tail⟩) := by
  have hn : front.length ≠ 0 := fun h => hne (List.eq_nil_of_length_eq_zero h)
  rw [readOnce_cut cuts hn (by rw [List.length_append]; omega), hquota, Nat.sub_self,
    List.take_left, List.drop_left, List.replicate_zero, List.append_nil]

theorem readOnce_one (b : UInt8) (rest : List UInt8) (cuts : List Nat) :
    readOnce ⟨b :: rest, cuts⟩ 1 = some ([b], ⟨rest, cuts.tail⟩) := by
  have hquota : quota cuts 0 1 = 1 :=
    Nat.le_antisymm (quota_le cuts 0 1) (quota_pos cuts 0 Nat.one_ne_zero)
  exact readOnce_front (List.cons_ne_nil b []) hquota rest

/-- A cut that leaves out nothing makes no difference. -/
theorem readOnce_uncut {data : List UInt8} (cuts : List Nat) {n : Nat} (hn : n ≠ 0)
    (h : min n data.length ≤ quota cuts 0 n) :
    readOnce ⟨data, cuts⟩ n = (readOnce (ofBytes data) n).map fun out => (out.1, ⟨out.2.data, cuts.tail⟩) := by
  by_cases hd : data = []
  · subst hd
    rw [ofBytes, readOnce_nil cuts hn, readOnce_nil [] hn]
    rfl
  · have hsame : delivers ⟨data, cuts⟩ n = (ofBytes data).delivers n := by
      have hle := quota_le cuts 0 n
      rw [delivers_eq]
      show min (quota cuts 0 n) data.length = min n data.length
      omega
    rw [readOnce_eq hn hd, readOnce_eq hn (show (ofBytes data).data ≠ [] from hd), hsame]
    rfl

/-- A reader that fills what it can, with enough bytes: the next `n`. -/
theorem readOnce_of_le (data : List UInt8) {n : Nat} (h : n ≤ data.length) :
    (ofBytes data).readOnce n = some (data.take n, ofBytes (data.drop n)) := by
  by_cases hn : n = 0
  · subst hn
    rfl
  have hd : (ofBytes data).data ≠ [] := List.ne_nil_of_length_pos (by
    show 0 < data.length
    omega)
  have hdelivers : (ofBytes data).delivers n = n := Nat.min_eq_left h
  rw [readOnce_eq hn hd, hdelivers, Nat.sub_self, List.replicate_zero, List.append_nil]
  rfl

theorem readOnce_append {front : List UInt8} {n : Nat} (h : front.length = n) (rest : List UInt8) :
    (ofBytes (front ++ rest)).readOnce n = some (front, ofBytes rest) := by
  rw [readOnce_of_le _ (by rw [List.length_append]; omega), List.take_left' h, List.drop_left' h]

theorem readOnce_cons (b : UInt8) (rest : List UInt8) :
    (ofBytes (b :: rest)).readOnce 1 = some ([b], ofBytes rest) :=
  readOnce_of_le (b :: rest) (Nat.le_add_left 1 rest.length)

/-- And with no more than that: all of them, then zeroes. -/
theorem readOnce_of_ge {data : List UInt8} (hd : data ≠ []) {n : Nat} (h : data.length ≤ n) :
    (ofBytes data).readOnce n =
      some (data ++ List.replicate (n - data.length) 0, ofBytes []) := by
  have hdelivers : (ofBytes data).delivers n = data.length := Nat.min_eq_right h
  have hn : n ≠ 0 := by
    have := List.length_pos_iff.mpr hd
    omega
  rw [readOnce_eq hn (show (ofBytes data).data ≠ [] from hd), hdelivers]
  show some (data.take data.length ++ _, Reader.mk (data.drop data.length) []) = _
  rw [List.take_length, List.drop_length]
  rfl

end Reader

end LightningOnion.Lib
