import LightningOnion.Replay.Batch

/-! The in-memory replay log.

Both maps are nil until `Start`; every other method refuses to work on a log that
is not started. `putBatch` writes a batch's entries in whatever order the map is
ranged over; on a started log that is `commitLoop`, and `extends_committedEntries` and
`contains_committedReplays` say what it leaves, whatever the order. -/
namespace LightningOnion

abbrev LogEntries := Finmap fun _ : HashPrefix => UInt32
abbrev LogBatches := Finmap fun _ : List UInt8 => ReplaySet

structure MemoryReplayLog where
  batches : Option LogBatches
  entries : Option LogEntries

namespace MemoryReplayLog

def new : MemoryReplayLog := ⟨none, none⟩

/-- A started log with these contents. -/
def started (batches : LogBatches) (entries : LogEntries) : MemoryReplayLog :=
  ⟨some batches, some entries⟩

/-- Initializes the log: fresh maps, whatever was there. -/
def start (_ : MemoryReplayLog) : MemoryReplayLog × Option Error := (started ∅ ∅, none)

/-- Wipes the state of the log. -/
def stop (rl : MemoryReplayLog) : MemoryReplayLog × Option Error :=
  match rl.entries, rl.batches with
  | some _, some _ => (⟨none, none⟩, none)
  | _, _ => (rl, some .errReplayLogNotStarted)

def get (rl : MemoryReplayLog) (hash : HashPrefix) : Except Error UInt32 :=
  match rl.entries, rl.batches with
  | some entries, some _ =>
    match entries.lookup hash with
    | none => .error .errLogEntryNotFound
    | some cltv => .ok cltv
  | _, _ => .error .errReplayLogNotStarted

/-- Stores an entry unless its prefix is there already. -/
def put (rl : MemoryReplayLog) (hash : HashPrefix) (cltv : UInt32) : MemoryReplayLog × Option Error :=
  match rl.entries, rl.batches with
  | some entries, some _ =>
    if (entries.lookup hash).isSome then (rl, some .errReplayedPacket)
    else ({rl with entries := some (entries.insert hash cltv)}, none)
  | _, _ => (rl, some .errReplayLogNotStarted)

def delete (rl : MemoryReplayLog) (hash : HashPrefix) : MemoryReplayLog × Option Error :=
  match rl.entries, rl.batches with
  | some entries, some _ => ({rl with entries := some (entries.erase hash)}, none)
  | _, _ => (rl, some .errReplayLogNotStarted)

/-- The function `putBatch` calls on each entry: only a replay is not an error. -/
def putEntry (seqNum : UInt16) (hashPrefix : HashPrefix) (cltv : UInt32)
    (s : MemoryReplayLog × ReplaySet) : (MemoryReplayLog × ReplaySet) × Option Error :=
  match s.1.put hashPrefix cltv with
  | (rl, some .errReplayedPacket) => ((rl, s.2.add seqNum), none)
  | (rl, err) => ((rl, s.2), err)

/-- Stores a batch, ranging over its entries in `order`: the log, the batch, and
the set of replays. A batch whose ID is known gets the recorded result. -/
def putBatch (rl : MemoryReplayLog) (batch : Batch) (order : List UInt16) :
    MemoryReplayLog × Batch × Except Error ReplaySet :=
  match rl.entries, rl.batches with
  | some _, some batches =>
    match batches.lookup batch.id with
    | some replays => (rl, {batch with replaySet := replays, isCommitted := true}, .ok replays)
    | none =>
      match batch.forEach putEntry order (rl, .new) with
      | ((rl', _), some err) => (rl', batch, .error err)
      | ((rl', replays), none) =>
        let merged := replays.merge batch.replaySet
        ({rl' with batches := rl'.batches.map (·.insert batch.id merged)},
          {batch with replaySet := merged, isCommitted := true}, .ok merged)
  | _, _ => (rl, batch, .error .errReplayLogNotStarted)

theorem putBatch_id (rl : MemoryReplayLog) (batch : Batch) (order : List UInt16) :
    (rl.putBatch batch order).2.1.id = batch.id := by
  rw [putBatch]
  split
  · split
    · rfl
    · split <;> rfl
  · rfl

/-! ### On a log that is not started -/

/-- Both maps are there. -/
def Started (rl : MemoryReplayLog) : Prop := ∃ bs es, rl = started bs es

section NotStarted
variable (rl : MemoryReplayLog)

theorem not_started_iff : ¬ rl.Started ↔ rl.entries = none ∨ rl.batches = none := by
  obtain ⟨batches, entries⟩ := rl
  cases entries <;> cases batches <;> simp [Started, started]

theorem not_started_cases (h : ¬ rl.Started) :
    (∃ batches, rl = ⟨batches, none⟩) ∨ ∃ entries, rl = ⟨none, some entries⟩ := by
  obtain ⟨batches, entries⟩ := rl
  rcases (not_started_iff _).mp h with rfl | rfl
  · exact .inl ⟨batches, rfl⟩
  · cases entries with
    | none => exact .inl ⟨none, rfl⟩
    | some es => exact .inr ⟨es, rfl⟩

theorem put_not_started (h : ¬ rl.Started) (hash : HashPrefix) (cltv : UInt32) :
    rl.put hash cltv = (rl, some .errReplayLogNotStarted) := by
  obtain ⟨batches, rfl⟩ | ⟨entries, rfl⟩ := not_started_cases rl h
  · rfl
  · rfl

theorem stop_not_started (h : ¬ rl.Started) : rl.stop = (rl, some .errReplayLogNotStarted) := by
  obtain ⟨batches, rfl⟩ | ⟨entries, rfl⟩ := not_started_cases rl h
  · rfl
  · rfl

theorem delete_not_started (h : ¬ rl.Started) (hash : HashPrefix) :
    rl.delete hash = (rl, some .errReplayLogNotStarted) := by
  obtain ⟨batches, rfl⟩ | ⟨entries, rfl⟩ := not_started_cases rl h
  · rfl
  · rfl

theorem putBatch_not_started (h : ¬ rl.Started) (b : Batch) (order : List UInt16) :
    rl.putBatch b order = (rl, b, .error .errReplayLogNotStarted) := by
  obtain ⟨batches, rfl⟩ | ⟨entries, rfl⟩ := not_started_cases rl h
  · rfl
  · rfl

end NotStarted

/-! ### On a started log -/

variable (bs : LogBatches) (es : LogEntries)

theorem get_started (h : HashPrefix) :
    (started bs es).get h = ((es.lookup h).map Except.ok).getD (.error .errLogEntryNotFound) := by
  show (match es.lookup h with | none => _ | some cltv => _) = _
  cases es.lookup h <;> rfl

theorem put_started_mem {h : HashPrefix} (hm : h ∈ es) (c : UInt32) :
    (started bs es).put h c = (started bs es, some .errReplayedPacket) := by
  show (if (es.lookup h).isSome = true then _ else _) = _
  rw [if_pos (Finmap.lookup_isSome.mpr hm)]

theorem put_started_notMem {h : HashPrefix} (hm : h ∉ es) (c : UInt32) :
    (started bs es).put h c = (started bs (es.insert h c), none) := by
  show (if (es.lookup h).isSome = true then _ else _) = _
  rw [if_neg (fun hs => hm (Finmap.lookup_isSome.mp hs))]
  rfl

theorem put_started (h : HashPrefix) (c : UInt32) :
    ∃ es', ((started bs es).put h c).1 = started bs es' := by
  by_cases hm : h ∈ es
  · exact ⟨es, by rw [put_started_mem bs es hm]⟩
  · exact ⟨_, by rw [put_started_notMem bs es hm]⟩

theorem stop_started : (started bs es).stop = (new, none) := rfl

theorem not_started_new : ¬new.Started := fun ⟨_, _, h⟩ => by cases h

theorem delete_started (h : HashPrefix) :
    (started bs es).delete h = (started bs (es.erase h), none) := rfl

/-! ### The commit loop -/

/-- The loop of `putBatch` on the log's entries: a prefix already there marks its
sequence number, another is stored. -/
def commitLoop (b : Batch) : (order : List UInt16) → LogEntries × ReplaySet → LogEntries × ReplaySet
  | [], s => s
  | seqNum :: rest, (m, replays) =>
    match b.entries.lookup seqNum with
    | none => commitLoop b rest (m, replays)
    | some entry =>
      if entry.hashPrefix ∈ m then commitLoop b rest (m, replays.add seqNum)
      else commitLoop b rest (m.insert entry.hashPrefix entry.cltv, replays)

/-- On a started log the range never fails, and does just that. -/
theorem forEach_putEntry (b : Batch) (order : List UInt16) (rs : ReplaySet) :
    b.forEach putEntry order (started bs es, rs) =
      ((started bs (commitLoop b order (es, rs)).1, (commitLoop b order (es, rs)).2), none) := by
  induction order generalizing es rs with
  | nil => rfl
  | cons s rest ih =>
    rw [Batch.forEach, commitLoop]
    cases hs : b.entries.lookup s with
    | none => exact ih es rs
    | some e =>
      by_cases hm : e.hashPrefix ∈ es
      · simp only [putEntry, put_started_mem bs es hm, if_pos hm]
        exact ih es (rs.add s)
      · simp only [putEntry, put_started_notMem bs es hm, if_neg hm]
        exact ih _ rs

theorem putBatch_known {b : Batch} {rs : ReplaySet} (h : bs.lookup b.id = some rs)
    (order : List UInt16) :
    (started bs es).putBatch b order =
      (started bs es, {b with replaySet := rs, isCommitted := true}, .ok rs) := by
  show (match bs.lookup b.id with | some replays => _ | none => _) = _
  rw [h]

/-- The replays a new batch is reported. -/
def committedReplays (es : LogEntries) (b : Batch) (order : List UInt16) : ReplaySet :=
  (commitLoop b order (es, .new)).2.merge b.replaySet

/-- The log's entries after a new batch. -/
def committedEntries (es : LogEntries) (b : Batch) (order : List UInt16) : LogEntries :=
  (commitLoop b order (es, .new)).1

/-- A new batch is written, and its result recorded under its ID. -/
theorem putBatch_new {b : Batch} (h : bs.lookup b.id = none) (order : List UInt16) :
    (started bs es).putBatch b order =
      (started (bs.insert b.id (committedReplays es b order)) (committedEntries es b order),
        {b with replaySet := committedReplays es b order, isCommitted := true},
        .ok (committedReplays es b order)) := by
  show (match bs.lookup b.id with | some replays => _ | none => _) = _
  rw [h]
  simp only [forEach_putEntry]
  rfl

theorem commitLoop_keeps (b : Batch) (order : List UInt16) (rs : ReplaySet) {h : HashPrefix}
    {c : UInt32} (hm : es.lookup h = some c) : (commitLoop b order (es, rs)).1.lookup h = some c := by
  induction order generalizing es rs with
  | nil => exact hm
  | cons s rest ih =>
    rw [commitLoop]
    cases hs : b.entries.lookup s with
    | none => exact ih es rs hm
    | some e =>
      simp only
      split
      · exact ih es _ hm
      · rename_i hnew
        have hne : h ≠ e.hashPrefix := fun heq => hnew (heq ▸ Finmap.mem_of_lookup_eq_some hm)
        exact ih _ rs (by rw [Finmap.lookup_insert_of_ne _ hne]; exact hm)

/-- What is added is an entry of the batch, with its value. -/
theorem commitLoop_adds_only (b : Batch) (order : List UInt16) (rs : ReplaySet) {h : HashPrefix}
    {c : UInt32} (hl : (commitLoop b order (es, rs)).1.lookup h = some c) :
    es.lookup h = some c ∨ ∃ s e, b.entries.lookup s = some e ∧ e.hashPrefix = h ∧ e.cltv = c := by
  induction order generalizing es rs with
  | nil => exact .inl hl
  | cons s rest ih =>
    rw [commitLoop] at hl
    cases hs : b.entries.lookup s with
    | none =>
      rw [hs] at hl
      exact ih es rs hl
    | some e =>
      rw [hs] at hl
      simp only at hl
      split at hl
      · exact ih es _ hl
      · rcases ih _ rs hl with hput | hin
        · by_cases heq : h = e.hashPrefix
          · subst heq
            rw [Finmap.lookup_insert] at hput
            exact .inr ⟨s, e, hs, rfl, Option.some.inj hput⟩
          · rw [Finmap.lookup_insert_of_ne _ heq] at hput
            exact .inl hput
        · exact .inr hin

section Distinct
variable {b : Batch} (hb : b.Inv)
include hb

/-- A prefix of the batch that was not in the log is stored with its own CLTV,
since no other entry has it. -/
theorem commitLoop_adds (order : List UInt16) (rs : ReplaySet) {s : UInt16} {e : BatchEntry}
    (hs : s ∈ order) (he : b.entries.lookup s = some e) (hm : es.lookup e.hashPrefix = none) :
    (commitLoop b order (es, rs)).1.lookup e.hashPrefix = some e.cltv := by
  induction order generalizing es rs with
  | nil => cases hs
  | cons s' rest ih =>
    rw [commitLoop]
    by_cases heq : s' = s
    · subst heq
      have hnot : e.hashPrefix ∉ es := Finmap.lookup_eq_none.mp hm
      rw [he]
      simp only [if_neg hnot]
      exact commitLoop_keeps _ b rest rs (Finmap.lookup_insert _)
    · have hs' : s ∈ rest := by
        rcases List.mem_cons.mp hs with h | h
        · exact absurd h.symm heq
        · exact h
      cases hl : b.entries.lookup s' with
      | none => exact ih es rs hs' hm
      | some e' =>
        simp only
        split
        · exact ih es _ hs' hm
        · have hne : e.hashPrefix ≠ e'.hashPrefix := fun h => heq (hb.distinct hl he h.symm)
          exact ih _ rs hs' (by rw [Finmap.lookup_insert_of_ne _ hne]; exact hm)

/-- The loop marks exactly the entries whose prefix the log held before it. -/
theorem commitLoop_contains (order : List UInt16) (hnd : order.Nodup) (rs : ReplaySet) (s : UInt16) :
    (commitLoop b order (es, rs)).2.contains s = true ↔
      rs.contains s = true ∨ (s ∈ order ∧ ∃ e, b.entries.lookup s = some e ∧ e.hashPrefix ∈ es) := by
  induction order generalizing es rs with
  | nil => simp [commitLoop]
  | cons s' rest ih =>
    obtain ⟨hnotin, hnd'⟩ := List.nodup_cons.mp hnd
    rw [commitLoop]
    cases hl : b.entries.lookup s' with
    | none =>
      simp only [ih es hnd' rs, List.mem_cons]
      constructor
      · intro hcase
        rcases hcase with h | ⟨hs, h⟩
        · exact .inl h
        · exact .inr ⟨.inr hs, h⟩
      · intro hcase
        rcases hcase with h | ⟨rfl | hs, e, he, h⟩
        · exact .inl h
        · rw [hl] at he
          cases he
        · exact .inr ⟨hs, e, he, h⟩
    | some e' =>
      by_cases hm : e'.hashPrefix ∈ es
      · simp only [if_pos hm, ih es hnd', ReplaySet.contains_add, Bool.or_eq_true, decide_eq_true_eq,
          List.mem_cons]
        constructor
        · intro hcase
          rcases hcase with (rfl | h) | ⟨hs, h⟩
          · exact .inr ⟨.inl rfl, e', hl, hm⟩
          · exact .inl h
          · exact .inr ⟨.inr hs, h⟩
        · intro hcase
          rcases hcase with h | ⟨rfl | hs, h⟩
          · exact .inl (.inr h)
          · exact .inl (.inl rfl)
          · exact .inr ⟨hs, h⟩
      · -- Storing a fresh prefix makes no later entry look like a replay.
        simp only [if_neg hm, ih _ hnd', List.mem_cons]
        constructor
        · intro hcase
          rcases hcase with h | ⟨hs, e, he, h⟩
          · exact .inl h
          · rcases Finmap.mem_insert.mp h with heq | h
            · exact absurd (hb.distinct he hl heq ▸ hs) hnotin
            · exact .inr ⟨.inr hs, e, he, h⟩
        · intro hcase
          rcases hcase with h | ⟨rfl | hs, e, he, h⟩
          · exact .inl h
          · rw [hl] at he
            cases he
            exact absurd h hm
          · exact .inr ⟨hs, e, he, Finmap.mem_insert.mpr (.inr h)⟩

/-- The replays of a new batch: those it found itself, and the entries the log held. -/
theorem contains_committedReplays {order : List UInt16} (ho : IterationOrder b.entries.keys order)
    (s : UInt16) : (committedReplays es b order).contains s = true ↔
      b.replaySet.contains s = true ∨ ∃ e, b.entries.lookup s = some e ∧ e.hashPrefix ∈ es := by
  rw [committedReplays, ReplaySet.contains_merge, Bool.or_eq_true,
    commitLoop_contains es hb order ho.nodup, ReplaySet.contains_new]
  constructor
  · intro hcase
    rcases hcase with (h | ⟨-, h⟩) | h
    · cases h
    · exact .inr h
    · exact .inl h
  · intro hcase
    rcases hcase with h | ⟨e, he, h⟩
    · exact .inr h
    · have hs : s ∈ order :=
        (ho.mem_iff s).mpr (Finmap.mem_keys.mpr (Finmap.mem_of_lookup_eq_some he))
      exact .inl (.inr ⟨hs, e, he, h⟩)

end Distinct

/-- `es'` is `es` with the new entries of the batch. -/
structure Extends (b : Batch) (es es' : LogEntries) : Prop where
  kept : ∀ {h c}, es.lookup h = some c → es'.lookup h = some c
  added : ∀ {s e}, b.entries.lookup s = some e → es.lookup e.hashPrefix = none →
    es'.lookup e.hashPrefix = some e.cltv
  only : ∀ {h}, es.lookup h = none → (∀ s e, b.entries.lookup s = some e → e.hashPrefix ≠ h) →
    es'.lookup h = none

/-- That is what a new batch leaves, in whatever order it is written. -/
theorem extends_committedEntries {b : Batch} (hb : b.Inv) {order : List UInt16}
    (ho : IterationOrder b.entries.keys order) : Extends b es (committedEntries es b order) where
  kept := fun hl => commitLoop_keeps es b order .new hl
  added := fun {s} _ he hl =>
    commitLoop_adds es hb order .new
      ((ho.mem_iff s).mpr (Finmap.mem_keys.mpr (Finmap.mem_of_lookup_eq_some he))) he hl
  only := fun hl hno => by
    refine Option.eq_none_iff_forall_ne_some.mpr fun c hin => ?_
    rcases commitLoop_adds_only es b order .new hin with hold | ⟨s, e, he, heq, -⟩
    · cases hl.symm.trans hold
    · exact hno s e he heq

/-- And it leaves no choice. -/
theorem Extends.unique {b : Batch} {es es₁ es₂ : LogEntries} (h₁ : Extends b es es₁)
    (h₂ : Extends b es es₂) : es₁ = es₂ := by
  apply Finmap.ext_lookup
  intro h
  cases hl : es.lookup h with
  | some c => rw [h₁.kept hl, h₂.kept hl]
  | none =>
    by_cases hin : ∃ s e, b.entries.lookup s = some e ∧ e.hashPrefix = h
    · obtain ⟨s, e, he, rfl⟩ := hin
      rw [h₁.added he hl, h₂.added he hl]
    · have hno : ∀ s e, b.entries.lookup s = some e → e.hashPrefix ≠ h :=
        fun s e he heq => hin ⟨s, e, he, heq⟩
      rw [h₁.only hl hno, h₂.only hl hno]

end MemoryReplayLog

end LightningOnion
