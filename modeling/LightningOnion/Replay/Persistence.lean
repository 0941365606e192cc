import LightningOnion.Lib.Trace
import LightningOnion.Replay.Log

/-! How long an entry stays in the log.

`apply` is a call on the log as a step; a run is any sequence of calls. An entry is
never overwritten: by a batch as little as by a single write. What takes it out is
deleting it or stopping the log, as documented, and starting the log once more, which
succeeds and empties it. -/
namespace LightningOnion
open Lib

/-- A call on the log. A batch comes with the order its entries are ranged over. -/
inductive LogOp where
  | start
  | stop
  | get (hash : HashPrefix)
  | put (hash : HashPrefix) (cltv : UInt32)
  | delete (hash : HashPrefix)
  | putBatch (batch : Batch) (order : List UInt16)

namespace MemoryReplayLog

/-- The log after a call. -/
def apply (rl : MemoryReplayLog) : LogOp → MemoryReplayLog
  | .start => rl.start.1
  | .stop => rl.stop.1
  | .get _ => rl
  | .put hash cltv => (rl.put hash cltv).1
  | .delete hash => (rl.delete hash).1
  | .putBatch batch order => (rl.putBatch batch order).1

theorem apply_not_started {rl : MemoryReplayLog} (h : ¬rl.Started) {op : LogOp} (hop : op ≠ .start) :
    rl.apply op = rl := by
  cases op with
  | start => exact absurd rfl hop
  | stop => rw [apply, stop_not_started rl h]
  | get _ => rfl
  | put hash cltv => rw [apply, put_not_started rl h]
  | delete hash => rw [apply, delete_not_started rl h]
  | putBatch batch order => rw [apply, putBatch_not_started rl h]

/-- A sequence of calls. -/
def Calls : (Nat → MemoryReplayLog) → (Nat → LogOp) → Nat → Prop :=
  Run fun rl op rl' => rl.apply op = rl'

/-- The call stores `hash` with `cltv`: it writes this entry, or a batch that has it, and
the entry is new. -/
structure Stores (rl : MemoryReplayLog) (op : LogOp) (hash : HashPrefix) (cltv : UInt32) : Prop where
  write : op = .put hash cltv ∨ ∃ batch order s e, op = .putBatch batch order ∧
    batch.entries.lookup s = some e ∧ e.hashPrefix = hash ∧ e.cltv = cltv
  fresh : ∀ c, rl.get hash ≠ .ok c
  stored : (rl.apply op).get hash = .ok cltv

/-- The log answers as it should for an entry it holds. -/
structure Answers (rl : MemoryReplayLog) (hash : HashPrefix) (cltv : UInt32) : Prop where
  get_eq : rl.get hash = .ok cltv
  put_eq : ∀ c, rl.put hash c = (rl, some .errReplayedPacket)

theorem get_eq_ok {rl : MemoryReplayLog} {h : HashPrefix} {c : UInt32} :
    rl.get h = .ok c ↔ ∃ bs es, rl = started bs es ∧ es.lookup h = some c := by
  constructor
  · intro hget
    obtain ⟨_ | bs, _ | es⟩ := rl
    · cases hget
    · cases hget
    · cases hget
    · refine ⟨bs, es, rfl, ?_⟩
      have hstarted := get_started bs es h
      cases hl : es.lookup h with
      | none =>
        rw [hl] at hstarted
        cases hstarted.symm.trans hget
      | some c' =>
        rw [hl] at hstarted
        rw [Except.ok.inj (hstarted.symm.trans hget)]
  · intro hex
    obtain ⟨bs, es, rfl, hl⟩ := hex
    rw [get_started, hl]
    rfl

/-- Finding the entry, the log refuses it as a replay. -/
theorem answers_of_get {rl : MemoryReplayLog} {h : HashPrefix} {c : UInt32} (hget : rl.get h = .ok c) :
    rl.Answers h c := by
  obtain ⟨bs, es, rfl, hl⟩ := get_eq_ok.mp hget
  exact ⟨hget, fun c' => put_started_mem bs es (Finmap.mem_of_lookup_eq_some hl) c'⟩

/-- No call but a start, a stop or its own deletion takes an entry out or changes it. -/
theorem get_apply {rl : MemoryReplayLog} {h : HashPrefix} {c : UInt32} (hget : rl.get h = .ok c)
    (op : LogOp) (hop : op ≠ .start ∧ op ≠ .stop ∧ op ≠ .delete h) : (rl.apply op).get h = .ok c := by
  obtain ⟨bs, es, rfl, hl⟩ := get_eq_ok.mp hget
  cases op with
  | start => exact absurd rfl hop.1
  | stop => exact absurd rfl hop.2.1
  | get _ => exact hget
  | put h' c' =>
    by_cases hm : h' ∈ es
    · rw [apply, put_started_mem bs es hm]
      exact hget
    · have hne : h ≠ h' := fun heq => hm (heq ▸ Finmap.mem_of_lookup_eq_some hl)
      rw [apply, put_started_notMem bs es hm]
      exact get_eq_ok.mpr ⟨_, _, rfl, by rw [Finmap.lookup_insert_of_ne _ hne, hl]⟩
  | delete h' =>
    have hne : h ≠ h' := fun heq => hop.2.2 (by rw [heq])
    rw [apply, delete_started]
    exact get_eq_ok.mpr ⟨_, _, rfl, by rw [Finmap.lookup_erase_ne hne, hl]⟩
  | putBatch b order =>
    cases hb : bs.lookup b.id with
    | some rs =>
      rw [apply, putBatch_known bs es hb]
      exact hget
    | none =>
      rw [apply, putBatch_new bs es hb]
      exact get_eq_ok.mpr ⟨_, _, rfl, commitLoop_keeps es b order .new hl⟩

/-- The log has a batch recorded under that ID. -/
def HasBatch (rl : MemoryReplayLog) (id : List UInt8) : Prop :=
  ∃ bs es, rl = started bs es ∧ id ∈ bs

theorem hasBatch_started {bs : LogBatches} {es : LogEntries} {id : List UInt8} :
    (started bs es).HasBatch id ↔ id ∈ bs := by
  constructor
  · rintro ⟨bs', es', heq, hid⟩
    cases heq
    exact hid
  · exact fun hid => ⟨bs, es, rfl, hid⟩

/-- Only writing a batch records one, under the batch's own ID. -/
theorem hasBatch_apply {rl : MemoryReplayLog} {op : LogOp} {id : List UInt8}
    (h : (rl.apply op).HasBatch id) :
    rl.HasBatch id ∨ ∃ batch order, op = .putBatch batch order ∧ batch.id = id := by
  by_cases hstarted : rl.Started
  · obtain ⟨bs, es, rfl⟩ := hstarted
    cases op with
    | start => exact absurd (hasBatch_started.mp h) Finmap.notMem_empty
    | stop =>
      obtain ⟨_, _, heq, -⟩ := h
      cases heq
    | get _ => exact .inl h
    | put hash cltv =>
      obtain ⟨es', hput⟩ := put_started bs es hash cltv
      rw [apply, hput, hasBatch_started] at h
      exact .inl (hasBatch_started.mpr h)
    | delete hash =>
      rw [apply, delete_started, hasBatch_started] at h
      exact .inl (hasBatch_started.mpr h)
    | putBatch batch order =>
      cases hb : bs.lookup batch.id with
      | some rs =>
        rw [apply, putBatch_known bs es hb] at h
        exact .inl h
      | none =>
        rw [apply, putBatch_new bs es hb, hasBatch_started, Finmap.mem_insert] at h
        rcases h with rfl | hid
        · exact .inr ⟨batch, order, rfl, rfl⟩
        · exact .inl (hasBatch_started.mpr hid)
  · by_cases hop : op = .start
    · subst hop
      exact absurd (hasBatch_started.mp h) Finmap.notMem_empty
    · rw [apply_not_started hstarted hop] at h
      exact .inl h

theorem get_start (rl : MemoryReplayLog) (h : HashPrefix) :
    (rl.apply .start).get h = .error .errLogEntryNotFound := by
  show (started ∅ ∅).get h = _
  rw [get_started, Finmap.lookup_empty]
  rfl

theorem stores_empty (h : HashPrefix) (c : UInt32) : Stores (started ∅ ∅) (.put h c) h c where
  write := .inl rfl
  fresh := fun c' hget => by
    obtain ⟨bs, es, heq, hl⟩ := get_eq_ok.mp hget
    cases heq
    cases hl
  stored := by
    rw [apply, put_started_notMem ∅ ∅ Finmap.notMem_empty]
    exact get_eq_ok.mpr ⟨_, _, rfl, Finmap.lookup_insert _⟩

/-- **How long an entry persists.** Between the call that stored it and the first
deletion or stop, whatever other calls are made, every lookup of an entry returns its
value and every further write of it is refused as a replay, exactly when the log is
not started again. -/
theorem entry_persists_iff {state : Nat → MemoryReplayLog} {op : Nat → LogOp} {m : Nat}
    (hrun : Calls state op m) {i k : Nat} (hik : i < k) (hkm : k ≤ m) {h : HashPrefix} {c : UInt32}
    (hstore : Stores (state i) (op i) h c)
    (hkept : ∀ j, i < j → j < k → op j ≠ .stop ∧ op j ≠ .delete h) :
    (∀ j, i < j → j ≤ k → (state j).Answers h c) ↔ ∀ j, i < j → j < k → op j ≠ .start := by
  constructor
  · intro hall j hij hjk heq
    have hstep : (state j).apply (op j) = state (j + 1) := hrun.step_at j (by omega)
    have hget := (hall (j + 1) (by omega) hjk).get_eq
    rw [← hstep, heq, get_start] at hget
    cases hget
  · intro hstart j hij hjk
    have hfirst : (state (i + 1)).get h = .ok c := by
      rw [← hrun.step_at i (by omega)]
      exact hstore.stored
    refine answers_of_get (hrun.keeps (K := fun rl => rl.get h = .ok c)
      (A := fun a => a ≠ .start ∧ a ≠ .stop ∧ a ≠ .delete h) ?_ hkm ?_ hfirst j hij hjk)
    · rintro rl a _ ha rfl hget
      exact get_apply hget a ha
    · exact fun j' hij' hjk' => ⟨hstart j' hij' hjk', hkept j' hij' hjk'⟩

/-- Stored and then looked up: it is there. -/
theorem stored_answers : ((started ∅ ∅).apply (.put (zeroBytes 20) 7)).Answers (zeroBytes 20) 7 := by
  let log : Nat → MemoryReplayLog := fun j =>
    if j = 0 then started ∅ ∅ else (started ∅ ∅).apply (.put (zeroBytes 20) 7)
  let op : Nat → LogOp := fun j => if j = 0 then .put (zeroBytes 20) 7 else .get (zeroBytes 20)
  have hrun : Calls log op 2 := ⟨fun j hj => by
    rcases (by omega : j = 0 ∨ j = 1) with rfl | rfl <;> rfl⟩
  have hop : ∀ j, 0 < j → op j = .get (zeroBytes 20) := fun j hj => if_neg (by omega)
  have hiff := entry_persists_iff hrun (by omega : 0 < 2) (Nat.le_refl 2)
    (stores_empty (zeroBytes 20) 7)
    (fun j hj _ => by rw [hop j hj]; exact ⟨LogOp.noConfusion, LogOp.noConfusion⟩)
  exact hiff.mpr (fun j hj _ => by rw [hop j hj]; exact LogOp.noConfusion) 2 (by omega) (by omega)

/-- Stored, and the log started again: it is gone, and its replay is accepted. -/
theorem restart_drops_entry : Stores (started ∅ ∅) (.put (zeroBytes 20) 7) (zeroBytes 20) 7 ∧
    (((started ∅ ∅).apply (.put (zeroBytes 20) 7)).apply .start).get (zeroBytes 20) =
      .error .errLogEntryNotFound ∧
    (((started ∅ ∅).apply (.put (zeroBytes 20) 7)).apply .start).put (zeroBytes 20) 8 =
      (started ∅ (Finmap.insert (zeroBytes 20) 8 ∅), none) :=
  ⟨stores_empty _ 7, get_start _ _, put_started_notMem ∅ ∅ Finmap.notMem_empty 8⟩

/-! ### What the log holds -/

/-- What a lookup finds after a call was found before it, or stored by it. -/
theorem get_apply_cases {rl : MemoryReplayLog} {op : LogOp} {h : HashPrefix} {c : UInt32}
    (hget : (rl.apply op).get h = .ok c) :
    (rl.get h = .ok c ∧ op ≠ .start ∧ op ≠ .stop ∧ op ≠ .delete h) ∨ Stores rl op h c := by
  by_cases hstarted : rl.Started
  · obtain ⟨bs, es, rfl⟩ := hstarted
    cases op with
    | start =>
      rw [get_start] at hget
      cases hget
    | stop => cases hget
    | get _ => exact .inl ⟨hget, by simp, by simp, by simp⟩
    | put h' c' =>
      by_cases hm : h' ∈ es
      · rw [apply, put_started_mem bs es hm] at hget
        exact .inl ⟨hget, by simp, by simp, by simp⟩
      · by_cases heq : h = h'
        · subst heq
          have hval : c' = c := by
            rw [apply, put_started_notMem bs es hm, get_started, Finmap.lookup_insert] at hget
            exact Except.ok.inj hget
          refine .inr ⟨.inl (hval ▸ rfl), fun c₀ hold => ?_, hget⟩
          obtain ⟨_, _, heq, hl⟩ := get_eq_ok.mp hold
          cases heq
          exact hm (Finmap.mem_of_lookup_eq_some hl)
        · rw [apply, put_started_notMem bs es hm, get_started, Finmap.lookup_insert_of_ne _ heq,
            ← get_started bs es] at hget
          exact .inl ⟨hget, by simp, by simp, by simp⟩
    | delete h' =>
      rw [apply, delete_started, get_started] at hget
      have hne : h ≠ h' := by
        rintro rfl
        rw [Finmap.lookup_erase] at hget
        cases hget
      rw [Finmap.lookup_erase_ne hne, ← get_started bs es] at hget
      exact .inl ⟨hget, by simp, by simp, by simpa using hne.symm⟩
    | putBatch b order =>
      cases hl : es.lookup h with
      | some c₀ =>
        have hold : (started bs es).get h = .ok c₀ := get_eq_ok.mpr ⟨bs, es, rfl, hl⟩
        have hkept := get_apply hold (.putBatch b order) ⟨by simp, by simp, by simp⟩
        cases hkept.symm.trans hget
        exact .inl ⟨hold, by simp, by simp, by simp⟩
      | none =>
        have hin : ∃ s e, b.entries.lookup s = some e ∧ e.hashPrefix = h ∧ e.cltv = c := by
          cases hb : bs.lookup b.id with
          | some rs =>
            rw [apply, putBatch_known bs es hb, get_started, hl] at hget
            cases hget
          | none =>
            rw [apply, putBatch_new bs es hb] at hget
            obtain ⟨_, _, heq, hadded⟩ := get_eq_ok.mp hget
            cases heq
            refine (commitLoop_adds_only es b order .new hadded).resolve_left fun hold => ?_
            cases hl.symm.trans hold
        obtain ⟨s, e, hentry⟩ := hin
        refine .inr ⟨.inr ⟨b, order, s, e, rfl, hentry⟩, fun c₀ hold => ?_, hget⟩
        obtain ⟨_, _, heq, hl'⟩ := get_eq_ok.mp hold
        cases heq
        cases hl.symm.trans hl'
  · -- Of a log that is not started, only a start makes a started one, and an empty one.
    by_cases hop : op = .start
    · subst hop
      rw [get_start] at hget
      cases hget
    · rw [apply_not_started hstarted hop] at hget
      obtain ⟨bs, es, rfl, -⟩ := get_eq_ok.mp hget
      exact absurd ⟨bs, es, rfl⟩ hstarted

/-- **The log holds what was stored and not taken out.** After any calls on a log without
the prefix, a lookup finds a value exactly if one of the calls stored the prefix with
this value, and no start, no stop and no deletion of the prefix came after it; and then
it was one call. -/
theorem get_iff_stored {state : Nat → MemoryReplayLog} {op : Nat → LogOp} {m : Nat}
    (hrun : Calls state op m) {h : HashPrefix} (h0 : ∀ c, (state 0).get h ≠ .ok c) {k : Nat}
    (hk : k ≤ m) (c : UInt32) :
    (state k).get h = .ok c ↔ ∃! i, i < k ∧ Stores (state i) (op i) h c ∧
      ∀ j, i < j → j < k → op j ≠ .start ∧ op j ≠ .stop ∧ op j ≠ .delete h := by
  have hheld : ∀ {k i : Nat}, k ≤ m → i < k → Stores (state i) (op i) h c →
      (∀ j, i < j → j < k → op j ≠ .start ∧ op j ≠ .stop ∧ op j ≠ .delete h) →
      (state k).get h = .ok c := by
    intro k i hk hik hstore hkept
    have hfirst : (state (i + 1)).get h = .ok c := by
      rw [← hrun.step_at i (by omega)]
      exact hstore.stored
    refine hrun.keeps (K := fun rl => rl.get h = .ok c)
      (A := fun a => a ≠ .start ∧ a ≠ .stop ∧ a ≠ .delete h) ?_ hk hkept hfirst k hik (Nat.le_refl k)
    rintro rl a _ ha rfl hget
    exact get_apply hget a ha
  constructor
  · intro hget
    have hex : ∃ i, i < k ∧ Stores (state i) (op i) h c ∧
        ∀ j, i < j → j < k → op j ≠ .start ∧ op j ≠ .stop ∧ op j ≠ .delete h := by
      induction k with
      | zero => exact absurd hget (h0 c)
      | succ k ih =>
        have hstep : (state k).apply (op k) = state (k + 1) := hrun.step_at k (by omega)
        rw [← hstep] at hget
        rcases get_apply_cases hget with ⟨hold, hop⟩ | hstore
        · obtain ⟨i, hik, hstore, hkept⟩ := ih (by omega) hold
          refine ⟨i, by omega, hstore, fun j hij hjk => ?_⟩
          rcases Nat.lt_succ_iff_lt_or_eq.mp hjk with hlt | rfl
          · exact hkept j hij hlt
          · exact hop
        · exact ⟨k, Nat.lt_succ_self k, hstore, fun j hkj hjk => absurd hjk (by omega)⟩
    obtain ⟨i, hik, hstore, hkept⟩ := hex
    refine ⟨i, ⟨hik, hstore, hkept⟩, fun i' ⟨hik', hstore', hkept'⟩ => ?_⟩
    -- Of two calls, the later one would have found the prefix there.
    rcases Nat.lt_trichotomy i i' with hlt | heq | hlt
    · exact absurd (hheld (by omega) hlt hstore fun j hij hjk => hkept j hij (by omega)) (hstore'.fresh c)
    · exact heq.symm
    · exact absurd (hheld (by omega) hlt hstore' fun j hij hjk => hkept' j hij (by omega))
        (hstore.fresh c)
  · rintro ⟨i, ⟨hik, hstore, hkept⟩, -⟩
    exact hheld hk hik hstore hkept

/-- A new log, started and written to. -/
def oneWrite : Nat → MemoryReplayLog
  | 0 => new
  | 1 => started ∅ ∅
  | _ => ((started ∅ ∅).put (zeroBytes 20) 7).1

def oneWriteOp (j : Nat) : LogOp := if j = 0 then .start else .put (zeroBytes 20) 7

/-- It holds what that one call stored. -/
theorem oneWrite_stored : ∃! i, i < 2 ∧ Stores (oneWrite i) (oneWriteOp i) (zeroBytes 20) 7 ∧
    ∀ j, i < j → j < 2 →
      oneWriteOp j ≠ .start ∧ oneWriteOp j ≠ .stop ∧ oneWriteOp j ≠ .delete (zeroBytes 20) := by
  have hrun : Calls oneWrite oneWriteOp 2 := ⟨fun j hj => by
    rcases (by omega : j = 0 ∨ j = 1) with rfl | rfl <;> rfl⟩
  exact (get_iff_stored hrun (fun c hnew => by cases hnew) (Nat.le_refl 2) 7).mp
    (stores_empty (zeroBytes 20) 7).stored

end MemoryReplayLog

end LightningOnion
