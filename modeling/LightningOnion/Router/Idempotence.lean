import LightningOnion.Lib.Trace
import LightningOnion.Router.Batching

/-! Committing again.

The log records the result of every batch under its ID, and nothing but starting or
stopping the log takes it away. Whatever happens in between, committing the same
transaction again, or one filled by the same calls under the same ID, returns the
recorded result and writes nothing. -/
namespace LightningOnion
open Lib

variable {P : Primitives}

/-- What may happen between two commits. -/
inductive LaterOp (P : Primitives) where
  | process (r : Router P) (onionPkt : OnionPacket) (assocData : List UInt8) (incomingCltv : UInt32)
  | put (hash : HashPrefix) (cltv : UInt32)
  | get (hash : HashPrefix)
  | delete (hash : HashPrefix)
  /-- Commits some transaction, which may have any ID and be in any state. -/
  | commit (t : Tx P) (order : List UInt16)

/-- The log after it. -/
def LaterOp.apply (log : MemoryReplayLog) : LaterOp P → MemoryReplayLog
  | process r onionPkt assocData incomingCltv =>
    (r.processOnionPacket log onionPkt assocData incomingCltv).1
  | put hash cltv => (log.put hash cltv).1
  | get _ => log
  | delete hash => (log.delete hash).1
  | commit t order => (t.commit log order).1

/-- The log is started and holds the result `rs` of the batch `id`. -/
def MemoryReplayLog.Records (log : MemoryReplayLog) (id : List UInt8) (rs : ReplaySet) : Prop :=
  ∃ bs es, log = .started bs es ∧ bs.lookup id = some rs

namespace MemoryReplayLog
variable {log : MemoryReplayLog} {id : List UInt8} {rs : ReplaySet}

theorem Records.put (hr : log.Records id rs) (h : HashPrefix) (c : UInt32) :
    (log.put h c).1.Records id rs := by
  obtain ⟨bs, es, rfl, hl⟩ := hr
  obtain ⟨es', hput⟩ := put_started bs es h c
  exact ⟨bs, es', hput, hl⟩

/-- A commit records under the ID of a new batch only. -/
theorem Records.commit (hr : log.Records id rs) (t : Tx P) (order : List UInt16) :
    (t.commit log order).1.Records id rs := by
  obtain ⟨bs, es, rfl, hl⟩ := hr
  rcases t.batch.committed_or_open with hc | ho
  · rw [Tx.commit_committed hc]
    exact ⟨bs, es, rfl, hl⟩
  · cases hb : bs.lookup t.batch.id with
    | some rs' =>
      rw [Tx.commit_known bs es order ho hb]
      exact ⟨bs, es, rfl, hl⟩
    | none =>
      have hne : id ≠ t.batch.id := fun heq => by
        rw [heq, hb] at hl
        cases hl
      rw [Tx.commit_new bs es order ho hb]
      exact ⟨_, _, rfl, by rw [Finmap.lookup_insert_of_ne _ hne, hl]⟩

/-- **Recorded results stay.** -/
theorem Records.apply (hr : log.Records id rs) (op : LaterOp P) : (op.apply log).Records id rs := by
  cases op with
  | process r pkt ad cltv =>
    rcases r.processOnionPacket_log log pkt ad cltv with heq | ⟨h, heq⟩
    · rw [LaterOp.apply, heq]
      exact hr
    · rw [LaterOp.apply, heq]
      exact hr.put h cltv
  | put h c => exact hr.put h c
  | get h => exact hr
  | delete h =>
    obtain ⟨bs, es, rfl, hl⟩ := hr
    exact ⟨bs, _, rfl, hl⟩
  | commit t order => exact hr.commit t order

end MemoryReplayLog

/-! ### Filled transactions -/

theorem Tx.processAll_frame {t t' : Tx P} {calls : List Call} {errs : List (Option Error)}
    (h : t.processAll calls = some (t', errs)) :
    t'.batch.id = t.batch.id ∧ t'.batch.isCommitted = t.batch.isCommitted := by
  induction calls generalizing t errs with
  | nil =>
    cases h
    exact ⟨rfl, rfl⟩
  | cons c rest ih =>
    rw [processAll] at h
    split at h
    · cases h
    · rename_i t₁ err hstep
      obtain ⟨⟨t₂, errs₂⟩, hrest, heq⟩ := Option.map_eq_some_iff.mp h
      cases heq
      obtain ⟨hid, hcommitted⟩ := ih hrest
      rcases processOnionPacket_cases hstep with ⟨rfl, -⟩ | ⟨hp, packet, -, -, -, rfl, -⟩
      · exact ⟨hid, hcommitted⟩
      · have hput := Batch.put_frame t.batch c.seqNum hp c.incomingCltv
        exact ⟨hid.trans hput.2, hcommitted.trans hput.1⟩

/-- Once the result is recorded, an open transaction with that ID gets it. -/
theorem Tx.commit_recorded {log : MemoryReplayLog} {t : Tx P} {rs : ReplaySet}
    (hr : log.Records t.batch.id rs) (ho : t.batch.Open) (order : List UInt16) :
    t.commit log order =
      (log, {t with batch := {t.batch with replaySet := rs, isCommitted := true}}, t.packets, .ok rs) := by
  obtain ⟨bs, es, rfl, hl⟩ := hr
  exact commit_known bs es order ho hl

/-- **Batches are idempotent.** A transaction with a new ID, filled by any calls, is
committed. After anything that may happen later, committing it again, and committing
one that was filled by the same calls under the same ID, return what the first commit
did and leave the log alone; and neither transaction processes anything more. -/
theorem commit_idempotent (r : Router P) (bs : LogBatches) (es : LogEntries) (id : List UInt8)
    (hid : bs.lookup id = none) (nels : Nat) (calls : List Call) {t : Tx P}
    {errs : List (Option Error)} (hfill : (r.beginTxn id nels).processAll calls = some (t, errs))
    (order : List UInt16) :
    ∃ log₁ t₁ rs, t.commit (.started bs es) order = (log₁, t₁, t.packets, .ok rs) ∧
      ∀ (log : Nat → MemoryReplayLog) (op : Nat → LaterOp P) (m : Nat), log 0 = log₁ →
        Run (fun log op log' => op.apply log = log') log op m →
        ∀ order₁ order₂ t₀ errs₀, (r.beginTxn id nels).processAll calls = some (t₀, errs₀) →
          t₁.commit (log m) order₁ = (log m, t₁, t.packets, .ok rs) ∧
          ∃ t₂, t₀.commit (log m) order₂ = (log m, t₂, t.packets, .ok rs) ∧
            ∀ seqNum onionPkt assocData cltv,
              (∃ err, t₁.processOnionPacket seqNum onionPkt assocData cltv = some (t₁, some err)) ∧
              ∃ err, t₂.processOnionPacket seqNum onionPkt assocData cltv = some (t₂, some err) := by
  obtain ⟨htid, hopen⟩ := Tx.processAll_frame hfill
  have hnew : bs.lookup t.batch.id = none := by
    rw [htid]
    exact hid
  refine ⟨_, _, _, Tx.commit_new bs es order hopen hnew, fun log op m h0 hrun order₁ order₂ t₀ errs₀ hfill₀ => ?_⟩
  cases hfill.symm.trans hfill₀
  have hrec : (log m).Records t.batch.id (MemoryReplayLog.committedReplays es t.batch order) := by
    refine hrun.invariant (I := fun log => log.Records t.batch.id _) ?_ ?_ (Nat.le_refl m)
    · rintro log op _ rfl hr
      exact hr.apply op
    · rw [h0]
      exact ⟨_, _, rfl, Finmap.lookup_insert _⟩
  exact ⟨Tx.commit_committed rfl _ _, _, Tx.commit_recorded hrec hopen order₂, fun seqNum pkt ad cltv =>
    ⟨Tx.processOnionPacket_of_committed rfl _ _ _ _, Tx.processOnionPacket_of_committed rfl _ _ _ _⟩⟩

/-- Committed, its first entry deleted, and committed again: the same replays. -/
theorem sampleCalls_again : ∃ t errs log₁ t₁ rs,
    (Router.sample.beginTxn [1] 2).processAll sampleCalls = some (t, errs) ∧
      t.commit (.started ∅ ∅) [0] = (log₁, t₁, t.packets, .ok rs) ∧
      t₁.commit (log₁.delete (hashSharedSecret (samplePrimitives fun _ _ => sampleHash) sampleHash)).1 [0] =
        ((log₁.delete (hashSharedSecret (samplePrimitives fun _ _ => sampleHash) sampleHash)).1, t₁,
          t.packets, .ok rs) := by
  obtain ⟨t, errs, es₁, outs, hfill, -⟩ := linked_run (∅ : LogBatches) sampleCalls (by decide)
    (linked_beginTxn Router.sample [1] 2 ∅) rfl (by decide)
    (fun c _ => unused_beginTxn Router.sample [1] 2 c.seqNum)
  obtain ⟨log₁, t₁, rs, hcommit, hlater⟩ :=
    commit_idempotent Router.sample ∅ ∅ [1] rfl 2 sampleCalls hfill [0]
  let h := hashSharedSecret (samplePrimitives fun _ _ => sampleHash) sampleHash
  let log : Nat → MemoryReplayLog := fun i => if i = 0 then log₁ else (log₁.delete h).1
  have hrun : Run (fun log op log' => op.apply log = log') log
      (fun _ => (.delete h : LaterOp (samplePrimitives fun _ _ => sampleHash))) 1 :=
    ⟨fun i hi => by
      obtain rfl : i = 0 := by omega
      rfl⟩
  exact ⟨t, errs, log₁, t₁, rs, hfill, hcommit, (hlater log _ 1 rfl hrun [0] [0] t errs hfill).1⟩

end LightningOnion
