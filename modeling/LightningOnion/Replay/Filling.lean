import LightningOnion.Replay.Log

/-! Filling a batch and writing it.

A new batch filled by any calls of `Put` keeps its entries' prefixes distinct
(`inv_putAll`), so that the order in which the map is ranged over cannot show
(`putBatch_order`). It does not keep every prefix: a call that brings a new prefix
under a sequence number already in use replaces the entry there, while the prefix it
held stays in the replay cache (`Overwritten`). `lookup_filled` says which entries
there are. -/
namespace LightningOnion

/-- The arguments of a call of `Batch.Put`. -/
structure PutCall where
  seqNum : UInt16
  hashPrefix : HashPrefix
  cltv : UInt32

namespace Batch

/-- The batch after the calls, one after the other. -/
def putAll (b : Batch) (calls : List PutCall) : Batch :=
  calls.foldl (fun b c => (b.put c.seqNum c.hashPrefix c.cltv).1) b

/-- A new batch after the calls. -/
def filled (id : List UInt8) (calls : List PutCall) : Batch := (new id).putAll calls

theorem putAll_concat (b : Batch) (calls : List PutCall) (c : PutCall) :
    b.putAll (calls ++ [c]) = ((b.putAll calls).put c.seqNum c.hashPrefix c.cltv).1 := by
  rw [putAll, List.foldl_append]
  rfl

theorem putAll_frame (b : Batch) (calls : List PutCall) :
    (b.putAll calls).isCommitted = b.isCommitted ∧ (b.putAll calls).id = b.id := by
  induction calls generalizing b with
  | nil => exact ⟨rfl, rfl⟩
  | cons c rest ih =>
    obtain ⟨hc, hid⟩ := put_frame b c.seqNum c.hashPrefix c.cltv
    obtain ⟨hc', hid'⟩ := ih (b.put c.seqNum c.hashPrefix c.cltv).1
    exact ⟨hc'.trans hc, hid'.trans hid⟩

theorem inv_putAll {b : Batch} (h : b.Inv) (calls : List PutCall) : (b.putAll calls).Inv := by
  induction calls generalizing b with
  | nil => exact h
  | cons c rest ih => exact ih (inv_put h c.seqNum c.hashPrefix c.cltv)

theorem inv_filled (id : List UInt8) (calls : List PutCall) : (filled id calls).Inv :=
  inv_putAll (inv_new id) calls

theorem filled_open (id : List UInt8) (calls : List PutCall) : (filled id calls).Open :=
  ((new id).putAll_frame calls).1

theorem filled_id (id : List UInt8) (calls : List PutCall) : (filled id calls).id = id :=
  ((new id).putAll_frame calls).2

/-! ### What a filled batch holds -/

/-- The call that brought prefix `p` in. -/
def bringer (calls : List PutCall) (p : HashPrefix) : Option PutCall :=
  calls.find? fun c => decide (c.hashPrefix = p)

/-- A later call brings in another prefix under the sequence number of the call that
brought in `p`. -/
def Overwritten (calls : List PutCall) (p : HashPrefix) : Prop :=
  ∃ before d after c, calls = before ++ d :: after ∧ bringer before d.hashPrefix = none ∧
    bringer before p = some c ∧ c.seqNum = d.seqNum

theorem bringer_eq_none {calls : List PutCall} {p : HashPrefix} :
    bringer calls p = none ↔ ∀ c ∈ calls, c.hashPrefix ≠ p := by
  simp [bringer]

theorem hashPrefix_bringer {calls : List PutCall} {p : HashPrefix} {c : PutCall}
    (h : bringer calls p = some c) : c ∈ calls ∧ c.hashPrefix = p := by
  have hp := List.find?_some h
  exact ⟨List.mem_of_find?_eq_some h, of_decide_eq_true hp⟩

theorem bringer_concat (calls : List PutCall) (d : PutCall) (p : HashPrefix) :
    bringer (calls ++ [d]) p =
      if d.hashPrefix = p ∧ bringer calls d.hashPrefix = none then some d else bringer calls p := by
  rw [bringer, List.find?_append]
  by_cases hp : d.hashPrefix = p
  · subst hp
    show (bringer calls d.hashPrefix).or _ = _
    cases bringer calls d.hashPrefix <;> simp
  · show (bringer calls p).or _ = _
    simp [hp]

theorem overwritten_concat (calls : List PutCall) (d : PutCall) (p : HashPrefix) :
    Overwritten (calls ++ [d]) p ↔ Overwritten calls p ∨
      (bringer calls d.hashPrefix = none ∧ ∃ c, bringer calls p = some c ∧ c.seqNum = d.seqNum) := by
  constructor
  · intro ⟨before, d', after, c, hsplit, hnew, hc, hseq⟩
    rcases List.eq_nil_or_concat after with rfl | ⟨after', last, rfl⟩
    · obtain ⟨rfl, hd⟩ := List.append_inj' hsplit rfl
      cases hd
      exact .inr ⟨hnew, c, hc, hseq⟩
    · rw [List.concat_eq_append, ← List.cons_append, ← List.append_assoc] at hsplit
      obtain ⟨rfl, -⟩ := List.append_inj' hsplit rfl
      exact .inl ⟨before, d', after', c, rfl, hnew, hc, hseq⟩
  · intro h
    rcases h with ⟨before, d', after, c, rfl, hnew, hc, hseq⟩ | ⟨hnew, c, hc, hseq⟩
    · exact ⟨before, d', after ++ [d], c, by simp, hnew, hc, hseq⟩
    · exact ⟨calls, d, [], c, rfl, hnew, hc, hseq⟩

theorem not_overwritten_of_bringer {calls : List PutCall} {p : HashPrefix}
    (h : bringer calls p = none) : ¬ Overwritten calls p := by
  intro ⟨before, d, after, c, hsplit, _, hc, _⟩
  obtain ⟨hmem, hp⟩ := hashPrefix_bringer hc
  exact bringer_eq_none.mp h c (hsplit ▸ List.mem_append_left _ hmem) hp

/-- What a batch holds after the calls: all prefixes in its cache, and in its
entries those that were not overwritten, each under the call that brought it in. -/
structure Holds (calls : List PutCall) (b : Batch) : Prop where
  isOpen : b.Open
  cache : ∀ p, p ∈ b.replayCache ↔ bringer calls p ≠ none
  entries : ∀ s e, b.entries.lookup s = some e ↔
    ∃ c, bringer calls e.hashPrefix = some c ∧ c.seqNum = s ∧ c.cltv = e.cltv ∧
      ¬ Overwritten calls e.hashPrefix

theorem holds_new (id : List UInt8) : Holds [] (new id) where
  isOpen := rfl
  cache := fun p => by simp [new, bringer]
  entries := fun s e => by simp [new, bringer]

/-- A call whose prefix is cached changes neither what is cached nor what is held. -/
theorem Holds.put_again {calls : List PutCall} {b : Batch} (h : Holds calls b) {d : PutCall}
    (hd : d.hashPrefix ∈ b.replayCache) :
    Holds (calls ++ [d]) (b.put d.seqNum d.hashPrefix d.cltv).1 := by
  have hknown : ¬ bringer calls d.hashPrefix = none := (h.cache _).mp hd
  have hbringer : ∀ p, bringer (calls ++ [d]) p = bringer calls p := by
    intro p
    rw [bringer_concat, if_neg (fun hnew => hknown hnew.2)]
  have hover : ∀ p, Overwritten (calls ++ [d]) p ↔ Overwritten calls p := by
    intro p
    rw [overwritten_concat, or_iff_left (fun hnew => hknown hnew.1)]
  rw [put_cached h.isOpen hd]
  refine ⟨h.isOpen, fun p => ?_, fun s e => ?_⟩
  · rw [hbringer]
    exact h.cache p
  · rw [hbringer, hover]
    exact h.entries s e

section
variable {calls : List PutCall} {b : Batch} (h : Holds calls b) {d : PutCall}
  (hnew : bringer calls d.hashPrefix = none)
include h hnew

/-- A new prefix is held under its own sequence number only. -/
theorem Holds.lookup_insert_self (s : UInt16) {e : BatchEntry} (he : d.hashPrefix = e.hashPrefix) :
    (b.entries.insert d.seqNum ⟨d.hashPrefix, d.cltv⟩).lookup s = some e ↔
      s = d.seqNum ∧ e.cltv = d.cltv := by
  by_cases hs : s = d.seqNum
  · subst hs
    rw [Finmap.lookup_insert, he]
    constructor
    · intro hl
      exact ⟨rfl, (congrArg BatchEntry.cltv (Option.some.inj hl)).symm⟩
    · intro ⟨_, hcltv⟩
      rw [← hcltv]
  · rw [Finmap.lookup_insert_of_ne _ hs, h.entries s e, ← he, hnew]
    simp [hs]

/-- Another prefix is held as before, unless it was under that sequence number. -/
theorem Holds.lookup_insert_other (s : UInt16) {e : BatchEntry} (he : d.hashPrefix ≠ e.hashPrefix) :
    (b.entries.insert d.seqNum ⟨d.hashPrefix, d.cltv⟩).lookup s = some e ↔
      ∃ c, bringer calls e.hashPrefix = some c ∧ c.seqNum = s ∧ c.cltv = e.cltv ∧
        ¬ Overwritten (calls ++ [d]) e.hashPrefix := by
  rw [overwritten_concat]
  by_cases hs : s = d.seqNum
  · subst hs
    rw [Finmap.lookup_insert]
    constructor
    · intro hl
      cases hl
      exact absurd rfl he
    · intro ⟨c, hc, hseq, _, hnot⟩
      exact absurd (.inr ⟨hnew, c, hc, hseq⟩) hnot
  · rw [Finmap.lookup_insert_of_ne _ hs, h.entries s e]
    constructor
    · intro ⟨c, hc, hseq, hcltv, hnot⟩
      refine ⟨c, hc, hseq, hcltv, fun hover => ?_⟩
      rcases hover with hover | ⟨-, c', hc', hseq'⟩
      · exact hnot hover
      · rw [hc] at hc'
        cases hc'
        exact hs (hseq.symm.trans hseq')
    · intro ⟨c, hc, hseq, hcltv, hnot⟩
      exact ⟨c, hc, hseq, hcltv, fun hover => hnot (.inl hover)⟩

end

/-- A call with a new prefix caches it and holds it in place of what it overwrites. -/
theorem Holds.put_new {calls : List PutCall} {b : Batch} (h : Holds calls b) {d : PutCall}
    (hd : d.hashPrefix ∉ b.replayCache) :
    Holds (calls ++ [d]) (b.put d.seqNum d.hashPrefix d.cltv).1 := by
  have hnew : bringer calls d.hashPrefix = none := not_not.mp fun hne => hd ((h.cache _).mpr hne)
  have hself : bringer (calls ++ [d]) d.hashPrefix = some d := by
    rw [bringer_concat, if_pos ⟨rfl, hnew⟩]
  have hother : ∀ p, d.hashPrefix ≠ p → bringer (calls ++ [d]) p = bringer calls p := by
    intro p hp
    rw [bringer_concat, if_neg (fun hnew => hp hnew.1)]
  have hnot : ¬ Overwritten (calls ++ [d]) d.hashPrefix := by
    rw [overwritten_concat, hnew]
    simpa using not_overwritten_of_bringer hnew
  rw [put_fresh h.isOpen hd]
  refine ⟨h.isOpen, fun p => ?_, fun s e => ?_⟩
  · by_cases hp : d.hashPrefix = p
    · subst hp
      rw [hself]
      simp
    · rw [hother p hp, ← h.cache p, Finset.mem_insert, or_iff_right (Ne.symm hp)]
  · by_cases hp : d.hashPrefix = e.hashPrefix
    · rw [h.lookup_insert_self hnew s hp, ← hp, hself]
      constructor
      · intro ⟨hs, hcltv⟩
        exact ⟨d, rfl, hs.symm, hcltv.symm, hnot⟩
      · intro ⟨c, hc, hs, hcltv, _⟩
        cases hc
        exact ⟨hs.symm, hcltv.symm⟩
    · rw [h.lookup_insert_other hnew s hp, hother _ hp]

theorem holds_filled (id : List UInt8) (calls : List PutCall) : Holds calls (filled id calls) := by
  induction calls using List.reverseRecOn with
  | nil => exact holds_new id
  | append_singleton calls d ih =>
    rw [filled, putAll_concat, ← filled]
    by_cases hd : d.hashPrefix ∈ (filled id calls).replayCache
    · exact ih.put_again hd
    · exact ih.put_new hd

/-- The prefixes among the entries are the ones passed and not overwritten. -/
theorem Holds.mem_entries_iff {calls : List PutCall} {b : Batch} (h : Holds calls b)
    (p : HashPrefix) : (∃ s e, b.entries.lookup s = some e ∧ e.hashPrefix = p) ↔
      p ∈ b.replayCache ∧ ¬ Overwritten calls p := by
  constructor
  · intro ⟨s, e, he, hp⟩
    obtain ⟨c, hc, -, -, hnot⟩ := (h.entries s e).mp he
    rw [hp] at hc hnot
    exact ⟨(h.cache p).mpr (by rw [hc]; simp), hnot⟩
  · intro ⟨hp, hnot⟩
    obtain ⟨c, hc⟩ := Option.ne_none_iff_exists'.mp ((h.cache p).mp hp)
    exact ⟨c.seqNum, ⟨p, c.cltv⟩, (h.entries _ _).mpr ⟨c, hc, rfl, rfl, hnot⟩, rfl⟩

/-- With every sequence number used once, nothing is overwritten. -/
theorem not_overwritten_of_nodup {calls : List PutCall} (h : (calls.map (·.seqNum)).Nodup)
    (p : HashPrefix) : ¬ Overwritten calls p := by
  intro ⟨before, d, after, c, hsplit, _, hc, hseq⟩
  rw [hsplit, List.map_append, List.map_cons] at h
  have hdisjoint := (List.nodup_append.mp h).2.2
  have hmem : c.seqNum ∈ before.map (·.seqNum) := List.mem_map_of_mem (hashPrefix_bringer hc).1
  exact hdisjoint _ hmem _ (List.mem_cons_self ..) hseq

end Batch

namespace MemoryReplayLog
open Batch

theorem mem_committedEntries (es : LogEntries) {b : Batch} (hb : b.Inv) {order : List UInt16}
    (ho : IterationOrder b.entries.keys order) (p : HashPrefix) :
    p ∈ committedEntries es b order ↔
      p ∈ es ∨ ∃ s e, b.entries.lookup s = some e ∧ e.hashPrefix = p := by
  have hext := extends_committedEntries es hb ho
  rw [← Finmap.lookup_isSome, ← Finmap.lookup_isSome]
  cases hl : es.lookup p with
  | some c => rw [hext.kept hl]; simp
  | none =>
    by_cases hin : ∃ s e, b.entries.lookup s = some e ∧ e.hashPrefix = p
    · obtain ⟨s, e, he, rfl⟩ := hin
      rw [hext.added he hl]
      simp only [Option.isSome_some, true_iff]
      exact .inr ⟨s, e, he, rfl⟩
    · rw [hext.only hl fun s e he heq => hin ⟨s, e, he, heq⟩]
      simp [hin]

theorem get_started_isOk (bs : LogBatches) (es : LogEntries) (p : HashPrefix) :
    (∃ cltv, (started bs es).get p = .ok cltv) ↔ p ∈ es := by
  rw [get_started, ← Finmap.lookup_isSome]
  cases es.lookup p <;> simp

section Filled
variable (bs : LogBatches) (es : LogEntries) (id : List UInt8) (calls : List PutCall)

/-- **Which prefixes a batch keeps.** Every call of `Put` on a new batch is accepted.
Once the batch is written, the log has every prefix that was passed exactly if it
already had those that were overwritten; and the batch's cache is the set of its
entries' prefixes exactly if none was. -/
theorem prefixes_kept_iff (hid : bs.lookup id = none) {order : List UInt16}
    (ho : IterationOrder (filled id calls).entries.keys order) :
    (∀ before d after, calls = before ++ d :: after →
      ((filled id before).put d.seqNum d.hashPrefix d.cltv).2 = none) ∧
    ((∀ c ∈ calls, ∃ cltv,
        ((started bs es).putBatch (filled id calls) order).1.get c.hashPrefix = .ok cltv) ↔
      ∀ p, Overwritten calls p → p ∈ es) ∧
    ((∀ p, p ∈ (filled id calls).replayCache ↔
        ∃ s e, (filled id calls).entries.lookup s = some e ∧ e.hashPrefix = p) ↔
      ∀ p, ¬ Overwritten calls p) := by
  have hholds := holds_filled id calls
  have hpassed : ∀ p, p ∈ (filled id calls).replayCache ↔ ∃ c ∈ calls, c.hashPrefix = p := by
    intro p
    rw [hholds.cache p, Ne, bringer_eq_none]
    simp
  have hcached : ∀ p, Overwritten calls p → p ∈ (filled id calls).replayCache := by
    intro p hover
    exact (hholds.cache p).mpr fun hnone => not_overwritten_of_bringer hnone hover
  refine ⟨fun before d after _ => put_open (filled_open id before) _ _ _, ?_, ?_⟩
  · rw [putBatch_new bs es ((filled_id id calls).symm ▸ hid)]
    simp only [get_started_isOk, mem_committedEntries es (inv_filled id calls) ho,
      hholds.mem_entries_iff]
    constructor
    · intro hall p hover
      obtain ⟨c, hc, rfl⟩ := (hpassed p).mp (hcached p hover)
      exact (hall c hc).resolve_right fun hheld => hheld.2 hover
    · intro hall c hc
      by_cases hover : Overwritten calls c.hashPrefix
      · exact .inl (hall _ hover)
      · exact .inr ⟨(hpassed _).mpr ⟨c, hc, rfl⟩, hover⟩
  · simp only [hholds.mem_entries_iff]
    constructor
    · intro hall p hover
      exact ((hall p).mp (hcached p hover)).2 hover
    · intro hnone p
      exact ⟨fun hp => ⟨hp, hnone p⟩, fun hp => hp.1⟩

end Filled

section Sample

def onesPrefix : HashPrefix := ⟨List.replicate 20 1, List.length_replicate⟩

def distinctCalls : List PutCall := [⟨0, zeroBytes 20, 7⟩, ⟨1, onesPrefix, 8⟩]

/-- Two prefixes under one sequence number. -/
def collidingCalls : List PutCall := [⟨0, zeroBytes 20, 7⟩, ⟨0, onesPrefix, 8⟩]

theorem keys_distinctCalls : (filled [] distinctCalls).entries.keys = {0, 1} := by
  decide +kernel

theorem distinctCalls_ordered : IterationOrder (filled [] distinctCalls).entries.keys [0, 1] :=
  ⟨by decide, fun k => by rw [keys_distinctCalls]; simp⟩

/-- Under two sequence numbers, both prefixes are written. -/
theorem distinctCalls_kept :
    (∃ cltv, ((started ∅ ∅).putBatch (filled [] distinctCalls) [0, 1]).1.get (zeroBytes 20) =
      .ok cltv) ∧
    ∃ cltv, ((started ∅ ∅).putBatch (filled [] distinctCalls) [0, 1]).1.get onesPrefix =
      .ok cltv := by
  obtain ⟨-, hkept, -⟩ :=
    prefixes_kept_iff ∅ ∅ [] distinctCalls (Finmap.lookup_empty _) distinctCalls_ordered
  have hall := hkept.mpr fun p hover => absurd hover (not_overwritten_of_nodup (by decide) p)
  exact ⟨hall ⟨0, zeroBytes 20, 7⟩ List.mem_cons_self,
    hall ⟨1, onesPrefix, 8⟩ (List.mem_cons_of_mem _ List.mem_cons_self)⟩

/-- Under one sequence number, the first is cached and never written. -/
theorem collidingCalls_lost : IterationOrder (filled [] collidingCalls).entries.keys [0] ∧
    zeroBytes 20 ∈ (filled [] collidingCalls).replayCache ∧
    ((started ∅ ∅).putBatch (filled [] collidingCalls) [0]).1.get (zeroBytes 20) =
      .error .errLogEntryNotFound := by
  have hkeys : (filled [] collidingCalls).entries.keys = {0} := by decide +kernel
  refine ⟨⟨List.nodup_singleton 0, fun k => ?_⟩, by decide +kernel, rfl⟩
  rw [hkeys, List.mem_singleton, Finset.mem_singleton]

end Sample

/-! ### The order of the range -/

section Order

theorem putBatch_ok (bs : LogBatches) (es : LogEntries) (b : Batch) (order : List UInt16) :
    ∃ replays, ((started bs es).putBatch b order).2.2 = .ok replays := by
  cases hid : bs.lookup b.id with
  | none => exact ⟨_, by rw [putBatch_new bs es hid]⟩
  | some replays => exact ⟨replays, by rw [putBatch_known bs es hid]⟩

/-- Distinct prefixes leave the order nothing to decide. -/
theorem putBatch_congr (rl : MemoryReplayLog) {b : Batch} (hb : b.Inv) {order order' : List UInt16}
    (ho : IterationOrder b.entries.keys order) (ho' : IterationOrder b.entries.keys order') :
    rl.putBatch b order = rl.putBatch b order' := by
  by_cases hrl : rl.Started
  · obtain ⟨bs, es, rfl⟩ := hrl
    cases hid : bs.lookup b.id with
    | some replays => rw [putBatch_known bs es hid, putBatch_known bs es hid]
    | none =>
      have hentries : committedEntries es b order = committedEntries es b order' :=
        (extends_committedEntries es hb ho).unique (extends_committedEntries es hb ho')
      have hreplays : committedReplays es b order = committedReplays es b order' :=
        ReplaySet.ext_contains fun s => by
          rw [contains_committedReplays es hb ho, contains_committedReplays es hb ho']
      rw [putBatch_new bs es hid, putBatch_new bs es hid, hentries, hreplays]
  · rw [putBatch_not_started rl hrl, putBatch_not_started rl hrl]

/-- What writing a batch to a started log gives: the batch is committed, with the result
recorded under its ID, and unless that was recorded before, its entries are in the log. -/
def Commits (bs : LogBatches) (es : LogEntries) (b : Batch)
    (out : MemoryReplayLog × Batch × Except Error ReplaySet) : Prop :=
  ∃ bs' es' replays,
    out = (started bs' es', {b with replaySet := replays, isCommitted := true}, .ok replays) ∧
    bs'.lookup b.id = some replays ∧
    ((bs.lookup b.id = some replays ∧ bs' = bs ∧ es' = es) ∨
      (bs.lookup b.id = none ∧ bs' = bs.insert b.id replays ∧ Extends b es es' ∧
        ∀ s, replays.contains s = true ↔
          b.replaySet.contains s = true ∨ ∃ e, b.entries.lookup s = some e ∧ e.hashPrefix ∈ es))

theorem putBatch_commits (bs : LogBatches) (es : LogEntries) {b : Batch} (hb : b.Inv)
    {order : List UInt16} (ho : IterationOrder b.entries.keys order) :
    Commits bs es b ((started bs es).putBatch b order) := by
  cases hid : bs.lookup b.id with
  | some replays => exact ⟨bs, es, replays, putBatch_known bs es hid order, hid, .inl ⟨hid, rfl, rfl⟩⟩
  | none =>
    exact ⟨_, _, _, putBatch_new bs es hid order, Finmap.lookup_insert _,
      .inr ⟨hid, rfl, extends_committedEntries es hb ho, contains_committedReplays es hb ho⟩⟩

/-- **Writing a batch is independent of the order and all or nothing.** A batch
filled by any calls has the same outcome in any two orders. It fails exactly on a log
that is not started, and then nothing has changed, so that trying again after `Start`
is trying for the first time; once the range has begun it does not fail. When it
succeeds, the batch is committed and recorded, and all its entries are in the log unless
its ID was recorded before. -/
theorem putBatch_order (rl : MemoryReplayLog) (id : List UInt8) (calls : List PutCall) {order order' : List UInt16}
    (ho : IterationOrder (filled id calls).entries.keys order)
    (ho' : IterationOrder (filled id calls).entries.keys order') :
    rl.putBatch (filled id calls) order = rl.putBatch (filled id calls) order' ∧
    ((∃ err, (rl.putBatch (filled id calls) order).2.2 = .error err) ↔
      rl.entries = none ∨ rl.batches = none) ∧
    (∀ err, (rl.putBatch (filled id calls) order).2.2 = .error err →
      rl.putBatch (filled id calls) order = (rl, filled id calls, .error .errReplayLogNotStarted) ∧
      (rl.putBatch (filled id calls) order).1.start.1.putBatch
        (rl.putBatch (filled id calls) order).2.1 order' =
        rl.start.1.putBatch (filled id calls) order') ∧
    (∀ bs es replays, rl = started bs es →
      ((filled id calls).forEach putEntry order (rl, replays)).2 = none) ∧
    ∀ bs es, rl = started bs es →
      Commits bs es (filled id calls) (rl.putBatch (filled id calls) order) := by
  have hfails : (∃ err, (rl.putBatch (filled id calls) order).2.2 = .error err) ↔ ¬ rl.Started := by
    constructor
    · intro ⟨err, herr⟩ ⟨bs, es, hrl⟩
      obtain ⟨replays, hok⟩ := putBatch_ok bs es (filled id calls) order
      rw [hrl, hok] at herr
      cases herr
    · intro hrl
      exact ⟨_, by rw [putBatch_not_started rl hrl]⟩
  refine ⟨putBatch_congr rl (inv_filled id calls) ho ho', hfails.trans (not_started_iff rl),
    fun err herr => ?_, fun bs es replays hrl => ?_, fun bs es hrl => ?_⟩
  · have hfailed := putBatch_not_started rl (hfails.mp ⟨err, herr⟩) (filled id calls) order
    rw [hfailed]
    exact ⟨rfl, rfl⟩
  · rw [hrl, forEach_putEntry]
  · rw [hrl]
    exact putBatch_commits bs es (inv_filled id calls) ho

/-- Two entries, written in both orders. -/
theorem distinctCalls_order : (started ∅ ∅).putBatch (filled [] distinctCalls) [0, 1] =
    (started ∅ ∅).putBatch (filled [] distinctCalls) [1, 0] := by
  have ho' : IterationOrder (filled [] distinctCalls).entries.keys [1, 0] :=
    ⟨by decide, fun k => by rw [keys_distinctCalls]; simp [or_comm]⟩
  exact (putBatch_order (started ∅ ∅) [] distinctCalls distinctCalls_ordered ho').1

end Order

end MemoryReplayLog

end LightningOnion
