import LightningOnion.Lib.Trace
import LightningOnion.Router.Batching

/-! What a transaction makes of its calls.

With distinct sequence numbers a transaction does what processing one by one does.
Nothing keeps a caller from using a number again. Whatever the numbers, the transaction
is determined by the calls that passed the examination: under each number it caches the
packet of the last of them, but it keeps the entry of the last one whose prefix was new
to the batch, and reports a replay once any of them was not (`Reflects`). So the packet
returned under a number, the prefix written for it and the verdict on it may be those of
three different calls. -/
namespace LightningOnion
open Lib

variable {P : Primitives}

/-- A call that passed the examination, and what was found. -/
structure Examined where
  seqNum : UInt16
  hashPrefix : HashPrefix
  cltv : UInt32
  packet : ProcessedPacket

/-- What becomes of a call before the batch sees it. -/
def Call.examined (r : Router P) (c : Call) : Option Examined :=
  match r.examine c.onionPkt c.assocData with
  | .ok (hashPrefix, packet) => some ⟨c.seqNum, hashPrefix, c.incomingCltv, packet⟩
  | .error _ => none

/-- The error it is answered with. -/
def Call.error (r : Router P) (c : Call) : Option Error :=
  match r.examine c.onionPkt c.assocData with
  | .ok _ => none
  | .error err => some err

namespace Examined

/-- The prefix was passed before. -/
def seenIn (x : Examined) (earlier : List Examined) : Bool :=
  earlier.any fun y => decide (y.hashPrefix = x.hashPrefix)

/-- The last call under a number, newest calls first. -/
def lastAt (s : UInt16) : List Examined → Option Examined := latest fun x _ => x.seqNum == s

/-- The last one whose prefix was new. -/
def lastNew (s : UInt16) : List Examined → Option Examined :=
  latest fun x earlier => x.seqNum == s && !x.seenIn earlier

/-- The last one whose prefix was not. -/
def lastSeen (s : UInt16) : List Examined → Option Examined :=
  latest fun x earlier => x.seqNum == s && x.seenIn earlier

section Cons
variable (x : Examined) (history : List Examined) (s : UInt16)

theorem lastAt_cons :
    lastAt s (x :: history) = if x.seqNum = s then some x else lastAt s history := by
  simp only [lastAt, latest, beq_iff_eq]

theorem lastNew_cons : lastNew s (x :: history) =
    if x.seqNum = s ∧ x.seenIn history = false then some x else lastNew s history := by
  simp only [lastNew, latest, Bool.and_eq_true, beq_iff_eq, Bool.not_eq_true']

theorem lastSeen_cons : lastSeen s (x :: history) =
    if x.seqNum = s ∧ x.seenIn history = true then some x else lastSeen s history := by
  simp only [lastSeen, latest, Bool.and_eq_true, beq_iff_eq]

end Cons

end Examined

open Examined

/-! ### The batch -/

/-- The batch is what the examined calls, newest first, make it. -/
structure Batch.Reflects (b : Batch) (history : List Examined) : Prop where
  isOpen : b.Open
  inv : b.Inv
  cache : ∀ h, h ∈ b.replayCache ↔ ∃ x ∈ history, x.hashPrefix = h
  entry : ∀ s, b.entries.lookup s = (lastNew s history).map fun x => ⟨x.hashPrefix, x.cltv⟩
  replay : ∀ s, b.replaySet.contains s = (lastSeen s history).isSome

namespace Batch.Reflects

theorem new (id : List UInt8) : (Batch.new id).Reflects [] where
  isOpen := rfl
  inv := Batch.inv_new id
  cache := fun h => by simp [Batch.new]
  entry := fun _ => rfl
  replay := fun _ => rfl

variable {b : Batch} {history : List Examined} (hb : b.Reflects history) (x : Examined)
include hb

theorem seen_iff : x.seenIn history = true ↔ x.hashPrefix ∈ b.replayCache := by
  rw [hb.cache, seenIn, List.any_eq_true]
  simp only [decide_eq_true_eq]

theorem put_seen (hseen : x.seenIn history = true) :
    (b.put x.seqNum x.hashPrefix x.cltv).1.Reflects (x :: history) := by
  have hmem := (hb.seen_iff x).mp hseen
  have hput := Batch.put_cached hb.isOpen hmem x.seqNum x.cltv
  rw [hput]
  refine ⟨hb.isOpen, ⟨hb.inv.cached, hb.inv.distinct⟩, fun h => ?_, fun s => ?_, fun s => ?_⟩
  · rw [hb.cache h, List.exists_mem_cons_iff]
    constructor
    · exact Or.inr
    · rintro (rfl | hold)
      · exact (hb.cache _).mp hmem
      · exact hold
  · rw [lastNew_cons, hseen, if_neg fun h => Bool.noConfusion h.2]
    exact hb.entry s
  · rw [lastSeen_cons, ReplaySet.contains_add, hb.replay s]
    by_cases heq : x.seqNum = s
    · simp [heq, hseen]
    · simp [heq, Ne.symm heq]

theorem put_new (hseen : x.seenIn history = false) :
    (b.put x.seqNum x.hashPrefix x.cltv).1.Reflects (x :: history) := by
  have hmem : x.hashPrefix ∉ b.replayCache := fun h =>
    Bool.false_ne_true (hseen.symm.trans ((hb.seen_iff x).mpr h))
  have hinv := Batch.inv_put hb.inv x.seqNum x.hashPrefix x.cltv
  rw [Batch.put_fresh hb.isOpen hmem] at hinv ⊢
  refine ⟨hb.isOpen, hinv, fun h => ?_, fun s => ?_, fun s => ?_⟩
  · rw [Finset.mem_insert, List.exists_mem_cons_iff, hb.cache h]
    exact or_congr_left eq_comm
  · rw [lastNew_cons]
    by_cases heq : x.seqNum = s
    · subst heq
      rw [if_pos ⟨rfl, hseen⟩]
      exact Finmap.lookup_insert _
    · rw [if_neg fun h => heq h.1]
      exact (Finmap.lookup_insert_of_ne _ (Ne.symm heq)).trans (hb.entry s)
  · rw [lastSeen_cons, hseen, if_neg fun h => Bool.noConfusion h.2]
    exact hb.replay s

theorem put : (b.put x.seqNum x.hashPrefix x.cltv).1.Reflects (x :: history) := by
  cases hseen : x.seenIn history with
  | true => exact hb.put_seen x hseen
  | false => exact hb.put_new x hseen

end Batch.Reflects

/-! ### The transaction -/

/-- The transaction is what they make it: its batch, and the packets it caches. -/
structure Tx.Reflects (t : Tx P) (history : List Examined) : Prop where
  batch : t.batch.Reflects history
  packet : ∀ s : UInt16, s.toNat < t.packets.length →
    t.packets[s.toNat]? = some ((lastAt s history).elim .empty Examined.packet)

theorem Tx.reflects_beginTxn (r : Router P) (id : List UInt8) (nels : Nat) :
    (r.beginTxn id nels).Reflects [] where
  batch := .new id
  packet := fun s hs => by
    rw [Router.beginTxn, List.length_replicate] at hs
    exact List.getElem?_replicate_of_lt hs

theorem Tx.Reflects.record {t : Tx P} {history : List Examined} (ht : t.Reflects history)
    (x : Examined) : (t.record x.seqNum x.hashPrefix x.cltv x.packet).Reflects (x :: history) where
  batch := ht.batch.put x
  packet := fun s hs => by
    rw [Tx.record, List.length_set] at hs
    show (t.packets.set x.seqNum.toNat x.packet)[s.toNat]? = _
    rw [lastAt_cons]
    by_cases heq : x.seqNum = s
    · subst heq
      rw [if_pos rfl, List.getElem?_set_self hs]
      rfl
    · have hidx : x.seqNum.toNat ≠ s.toNat := fun h => heq (UInt16.toNat_inj.mp h)
      rw [if_neg heq, List.getElem?_set_ne hidx]
      exact ht.packet s hs

/-- The number of a call that passes the examination is one of the transaction's. -/
def Call.InRange (r : Router P) (nels : Nat) (c : Call) : Prop :=
  ∀ x, c.examined r = some x → c.seqNum.toNat < nels

/-- The examined ones among the calls, newest first. -/
def Router.history (r : Router P) (calls : List Call) : List Examined :=
  (calls.filterMap (Call.examined r)).reverse

section Run
variable {r : Router P} {t : Tx P}

theorem Tx.Reflects.call {past : List Examined} (ht : t.Reflects past) (hr : t.router = r) {c : Call}
    (hc : c.InRange r t.packets.length) :
    ∃ t', t.processOnionPacket c.seqNum c.onionPkt c.assocData c.incomingCltv =
        some (t', c.error r) ∧ t.Frame t' ∧ t'.Reflects ((c.examined r).toList ++ past) := by
  subst hr
  cases he : t.router.examine c.onionPkt c.assocData with
  | error err =>
    simp only [Call.error, Call.examined, he]
    exact ⟨t, Tx.processOnionPacket_error he _ _, ⟨rfl, rfl, rfl⟩, ht⟩
  | ok found =>
    obtain ⟨h, packet⟩ := found
    simp only [Call.InRange, Call.examined, he, Option.some.injEq, forall_eq'] at hc
    simp only [Call.error, Call.examined, he]
    exact ⟨_, Tx.processOnionPacket_open he _ _ ht.batch.isOpen hc, t.frame_record _ _ _ _,
      ht.record ⟨c.seqNum, h, c.incomingCltv, packet⟩⟩

/-- Calls in range, one after the other. -/
theorem Tx.Reflects.run {past : List Examined} (ht : t.Reflects past) (hr : t.router = r)
    {calls : List Call} (hcalls : ∀ c ∈ calls, c.InRange r t.packets.length) :
    ∃ t', t.processAll calls = some (t', calls.map (Call.error r)) ∧ t.Frame t' ∧
      t'.Reflects (r.history calls ++ past) := by
  induction calls generalizing t past with
  | nil => exact ⟨t, rfl, ⟨rfl, rfl, rfl⟩, ht⟩
  | cons c rest ih =>
    obtain ⟨t₁, hcall, hframe, ht₁⟩ := ht.call hr (hcalls c (List.mem_cons_self ..))
    obtain ⟨t₂, hrun, hframe', ht₂⟩ := ih ht₁ (hframe.router.trans hr) fun c' hc' => by
      rw [hframe.size]
      exact hcalls c' (List.mem_cons_of_mem c hc')
    refine ⟨t₂, ?_, hframe.trans hframe', ?_⟩
    · simp only [processAll, hcall, hrun, Option.map_some, List.map_cons]
    · have hhist : r.history (c :: rest) ++ past = r.history rest ++ ((c.examined r).toList ++ past) := by
        cases hx : c.examined r <;> simp [Router.history, hx]
      rwa [hhist]

/-- A call out of range panics, after whatever calls. -/
theorem Tx.Reflects.panics {past : List Examined} (ht : t.Reflects past) (hr : t.router = r)
    {calls : List Call} (hcalls : ¬∀ c ∈ calls, c.InRange r t.packets.length) :
    t.processAll calls = none := by
  induction calls generalizing t past with
  | nil => exact absurd (fun c hc => absurd hc List.not_mem_nil) hcalls
  | cons c rest ih =>
    by_cases hc : c.InRange r t.packets.length
    · obtain ⟨t₁, hcall, hframe, ht₁⟩ := ht.call hr hc
      have hrest : ¬∀ c' ∈ rest, c'.InRange r t₁.packets.length := by
        rw [hframe.size]
        exact fun h => hcalls (List.forall_mem_cons.mpr ⟨hc, h⟩)
      simp only [processAll, hcall, ih ht₁ (hframe.router.trans hr) hrest, Option.map_none]
    · subst hr
      simp only [Call.InRange, not_forall, Nat.not_lt] at hc
      obtain ⟨x, hx, hge⟩ := hc
      cases he : t.router.examine c.onionPkt c.assocData with
      | error err => simp [Call.examined, he] at hx
      | ok found =>
        obtain ⟨h, packet⟩ := found
        simp only [processAll, Tx.processOnionPacket_outOfRange he _ _ ht.batch.isOpen hge]

end Run

/-! ### The commit -/

/-- The log's new entries are those of the last new calls. -/
theorem Batch.Reflects.lookup_committed {b : Batch} {past : List Examined} (hb : b.Reflects past)
    {es es' : LogEntries} (hext : MemoryReplayLog.Extends b es es') {h : HashPrefix} (hh : h ∉ es)
    (c : UInt32) : es'.lookup h = some c ↔
      ∃ s x, lastNew s past = some x ∧ x.hashPrefix = h ∧ x.cltv = c := by
  have hnone := Finmap.lookup_eq_none.mpr hh
  have hadded : ∀ s x, lastNew s past = some x → x.hashPrefix = h → es'.lookup h = some x.cltv := by
    rintro s x hx rfl
    have he : b.entries.lookup s = some ⟨x.hashPrefix, x.cltv⟩ := by rw [hb.entry s, hx, Option.map_some]
    exact hext.added he hnone
  constructor
  · intro hl
    by_cases hin : ∃ s x, lastNew s past = some x ∧ x.hashPrefix = h
    · obtain ⟨s, x, hx, hprefix⟩ := hin
      rw [hadded s x hx hprefix] at hl
      exact ⟨s, x, hx, hprefix, Option.some.inj hl⟩
    · have hlost := hext.only hnone fun s e he heq => by
        rw [hb.entry s, Option.map_eq_some_iff] at he
        obtain ⟨x, hx, rfl⟩ := he
        exact hin ⟨s, x, hx, heq⟩
      rw [hl] at hlost
      cases hlost
  · rintro ⟨s, x, hx, hprefix, rfl⟩
    exact hadded s x hx hprefix

/-- **What a transaction comes to**, whatever the sequence numbers. A call that passes the
examination under a number out of range panics. Otherwise every call is answered as the
examination has it; and the commit of a new batch, in whatever order, returns under each
number the packet of the last call with it, reports the number if any of its prefixes was
a duplicate or the last new one was in the log, and writes these last new ones. -/
theorem txn_outcome (r : Router P) (id : List UInt8) (nels : Nat) (calls : List Call) :
    ((¬∀ c ∈ calls, c.InRange r nels) → (r.beginTxn id nels).processAll calls = none) ∧
    ((∀ c ∈ calls, c.InRange r nels) → ∃ t,
      (r.beginTxn id nels).processAll calls = some (t, calls.map (Call.error r)) ∧
      ∀ bs es order, bs.lookup id = none → IterationOrder t.batch.entries.keys order →
        ∃ bs' es' t' packets rs,
          t.commit (.started bs es) order = (.started bs' es', t', packets, .ok rs) ∧
          packets.length = nels ∧
          (∀ s : UInt16, s.toNat < nels → packets[s.toNat]? =
            some ((lastAt s (r.history calls)).elim .empty Examined.packet)) ∧
          (∀ s, rs.contains s = true ↔ (lastSeen s (r.history calls)).isSome ∨
            ∃ x, lastNew s (r.history calls) = some x ∧ x.hashPrefix ∈ es) ∧
          (∀ h c, es.lookup h = some c → es'.lookup h = some c) ∧
          ∀ h, h ∉ es → ∀ c, es'.lookup h = some c ↔
            ∃ s x, lastNew s (r.history calls) = some x ∧ x.hashPrefix = h ∧ x.cltv = c) := by
  have hsize : (r.beginTxn id nels).packets.length = nels := List.length_replicate
  have hbegin := Tx.reflects_beginTxn r id nels
  refine ⟨fun hout => hbegin.panics rfl (by rwa [hsize]), fun hin => ?_⟩
  have hcalls : ∀ c ∈ calls, c.InRange r (r.beginTxn id nels).packets.length := by rwa [hsize]
  obtain ⟨t, hrun, hframe, ht⟩ := hbegin.run rfl hcalls
  rw [List.append_nil] at ht
  refine ⟨t, hrun, fun bs es order hid horder => ?_⟩
  have hext := MemoryReplayLog.extends_committedEntries es ht.batch.inv horder
  have hlen : t.packets.length = nels := hframe.size.trans hsize
  refine ⟨_, _, _, _, _, Tx.commit_new bs es order ht.batch.isOpen (hframe.id ▸ hid), hlen,
    fun s hs => ht.packet s (by rwa [hlen]), fun s => ?_, fun h c => hext.kept,
    fun h hh c => ht.batch.lookup_committed hext hh c⟩
  rw [MemoryReplayLog.contains_committedReplays es ht.batch.inv horder, ht.batch.replay s,
    ht.batch.entry s]
  simp only [Option.map_eq_some_iff]
  refine or_congr_right ⟨?_, ?_⟩
  · rintro ⟨_, ⟨x, hx, rfl⟩, hmem⟩
    exact ⟨x, hx, hmem⟩
  · rintro ⟨x, hx, hmem⟩
    exact ⟨_, ⟨x, hx, rfl⟩, hmem⟩

/-- The same packet twice under one number. -/
def reusedCalls : List Call := [⟨0, Router.samplePacket, [], 7⟩, ⟨0, Router.samplePacket, [], 8⟩]

/-- The number is reported as a replay, though the log had not seen the prefix and takes
it from this very batch. -/
theorem reusedCalls_outcome : ∃ t bs' es' t' packets rs h,
    (Router.sample.beginTxn [1] 1).processAll reusedCalls = some (t, [none, none]) ∧
      t.commit (.started ∅ ∅) t.batch.entries.keys.toList = (.started bs' es', t', packets, .ok rs) ∧
      rs.contains 0 = true ∧ es'.lookup h = some 7 := by
  obtain ⟨h, packet, hexamine⟩ := Router.sample_examine
  have hhist : Router.sample.history reusedCalls = [⟨0, h, 8, packet⟩, ⟨0, h, 7, packet⟩] := by
    simp [Router.history, reusedCalls, Call.examined, hexamine]
  have herrs : reusedCalls.map (Call.error Router.sample) = [none, none] := by
    simp [reusedCalls, Call.error, hexamine]
  have hseen : ∀ x y : Examined, x.hashPrefix = y.hashPrefix → x.seenIn [y] = true := by
    intro x y hxy
    simp [seenIn, hxy]
  obtain ⟨t, hrun, hcommit⟩ := (txn_outcome Router.sample [1] 1 reusedCalls).2
    (by simp [reusedCalls, Call.InRange])
  obtain ⟨bs', es', t', packets, rs, hc, -, -, hrs, -, hnew⟩ := hcommit ∅ ∅ t.batch.entries.keys.toList
    rfl ⟨Finset.nodup_toList _, fun k => Finset.mem_toList⟩
  rw [herrs] at hrun
  refine ⟨t, bs', es', t', packets, rs, h, hrun, hc, (hrs 0).mpr (.inl ?_), (hnew h ?_ 7).mpr ?_⟩
  · rw [hhist, lastSeen_cons, if_pos ⟨rfl, hseen _ _ rfl⟩]
    rfl
  · exact Finmap.notMem_empty
  · refine ⟨0, ⟨0, h, 7, packet⟩, ?_, rfl, rfl⟩
    rw [hhist, lastNew_cons, if_neg fun hno => Bool.false_ne_true (hno.2.symm.trans (hseen _ _ rfl))]
    rfl

end LightningOnion
