import LightningOnion.Router.Tx

/-! Processing in a batch and one by one.

The same list of packets, processed in a transaction that is then committed, or one
by one. A transaction finds duplicates inside the batch at once and those against the
log only when it is committed, in whatever order the entries are ranged over; the
outcome is the same (`Linked` is what holds on the way). -/
namespace LightningOnion
open Lib

/-- The arguments of a call. -/
structure Call where
  seqNum : UInt16
  onionPkt : OnionPacket
  assocData : List UInt8
  incomingCltv : UInt32

variable {P : Primitives}

/-- The calls in order, on a transaction: what each returns. -/
def Tx.processAll (t : Tx P) : List Call → Option (Tx P × List (Option Error))
  | [] => some (t, [])
  | c :: rest =>
    match t.processOnionPacket c.seqNum c.onionPkt c.assocData c.incomingCltv with
    | none => none
    | some (t', err) => (t'.processAll rest).map fun (t'', errs) => (t'', err :: errs)

/-- The calls in order, without a transaction. -/
def Router.processAll (r : Router P) (log : MemoryReplayLog) :
    List Call → MemoryReplayLog × List (Except Error ProcessedPacket)
  | [] => (log, [])
  | c :: rest =>
    let (log', out) := r.processOnionPacket log c.onionPkt c.assocData c.incomingCltv
    let (log'', outs) := r.processAll log' rest
    (log'', out :: outs)

/-! ### The two on the way -/

/-- A transaction begun on a log with entries `es`, and the entries `es₁` that the same
calls leave one by one. -/
structure Linked (es : LogEntries) (t : Tx P) (es₁ : LogEntries) : Prop where
  isOpen : t.batch.Open
  inv : t.batch.Inv
  /-- What the batch has seen is among its entries. -/
  cached : ∀ h, h ∈ t.batch.replayCache → ∃ s e, t.batch.entries.lookup s = some e ∧ e.hashPrefix = h
  extends_eq : MemoryReplayLog.Extends t.batch es es₁

/-- The sequence number has not been used. -/
def Tx.Unused (t : Tx P) (s : UInt16) : Prop :=
  t.batch.entries.lookup s = none ∧ t.batch.replaySet.contains s = false

/-- What is recorded under `s` is the same in both. -/
structure Tx.SameAt (t t' : Tx P) (s : UInt16) : Prop where
  entry : t'.batch.entries.lookup s = t.batch.entries.lookup s
  replay : t'.batch.replaySet.contains s = t.batch.replaySet.contains s
  packet : t'.packets[s.toNat]? = t.packets[s.toNat]?

/-- The batch will report `s` as a replay when it is committed. -/
def Tx.WillReplay (t : Tx P) (es : LogEntries) (s : UInt16) : Prop :=
  t.batch.replaySet.contains s = true ∨
    ∃ e, t.batch.entries.lookup s = some e ∧ e.hashPrefix ∈ es

theorem Tx.Unused.of_same {t t' : Tx P} {s : UInt16} (h : t.Unused s) (hs : t.SameAt t' s) :
    t'.Unused s := ⟨hs.entry.trans h.1, hs.replay.trans h.2⟩

theorem not_willReplay {t : Tx P} {es : LogEntries} {s : UInt16} (h : t.Unused s) :
    ¬t.WillReplay es s := by
  intro hcase
  rcases hcase with hr | ⟨e, he, -⟩
  · exact Bool.false_ne_true (h.2.symm.trans hr)
  · cases h.1.symm.trans he

/-- The outcome of one call in both runs. -/
inductive Agree (r : Router P) (es : LogEntries) (t : Tx P) (c : Call) :
    Option Error → Except Error ProcessedPacket → Prop where
  | rejected {err : Error} (he : r.examine c.onionPkt c.assocData = .error err)
      (hno : t.Unused c.seqNum) : Agree r es t c (some err) (.error err)
  | replay {h : HashPrefix} {packet : ProcessedPacket}
      (he : r.examine c.onionPkt c.assocData = .ok (h, packet)) (hr : t.WillReplay es c.seqNum) :
      Agree r es t c none (.error .errReplayedPacket)
  | accepted {h : HashPrefix} {packet : ProcessedPacket}
      (he : r.examine c.onionPkt c.assocData = .ok (h, packet)) (hr : ¬t.WillReplay es c.seqNum)
      (hp : t.packets[c.seqNum.toNat]? = some packet) : Agree r es t c none (.ok packet)

/-- The outcome stands as long as nothing else is recorded under the number. -/
theorem Agree.of_same {r : Router P} {es : LogEntries} {t t' : Tx P} {c : Call} {err : Option Error}
    {out : Except Error ProcessedPacket} (h : Agree r es t c err out) (hs : t.SameAt t' c.seqNum) :
    Agree r es t' c err out := by
  cases h with
  | rejected he hno => exact .rejected he (hno.of_same hs)
  | replay he hr =>
    refine .replay he ?_
    rwa [Tx.WillReplay, hs.entry, hs.replay]
  | accepted he hr hp =>
    refine .accepted he ?_ (hs.packet.trans hp)
    rwa [Tx.WillReplay, hs.entry, hs.replay]

/-- What no call on a transaction changes. -/
structure Tx.Frame (t t' : Tx P) : Prop where
  router : t'.router = t.router
  id : t'.batch.id = t.batch.id
  size : t'.packets.length = t.packets.length

theorem Tx.Frame.trans {t t' t'' : Tx P} (h : t.Frame t') (h' : t'.Frame t'') : t.Frame t'' :=
  ⟨h'.router.trans h.router, h'.id.trans h.id, h'.size.trans h.size⟩

theorem Tx.SameAt.trans {t t' t'' : Tx P} {s : UInt16} (h : t.SameAt t' s) (h' : t'.SameAt t'' s) :
    t.SameAt t'' s :=
  ⟨h'.entry.trans h.entry, h'.replay.trans h.replay, h'.packet.trans h.packet⟩

namespace Linked
variable {es es₁ : LogEntries} {t : Tx P} (hl : Linked es t es₁)
include hl

/-- What the batch has seen, the log has too by now. -/
theorem mem_of_cached {h : HashPrefix} (hc : h ∈ t.batch.replayCache) : h ∈ es₁ := by
  obtain ⟨s, e, he, rfl⟩ := hl.cached h hc
  cases hold : es.lookup e.hashPrefix with
  | some c => exact Finmap.mem_of_lookup_eq_some (hl.extends_eq.kept hold)
  | none => exact Finmap.mem_of_lookup_eq_some (hl.extends_eq.added he hold)

theorem ne_of_not_cached {h : HashPrefix} (hc : h ∉ t.batch.replayCache) (s : UInt16) (e : BatchEntry)
    (he : t.batch.entries.lookup s = some e) : e.hashPrefix ≠ h :=
  fun heq => hc (heq ▸ hl.inv.cached he)

/-- What it has not seen is in the log only if it always was. -/
theorem mem_iff_of_not_cached {h : HashPrefix} (hc : h ∉ t.batch.replayCache) : h ∈ es₁ ↔ h ∈ es := by
  constructor
  · intro hm
    by_contra hno
    have hnone := hl.extends_eq.only (Finmap.lookup_eq_none.mpr hno) (hl.ne_of_not_cached hc)
    exact Finmap.lookup_eq_none.mp hnone hm
  · intro hm
    obtain ⟨c, hlookup⟩ := Finmap.mem_iff.mp hm
    exact Finmap.mem_of_lookup_eq_some (hl.extends_eq.kept hlookup)

theorem record_cached {h : HashPrefix} (hc : h ∈ t.batch.replayCache) (s : UInt16) (cltv : UInt32)
    (packet : ProcessedPacket) : Linked es (t.record s h cltv packet) es₁ := by
  rw [Tx.record, Batch.put_cached hl.isOpen hc]
  exact ⟨hl.isOpen, ⟨hl.inv.cached, hl.inv.distinct⟩, hl.cached,
    ⟨hl.extends_eq.kept, hl.extends_eq.added, hl.extends_eq.only⟩⟩

theorem record_fresh {h : HashPrefix} (hc : h ∉ t.batch.replayCache) {s : UInt16}
    (hs : t.batch.entries.lookup s = none) (cltv : UInt32) (packet : ProcessedPacket)
    {es₁' : LogEntries}
    (hes : (h ∈ es ∧ es₁' = es₁) ∨ (h ∉ es ∧ es₁' = es₁.insert h cltv)) :
    Linked es (t.record s h cltv packet) es₁' := by
  have hinv := Batch.inv_put hl.inv s h cltv
  have hentries : (t.record s h cltv packet).batch.entries = t.batch.entries.insert s ⟨h, cltv⟩ := by
    rw [Tx.record, Batch.put_fresh hl.isOpen hc]
  have hcache : (t.record s h cltv packet).batch.replayCache = insert h t.batch.replayCache := by
    rw [Tx.record, Batch.put_fresh hl.isOpen hc]
  have hold : ∀ {s' e}, t.batch.entries.lookup s' = some e →
      (t.record s h cltv packet).batch.entries.lookup s' = some e := by
    intro s' e he
    have hne : s' ≠ s := fun heq => by rw [heq, hs] at he; cases he
    rw [hentries, Finmap.lookup_insert_of_ne _ hne, he]
  have hself : (t.record s h cltv packet).batch.entries.lookup s = some ⟨h, cltv⟩ := by
    rw [hentries, Finmap.lookup_insert]
  refine ⟨?_, hinv, ?_, ?_⟩
  · have := (Batch.put_frame t.batch s h cltv).1
    exact this.trans hl.isOpen
  · intro h' hm
    rw [hcache, Finset.mem_insert] at hm
    rcases hm with rfl | hm
    · exact ⟨s, _, hself, rfl⟩
    · obtain ⟨s', e, he, heq⟩ := hl.cached h' hm
      exact ⟨s', e, hold he, heq⟩
  · -- The entries of the old batch, and the new one.
    have hcases : ∀ {s' e}, (t.record s h cltv packet).batch.entries.lookup s' = some e →
        e = ⟨h, cltv⟩ ∨ t.batch.entries.lookup s' = some e := by
      intro s' e he
      by_cases heq : s' = s
      · subst heq
        exact .inl (Option.some.inj (he.symm.trans hself))
      · rw [hentries, Finmap.lookup_insert_of_ne _ heq] at he
        exact .inr he
    rcases hes with ⟨hm, rfl⟩ | ⟨hm, rfl⟩
    · refine ⟨hl.extends_eq.kept, fun {s' e} he hnone => ?_, fun hnone hno => ?_⟩
      · rcases hcases he with rfl | he
        · exact absurd hm (Finmap.lookup_eq_none.mp hnone)
        · exact hl.extends_eq.added he hnone
      · exact hl.extends_eq.only hnone fun s' e he => hno s' e (hold he)
    · refine ⟨fun {h' c} hlookup => ?_, fun {s' e} he hnone => ?_, fun {h'} hnone hno => ?_⟩
      · have hne : h' ≠ h := fun heq => hm (heq ▸ Finmap.mem_of_lookup_eq_some hlookup)
        rw [Finmap.lookup_insert_of_ne _ hne]
        exact hl.extends_eq.kept hlookup
      · rcases hcases he with rfl | he
        · exact Finmap.lookup_insert _
        · rw [Finmap.lookup_insert_of_ne _ (hl.ne_of_not_cached hc s' e he)]
          exact hl.extends_eq.added he hnone
      · have hne : h' ≠ h := (hno s _ hself).symm
        rw [Finmap.lookup_insert_of_ne _ hne]
        exact hl.extends_eq.only hnone fun s' e he => hno s' e (hold he)

end Linked

theorem Tx.frame_record (t : Tx P) (s : UInt16) (h : HashPrefix) (cltv : UInt32)
    (packet : ProcessedPacket) : t.Frame (t.record s h cltv packet) :=
  ⟨rfl, (Batch.put_frame t.batch s h cltv).2, List.length_set⟩

theorem Tx.sameAt_record {t : Tx P} (ho : t.batch.Open) (s : UInt16) (h : HashPrefix) (cltv : UInt32)
    (packet : ProcessedPacket) {s' : UInt16} (hne : s' ≠ s) :
    t.SameAt (t.record s h cltv packet) s' := by
  have hidx : s.toNat ≠ s'.toNat := fun heq => hne (UInt16.toNat_inj.mp heq).symm
  by_cases hc : h ∈ t.batch.replayCache
  · rw [record, Batch.put_cached ho hc]
    exact ⟨rfl, by simp [hne], List.getElem?_set_ne hidx⟩
  · rw [record, Batch.put_fresh ho hc]
    exact ⟨Finmap.lookup_insert_of_ne _ hne, rfl, List.getElem?_set_ne hidx⟩

/-- **One call in both runs.** On linked states, with a number not used before: the
outcomes agree, the states stay linked, and nothing else changes. -/
theorem linked_step {r : Router P} {es es₁ : LogEntries} {t : Tx P} (hl : Linked es t es₁)
    (hrouter : t.router = r) (bs : LogBatches) (c : Call) (hlt : c.seqNum.toNat < t.packets.length)
    (hun : t.Unused c.seqNum) :
    ∃ t' err es₁' out,
      t.processOnionPacket c.seqNum c.onionPkt c.assocData c.incomingCltv = some (t', err) ∧
      r.processOnionPacket (.started bs es₁) c.onionPkt c.assocData c.incomingCltv =
        (.started bs es₁', out) ∧
      Linked es t' es₁' ∧ Agree r es t' c err out ∧ t.Frame t' ∧
      ∀ s, s ≠ c.seqNum → t.SameAt t' s := by
  subst hrouter
  cases he : t.router.examine c.onionPkt c.assocData with
  | error err =>
    exact ⟨t, some err, es₁, .error err, Tx.processOnionPacket_error he _ _,
      Router.processOnionPacket_error he _ _, hl, .rejected he hun, ⟨rfl, rfl, rfl⟩,
      fun s _ => ⟨rfl, rfl, rfl⟩⟩
  | ok found =>
    obtain ⟨h, packet⟩ := found
    have hframe := t.frame_record c.seqNum h c.incomingCltv packet
    have hsame : ∀ s, s ≠ c.seqNum → t.SameAt (t.record c.seqNum h c.incomingCltv packet) s :=
      fun s => Tx.sameAt_record hl.isOpen _ _ _ _
    have htx := Tx.processOnionPacket_open he c.seqNum c.incomingCltv hl.isOpen hlt
    by_cases hc : h ∈ t.batch.replayCache
    · -- A duplicate of an earlier call: marked at once, and in the log by now.
      have hmark : (t.record c.seqNum h c.incomingCltv packet).WillReplay es c.seqNum := by
        rw [Tx.record, Batch.put_cached hl.isOpen hc]
        exact .inl (by simp)
      exact ⟨_, none, es₁, _, htx,
        Router.processOnionPacket_replay bs es₁ he _ (hl.mem_of_cached hc), hl.record_cached hc _ _ _,
        .replay he hmark, hframe, hsame⟩
    · have hself : (t.record c.seqNum h c.incomingCltv packet).batch.entries.lookup c.seqNum =
          some ⟨h, c.incomingCltv⟩ := by
        rw [Tx.record, Batch.put_fresh hl.isOpen hc, Finmap.lookup_insert]
      have hmem := hl.mem_iff_of_not_cached hc
      by_cases hm : h ∈ es
      · -- A replay of what the log held before: found when the batch is committed.
        exact ⟨_, none, es₁, _, htx, Router.processOnionPacket_replay bs es₁ he _ (hmem.mpr hm),
          hl.record_fresh hc hun.1 _ _ (.inl ⟨hm, rfl⟩), .replay he (.inr ⟨_, hself, hm⟩), hframe,
          hsame⟩
      · have hclear : ¬(t.record c.seqNum h c.incomingCltv packet).WillReplay es c.seqNum := by
          intro hcase
          rcases hcase with hr | ⟨e, hlookup, hin⟩
          · rw [Tx.record, Batch.put_fresh hl.isOpen hc] at hr
            exact Bool.false_ne_true (hun.2.symm.trans hr)
          · rw [hself] at hlookup
            cases hlookup
            exact hm hin
        exact ⟨_, none, _, _, htx,
          Router.processOnionPacket_fresh bs es₁ he _ (fun h' => hm (hmem.mp h')),
          hl.record_fresh hc hun.1 _ _ (.inr ⟨hm, rfl⟩),
          .accepted he hclear (List.getElem?_set_self hlt), hframe, hsame⟩

/-- **All calls in both runs**, from linked states on. -/
theorem linked_run {r : Router P} {es : LogEntries} (bs : LogBatches) (calls : List Call)
    (hnd : (calls.map Call.seqNum).Nodup) {t : Tx P} {es₁ : LogEntries} (hl : Linked es t es₁)
    (hrouter : t.router = r) (hlt : ∀ c ∈ calls, c.seqNum.toNat < t.packets.length)
    (hun : ∀ c ∈ calls, t.Unused c.seqNum) :
    ∃ t' errs es₁' outs, t.processAll calls = some (t', errs) ∧
      r.processAll (.started bs es₁) calls = (.started bs es₁', outs) ∧
      Linked es t' es₁' ∧ t.Frame t' ∧
      (∀ s, s ∉ calls.map Call.seqNum → t.SameAt t' s) ∧
      ∀ (k : Nat) (c : Call), calls[k]? = some c →
        ∃ err out, errs[k]? = some err ∧ outs[k]? = some out ∧ Agree r es t' c err out := by
  induction calls generalizing t es₁ with
  | nil =>
    exact ⟨t, [], es₁, [], rfl, rfl, hl, ⟨rfl, rfl, rfl⟩, fun s _ => ⟨rfl, rfl, rfl⟩,
      fun k c hk => by simp at hk⟩
  | cons c rest ih =>
    obtain ⟨hnotin, hnd'⟩ := List.nodup_cons.mp hnd
    obtain ⟨t₁, err, es₂, out, htx, hone, hl₁, hagree, hframe, hsame⟩ :=
      linked_step hl hrouter bs c (hlt c (List.mem_cons_self ..)) (hun c (List.mem_cons_self ..))
    have hun' : ∀ c' ∈ rest, t₁.Unused c'.seqNum := by
      intro c' hc'
      have hne : c'.seqNum ≠ c.seqNum := fun heq => hnotin (heq ▸ List.mem_map_of_mem hc')
      exact (hun c' (List.mem_cons_of_mem c hc')).of_same (hsame _ hne)
    obtain ⟨t', errs, es', outs, htxs, hones, hl', hframe', hsame', hagree'⟩ :=
      ih hnd' hl₁ (hframe.router.trans hrouter)
        (fun c' hc' => hframe.size ▸ hlt c' (List.mem_cons_of_mem c hc')) hun'
    refine ⟨t', err :: errs, es', out :: outs, ?_, ?_, hl', hframe.trans hframe', fun s hs => ?_,
      fun k c' hk => ?_⟩
    · simp only [Tx.processAll, htx, htxs]
      rfl
    · simp only [Router.processAll, hone, hones]
    · rw [List.map_cons, List.mem_cons, not_or] at hs
      exact (hsame s hs.1).trans (hsame' s hs.2)
    · cases k with
      | zero =>
        obtain rfl : c = c' := Option.some.inj hk
        exact ⟨err, out, rfl, rfl, hagree.of_same (hsame' _ hnotin)⟩
      | succ k => exact hagree' k c' hk

/-! ### From the beginning to the commit -/

theorem linked_beginTxn (r : Router P) (id : List UInt8) (nels : Nat) (es : LogEntries) :
    Linked es (r.beginTxn id nels) es where
  isOpen := rfl
  inv := Batch.inv_new id
  cached := fun h hm => absurd hm (Finset.notMem_empty h)
  extends_eq := ⟨fun h => h, fun he => (by cases he), fun h _ => h⟩

theorem unused_beginTxn (r : Router P) (id : List UInt8) (nels : Nat) (s : UInt16) :
    (r.beginTxn id nels).Unused s := ⟨rfl, rfl⟩

theorem Linked.commit_eq {es es₁ : LogEntries} {t : Tx P} (hl : Linked es t es₁) {bs : LogBatches}
    (hid : bs.lookup t.batch.id = none) {order : List UInt16}
    (ho : IterationOrder t.batch.entries.keys order) :
    ∃ bs' t' rs, t.commit (.started bs es) order = (.started bs' es₁, t', t.packets, .ok rs) ∧
      ∀ s, rs.contains s = true ↔ t.WillReplay es s := by
  have hcommit := Tx.commit_new bs es order hl.isOpen hid
  rw [(MemoryReplayLog.extends_committedEntries es hl.inv ho).unique hl.extends_eq] at hcommit
  exact ⟨_, _, _, hcommit, MemoryReplayLog.contains_committedReplays es hl.inv ho⟩

/-- **Batched processing refines one-by-one processing.** For distinct sequence
numbers in range and a new batch ID, whatever order the entries are ranged over: a
call fails for its key or its MAC in both runs or in neither; the committed replays
are the calls refused as replays one by one; the packets of the others are the ones
returned one by one, and the reconstructed ones; and the logs end with the same
entries. -/
theorem batched_refines (r : Router P) (bs : LogBatches) (es : LogEntries) (id : List UInt8)
    (hid : bs.lookup id = none) (nels : Nat) (calls : List Call)
    (hnd : (calls.map Call.seqNum).Nodup) (hlt : ∀ c ∈ calls, c.seqNum.toNat < nels) :
    ∃ t errs es₁ outs, (r.beginTxn id nels).processAll calls = some (t, errs) ∧
      r.processAll (.started bs es) calls = (.started bs es₁, outs) ∧
      ∀ order, IterationOrder t.batch.entries.keys order →
        ∃ bs' t' rs, t.commit (.started bs es) order = (.started bs' es₁, t', t.packets, .ok rs) ∧
          (∀ s, rs.contains s = true ↔ ∃ (k : Nat) (c : Call), calls[k]? = some c ∧ c.seqNum = s ∧
            outs[k]? = some (.error .errReplayedPacket)) ∧
          ∀ (k : Nat) (c : Call), calls[k]? = some c →
            (∀ err, err = .errInvalidOnionKey ∨ err = .errInvalidOnionHMAC →
              (errs[k]? = some (some err) ↔ outs[k]? = some (.error err))) ∧
            (errs[k]? = some none → rs.contains c.seqNum = false →
              ∃ packet, t.packets[c.seqNum.toNat]? = some packet ∧ outs[k]? = some (.ok packet) ∧
                r.reconstructOnionPacket c.onionPkt c.assocData = .ok packet) := by
  obtain ⟨t, errs, es₁, outs, htx, hone, hl, hframe, hsame, hagree⟩ :=
    linked_run bs calls hnd (linked_beginTxn r id nels es) rfl
      (fun c hc => by rw [Router.beginTxn, List.length_replicate]; exact hlt c hc)
      (fun c _ => unused_beginTxn r id nels c.seqNum)
  refine ⟨t, errs, es₁, outs, htx, hone, fun order ho => ?_⟩
  obtain ⟨bs', t', rs, hcommit, hrs⟩ := hl.commit_eq (by rw [hframe.id]; exact hid) ho
  refine ⟨bs', t', rs, hcommit, fun s => ?_, fun k c hk => ?_⟩
  · rw [hrs s]
    constructor
    · intro hr
      by_cases hs : s ∈ calls.map Call.seqNum
      · obtain ⟨c, hc, rfl⟩ := List.mem_map.mp hs
        obtain ⟨k, hk⟩ := List.mem_iff_getElem?.mp hc
        obtain ⟨err, out, -, hout, ha⟩ := hagree k c hk
        cases ha with
        | rejected _ hno => exact absurd hr (not_willReplay hno)
        | replay => exact ⟨k, c, hk, rfl, hout⟩
        | accepted _ hno => exact absurd hr hno
      · have hun := (unused_beginTxn r id nels s).of_same (hsame s hs)
        exact absurd hr (not_willReplay hun)
    · intro hex
      obtain ⟨k, c, hk, rfl, hout⟩ := hex
      obtain ⟨err, out, -, hout', ha⟩ := hagree k c hk
      rw [hout] at hout'
      cases Option.some.inj hout'
      cases ha with
      | rejected he _ => rcases Router.examine_error he with h | h <;> cases h
      | replay _ hr => exact hr
  · obtain ⟨err, out, herr, hout, ha⟩ := hagree k c hk
    rw [herr, hout]
    cases ha with
    | rejected he hno =>
      refine ⟨fun err' _ => ?_, fun h => by cases h⟩
      rw [Option.some.injEq, Option.some.injEq, Option.some.injEq, Except.error.injEq]
    | replay he hr =>
      refine ⟨fun err' herr' => ?_, fun _ hno => ?_⟩
      · rcases herr' with rfl | rfl <;> simp
      · rw [(hrs _).mpr hr] at hno
        cases hno
    | accepted he hr hp =>
      exact ⟨fun err' _ => by simp, fun _ _ => ⟨_, hp, rfl, Router.reconstructOnionPacket_ok he⟩⟩

/-- The same packet twice. -/
def sampleCalls : List Call := [⟨0, Router.samplePacket, [], 7⟩, ⟨1, Router.samplePacket, [], 8⟩]

/-- In a batch and one by one, a packet and its replay leave the log with the same
entries. -/
theorem sampleCalls_refine : ∃ t errs es₁ outs bs' t' rs,
    (Router.sample.beginTxn [1] 2).processAll sampleCalls = some (t, errs) ∧
      Router.sample.processAll (.started ∅ ∅) sampleCalls = (.started ∅ es₁, outs) ∧
      t.commit (.started ∅ ∅) t.batch.entries.keys.toList =
        (.started bs' es₁, t', t.packets, .ok rs) := by
  obtain ⟨t, errs, es₁, outs, htx, hone, hcommit⟩ :=
    batched_refines Router.sample ∅ ∅ [1] rfl 2 sampleCalls (by decide) (by decide)
  obtain ⟨bs', t', rs, hc, -⟩ := hcommit t.batch.entries.keys.toList
    ⟨Finset.nodup_toList _, fun k => Finset.mem_toList⟩
  exact ⟨t, errs, es₁, outs, bs', t', rs, htx, hone, hc⟩

end LightningOnion
