import LightningOnion.Replay.Persistence
import LightningOnion.Router.Batching

/-! No packet counts twice.

A node runs one router: it processes packets directly and in transactions, any number
of them at once, and commits these when it likes. A packet counts when it is accepted:
returned by the router, or cached in a transaction whose first commit does not report
it as a replay. `accepted_at_most_once` says that over any run a hash prefix is accepted
at most once, and stays in the log from then on.

That needs the IDs of the transactions to be apart, from one another and from the
batches the log has when the run begins: a commit under a recorded ID gets the recorded
result and stores nothing (`recordedNode_accepts_twice`). -/
namespace LightningOnion
open Lib

variable {P : Primitives}

/-- A transaction the node has begun. `cached` is the prefix of the packet at each
sequence number; it is kept for the statement and read by no operation. -/
structure NodeTx (P : Primitives) where
  tx : Tx P
  cached : UInt16 → Option HashPrefix

structure Node (P : Primitives) where
  log : MemoryReplayLog
  txs : List (NodeTx P)

/-- An operation; a transaction is named by its position. -/
inductive NodeOp where
  | process (onionPkt : OnionPacket) (assocData : List UInt8) (incomingCltv : UInt32)
  | beginTxn (id : List UInt8) (nels : Nat)
  | txProcess (k : Nat) (call : Call)
  | commit (k : Nat) (order : List UInt16)
  | get (hash : HashPrefix)

/-- What an operation does to the node. The entries of a batch are ranged over in some
order. -/
inductive NodeStep (r : Router P) : Node P → NodeOp → Node P → Prop where
  | process (n : Node P) (onionPkt : OnionPacket) (assocData : List UInt8) (cltv : UInt32) :
      NodeStep r n (.process onionPkt assocData cltv)
        {n with log := (r.processOnionPacket n.log onionPkt assocData cltv).1}
  | beginTxn (n : Node P) (id : List UInt8) (nels : Nat) :
      NodeStep r n (.beginTxn id nels) {n with txs := n.txs ++ [⟨r.beginTxn id nels, fun _ => none⟩]}
  | txError {n : Node P} {k : Nat} {c : Call} {o : NodeTx P} {t' : Tx P} {err : Error}
      (hk : n.txs[k]? = some o)
      (ht : o.tx.processOnionPacket c.seqNum c.onionPkt c.assocData c.incomingCltv = some (t', some err)) :
      NodeStep r n (.txProcess k c) {n with txs := n.txs.set k ⟨t', o.cached⟩}
  | txProcess {n : Node P} {k : Nat} {c : Call} {o : NodeTx P} {t' : Tx P} {secret : Hash256}
      (hk : n.txs[k]? = some o)
      (ht : o.tx.processOnionPacket c.seqNum c.onionPkt c.assocData c.incomingCltv = some (t', none))
      (hsecret : o.tx.router.generateSharedSecret c.onionPkt.ephemeralKey = .ok secret) :
      NodeStep r n (.txProcess k c) {n with
        txs := n.txs.set k ⟨t', Function.update o.cached c.seqNum (some (hashSharedSecret P secret))⟩}
  | commit {n : Node P} {k : Nat} {order : List UInt16} {o : NodeTx P} (hk : n.txs[k]? = some o)
      (ho : IterationOrder o.tx.batch.entries.keys order) :
      NodeStep r n (.commit k order)
        ⟨(o.tx.commit n.log order).1, n.txs.set k ⟨(o.tx.commit n.log order).2.1, o.cached⟩⟩
  | get (n : Node P) (hash : HashPrefix) : NodeStep r n (.get hash) n

/-- The operation accepts a packet with prefix `h`: the router returns it, or the first
commit of its transaction does not report its sequence number. -/
inductive Accepts (r : Router P) (n : Node P) : NodeOp → Option UInt16 → HashPrefix → Prop where
  | process {onionPkt : OnionPacket} {assocData : List UInt8} {cltv : UInt32} {secret : Hash256}
      {packet : ProcessedPacket} (hsecret : r.generateSharedSecret onionPkt.ephemeralKey = .ok secret)
      (hok : (r.processOnionPacket n.log onionPkt assocData cltv).2 = .ok packet) :
      Accepts r n (.process onionPkt assocData cltv) none (hashSharedSecret P secret)
  | commit {k : Nat} {order : List UInt16} {o : NodeTx P} {rs : ReplaySet} {s : UInt16} {h : HashPrefix}
      (hk : n.txs[k]? = some o) (hfirst : o.tx.batch.isCommitted = false)
      (hrs : (o.tx.commit n.log order).2.2.2 = .ok rs) (hs : rs.contains s = false)
      (hcached : o.cached s = some h) : Accepts r n (.commit k order) (some s) h

/-! ### What an operation changes -/

theorem getElem?_set_cases {α : Type} {l : List α} {j k : Nat} {x y : α}
    (h : (l.set k x)[j]? = some y) : (j = k ∧ y = x) ∨ (j ≠ k ∧ l[j]? = some y) := by
  by_cases heq : j = k
  · subst heq
    rw [List.getElem?_set_self'] at h
    obtain ⟨_, _, rfl⟩ := Option.map_eq_some_iff.mp h
    exact .inl ⟨rfl, rfl⟩
  · rw [List.getElem?_set_ne (Ne.symm heq)] at h
    exact .inr ⟨heq, h⟩

theorem getElem?_concat_cases {α : Type} {l : List α} {j : Nat} {x y : α}
    (h : (l ++ [x])[j]? = some y) : l[j]? = some y ∨ (j = l.length ∧ y = x) := by
  by_cases hlt : j < l.length
  · rw [List.getElem?_append_left hlt] at h
    exact .inl h
  · rw [List.getElem?_append_right (by omega)] at h
    obtain ⟨hj, hy⟩ := List.getElem?_eq_some_iff.mp h
    rw [List.length_singleton] at hj
    exact .inr ⟨by omega, by simpa using hy.symm⟩

/-- Where a transaction comes from that the node has after an operation. -/
inductive NodeTx.Origin (r : Router P) (n : Node P) : NodeOp → NodeTx P → Prop where
  | kept {op : NodeOp} {k : Nat} {o : NodeTx P} (hk : n.txs[k]? = some o) : Origin r n op o
  | begun (id : List UInt8) (nels : Nat) :
      Origin r n (.beginTxn id nels) ⟨r.beginTxn id nels, fun _ => none⟩
  | recorded {k : Nat} {c : Call} {o : NodeTx P} {h : HashPrefix} {packet : ProcessedPacket}
      (hk : n.txs[k]? = some o) (he : o.tx.router.examine c.onionPkt c.assocData = .ok (h, packet))
      (hopen : o.tx.batch.Open) (hlt : c.seqNum.toNat < o.tx.packets.length) :
      Origin r n (.txProcess k c)
        ⟨o.tx.record c.seqNum h c.incomingCltv packet, Function.update o.cached c.seqNum (some h)⟩
  | committed {k : Nat} {order : List UInt16} {o : NodeTx P} (hk : n.txs[k]? = some o) :
      Origin r n (.commit k order) ⟨(o.tx.commit n.log order).2.1, o.cached⟩

theorem NodeStep.origin {r : Router P} {n n' : Node P} {op : NodeOp} (hstep : NodeStep r n op n')
    {j : Nat} {o' : NodeTx P} (hj : n'.txs[j]? = some o') : o'.Origin r n op := by
  cases hstep with
  | process => exact .kept hj
  | get => exact .kept hj
  | beginTxn id nels =>
    rcases getElem?_concat_cases hj with hj | ⟨-, rfl⟩
    · exact .kept hj
    · exact .begun id nels
  | txError hk ht =>
    rcases getElem?_set_cases hj with ⟨-, rfl⟩ | ⟨-, hj⟩
    · obtain ⟨rfl, -⟩ | ⟨_, _, _, _, _, _, hres⟩ := Tx.processOnionPacket_cases ht
      · exact .kept hk
      · cases hres
    · exact .kept hj
  | txProcess hk ht hsecret =>
    rcases getElem?_set_cases hj with ⟨-, rfl⟩ | ⟨-, hj⟩
    · obtain ⟨-, _, hres⟩ | ⟨h, packet, he, hopen, hlt, rfl, -⟩ := Tx.processOnionPacket_cases ht
      · cases hres
      · obtain ⟨secret', hsecret', -, rfl⟩ := Router.examine_eq_ok.mp he
        cases hsecret.symm.trans hsecret'
        exact .recorded hk he hopen hlt
    · exact .kept hj
  | commit hk ho =>
    rcases getElem?_set_cases hj with ⟨-, rfl⟩ | ⟨-, hj⟩
    · exact .committed hk
    · exact .kept hj

/-- An operation leaves the log alone, puts an entry in it, or stores the batch of a
transaction. -/
theorem NodeStep.log_cases {r : Router P} {n n' : Node P} {op : NodeOp} (hstep : NodeStep r n op n') :
    n'.log = n.log ∨ (∃ h cltv, n'.log = n.log.apply (.put h cltv)) ∨
      ∃ o order, o ∈ n.txs ∧ n'.log = n.log.apply (.putBatch o.tx.batch order) := by
  cases hstep with
  | process pkt ad cltv =>
    rcases r.processOnionPacket_log n.log pkt ad cltv with heq | ⟨h, heq⟩
    · exact .inl heq
    · exact .inr (.inl ⟨h, cltv, heq⟩)
  | @commit k order o hk ho =>
    by_cases hc : o.tx.batch.isCommitted = true
    · exact .inl (congrArg Prod.fst (Tx.commit_committed hc n.log order))
    · refine .inr (.inr ⟨o, order, List.mem_of_getElem? hk, ?_⟩)
      show (o.tx.commit n.log order).1 = _
      rw [Tx.commit, if_neg hc]
      rfl
  | beginTxn => exact .inl rfl
  | txError => exact .inl rfl
  | txProcess => exact .inl rfl
  | get => exact .inl rfl

/-! ### The IDs of transactions -/

def NodeOp.Begins (op : NodeOp) (id : List UInt8) : Prop := ∃ nels, op = .beginTxn id nels

/-- A transaction of the node has the ID, or a batch in its log. -/
def Node.Knows (n : Node P) (id : List UInt8) : Prop :=
  (∃ o ∈ n.txs, o.tx.batch.id = id) ∨ n.log.HasBatch id

/-- The ID of a transaction that the operation begins is new. -/
def NodeOp.New (n : Node P) (op : NodeOp) : Prop := ∀ id, op.Begins id → ¬n.Knows id

/-- Beginning a transaction is the only way an ID gets to the node. -/
theorem NodeStep.knows {r : Router P} {n n' : Node P} {op : NodeOp} (hstep : NodeStep r n op n')
    {id : List UInt8} (hid : n'.Knows id) : n.Knows id ∨ op.Begins id := by
  rcases hid with ⟨o', ho', rfl⟩ | hid
  · obtain ⟨j, hj⟩ := List.mem_iff_getElem?.mp ho'
    cases hstep.origin hj with
    | kept hk => exact .inl (.inl ⟨o', List.mem_of_getElem? hk, rfl⟩)
    | begun id nels => exact .inr ⟨nels, rfl⟩
    | @recorded _ c o h packet hk =>
      have hsame := (Tx.frame_record o.tx c.seqNum h c.incomingCltv packet).id
      exact .inl (.inl ⟨o, List.mem_of_getElem? hk, hsame.symm⟩)
    | @committed _ order o hk =>
      exact .inl (.inl ⟨o, List.mem_of_getElem? hk, (o.tx.commit_id n.log order).symm⟩)
  · refine .inl ?_
    rcases hstep.log_cases with heq | ⟨h, cltv, heq⟩ | ⟨o, order, ho, heq⟩
    · exact .inr (heq ▸ hid)
    · rcases MemoryReplayLog.hasBatch_apply (heq ▸ hid) with hid | ⟨_, _, hop, -⟩
      · exact .inr hid
      · cases hop
    · rcases MemoryReplayLog.hasBatch_apply (heq ▸ hid) with hid | ⟨_, _, hop, hsame⟩
      · exact .inr hid
      · cases hop
        exact .inl ⟨o, ho, hsame⟩

/-! ### The invariant -/

/-- What holds of a transaction as long as it is open: its batch is not in the log, and
a packet that is not marked as a replay has its prefix among the entries. -/
structure NodeTx.Sound (bs : LogBatches) (o : NodeTx P) : Prop where
  unrecorded : bs.lookup o.tx.batch.id = none
  inv : o.tx.batch.Inv
  linked : ∀ s h, o.cached s = some h → o.tx.batch.replaySet.contains s = true ∨
    ∃ e, o.tx.batch.entries.lookup s = some e ∧ e.hashPrefix = h

structure Node.Inv (n : Node P) : Prop where
  started : ∃ bs es, n.log = .started bs es ∧
    ∀ (k : Nat) (o : NodeTx P), n.txs[k]? = some o → o.tx.batch.Open → o.Sound bs
  ids : ∀ (j k : Nat) (o o' : NodeTx P), n.txs[j]? = some o → n.txs[k]? = some o' →
    o.tx.batch.id = o'.tx.batch.id → j = k

theorem Node.inv_started (bs : LogBatches) (es : LogEntries) :
    (⟨.started bs es, []⟩ : Node P).Inv :=
  ⟨⟨bs, es, rfl, fun k o hk => by cases hk⟩, fun j k o o' hj => by cases hj⟩

/-- A new packet in an open transaction: recorded as a replay or as an entry. -/
theorem NodeTx.Sound.record {bs : LogBatches} {o : NodeTx P} (hs : o.Sound bs) (ho : o.tx.batch.Open)
    (s : UInt16) (h : HashPrefix) (cltv : UInt32) (packet : ProcessedPacket) :
    NodeTx.Sound bs ⟨o.tx.record s h cltv packet, Function.update o.cached s (some h)⟩ := by
  refine ⟨?_, Batch.inv_put hs.inv s h cltv, fun s' h' hcached => ?_⟩
  · rw [(Tx.frame_record o.tx s h cltv packet).id]
    exact hs.unrecorded
  · have hbatch : (o.tx.record s h cltv packet).batch = (o.tx.batch.put s h cltv).1 := rfl
    rw [hbatch]
    by_cases heq : s' = s
    · subst heq
      obtain rfl : h = h' := by simpa using hcached
      by_cases hc : h ∈ o.tx.batch.replayCache
      · rw [Batch.put_cached ho hc]
        exact .inl (by simp)
      · rw [Batch.put_fresh ho hc]
        exact .inr ⟨_, Finmap.lookup_insert _, rfl⟩
    · -- Nothing under another number changes.
      have hsame := Tx.sameAt_record ho s h cltv packet heq
      have hold : o.cached s' = some h' := by simpa [heq] using hcached
      rw [← hbatch, hsame.entry, hsame.replay]
      exact hs.linked s' h' hold

theorem Node.Inv.ids_set {n : Node P} (hn : n.Inv) {k : Nat} {o o' : NodeTx P} (hk : n.txs[k]? = some o)
    (hid : o'.tx.batch.id = o.tx.batch.id) (i j : Nat) (oi oj : NodeTx P)
    (hi : (n.txs.set k o')[i]? = some oi) (hj : (n.txs.set k o')[j]? = some oj)
    (heq : oi.tx.batch.id = oj.tx.batch.id) : i = j := by
  rcases getElem?_set_cases hi with ⟨rfl, rfl⟩ | ⟨-, hi'⟩ <;>
    rcases getElem?_set_cases hj with ⟨rfl, rfl⟩ | ⟨-, hj'⟩
  · rfl
  · exact hn.ids _ _ _ _ hk hj' (hid.symm.trans heq)
  · exact hn.ids _ _ _ _ hi' hk (heq.trans hid)
  · exact hn.ids _ _ _ _ hi' hj' heq

/-- **Every operation keeps the invariant**, if it begins no transaction under a known ID. -/
theorem Node.Inv.step {r : Router P} {n n' : Node P} {op : NodeOp} (hn : n.Inv)
    (hstep : NodeStep r n op n') (hnew : op.New n) : n'.Inv := by
  obtain ⟨bs, es, hlog, hsound⟩ := hn.started
  cases hstep with
  | process pkt ad cltv =>
    refine ⟨?_, hn.ids⟩
    rcases r.processOnionPacket_log n.log pkt ad cltv with heq | ⟨h, heq⟩
    · exact ⟨bs, es, heq.trans hlog, hsound⟩
    · obtain ⟨es', hput⟩ := MemoryReplayLog.put_started bs es h cltv
      exact ⟨bs, es', heq.trans (hlog ▸ hput), hsound⟩
  | beginTxn id nels =>
    have hunknown : ¬n.Knows id := hnew id ⟨nels, rfl⟩
    refine ⟨⟨bs, es, hlog, fun k o hk ho => ?_⟩, fun i j oi oj hi hj heq => ?_⟩
    · rcases getElem?_concat_cases hk with hk | ⟨-, rfl⟩
      · exact hsound k o hk ho
      · refine ⟨Finmap.lookup_eq_none.mpr fun hmem => ?_, Batch.inv_new id, fun s h hc => by cases hc⟩
        exact hunknown (.inr (hlog ▸ MemoryReplayLog.hasBatch_started.mpr hmem))
    · rcases getElem?_concat_cases hi with hi' | ⟨hi', rfl⟩ <;>
        rcases getElem?_concat_cases hj with hj' | ⟨hj', rfl⟩
      · exact hn.ids i j oi oj hi' hj' heq
      · exact absurd (.inl ⟨oi, List.mem_of_getElem? hi', heq⟩) hunknown
      · exact absurd (.inl ⟨oj, List.mem_of_getElem? hj', heq.symm⟩) hunknown
      · rw [hi', hj']
  | @txError k c o t' err hk ht =>
    obtain ⟨rfl, -⟩ | ⟨_, _, _, _, _, _, hres⟩ := Tx.processOnionPacket_cases ht
    · refine ⟨⟨bs, es, hlog, fun j o' hj hopen => ?_⟩, hn.ids_set hk rfl⟩
      rcases getElem?_set_cases hj with ⟨-, rfl⟩ | ⟨-, hj⟩
      · exact hsound k o hk hopen
      · exact hsound j o' hj hopen
    · cases hres
  | @txProcess k c o t' secret hk ht hsecret =>
    obtain ⟨-, _, hres⟩ | ⟨h, packet, he, hopen, -, rfl, -⟩ := Tx.processOnionPacket_cases ht
    · cases hres
    · obtain ⟨secret', hsecret', -, rfl⟩ := Router.examine_eq_ok.mp he
      cases hsecret.symm.trans hsecret'
      refine ⟨⟨bs, es, hlog, fun j o' hj hopen' => ?_⟩,
        hn.ids_set hk (Tx.frame_record o.tx c.seqNum _ c.incomingCltv packet).id⟩
      rcases getElem?_set_cases hj with ⟨-, rfl⟩ | ⟨-, hj⟩
      · exact (hsound k o hk hopen).record hopen _ _ _ _
      · exact hsound j o' hj hopen'
  | @commit k order o hk ho =>
    rcases o.tx.batch.committed_or_open with hc | hopen
    · -- Nothing happens.
      rw [Tx.commit_committed hc]
      refine ⟨⟨bs, es, hlog, fun j o' hj hopen => ?_⟩, hn.ids_set hk rfl⟩
      rcases getElem?_set_cases hj with ⟨-, rfl⟩ | ⟨-, hj⟩
      · exact hsound k o hk hopen
      · exact hsound j o' hj hopen
    · rw [hlog, Tx.commit_new bs es order hopen (hsound k o hk hopen).unrecorded]
      refine ⟨⟨_, _, rfl, fun j o' hj hopen' => ?_⟩, hn.ids_set hk rfl⟩
      rcases getElem?_set_cases hj with ⟨-, rfl⟩ | ⟨hne, hj⟩
      · cases hopen'
      · -- The ID recorded now is not this transaction's.
        obtain ⟨hun, hinv, hlinked⟩ := hsound j o' hj hopen'
        have hid : o'.tx.batch.id ≠ o.tx.batch.id := fun heq => hne (hn.ids j k o' o hj hk heq)
        exact ⟨(Finmap.lookup_insert_of_ne _ hid).trans hun, hinv, hlinked⟩
  | get => exact hn

/-! ### Acceptance -/

/-- The log holds the prefix. -/
def Node.Holds (n : Node P) (h : HashPrefix) : Prop := ∃ c, n.log.get h = .ok c

theorem Node.holds_iff {n : Node P} {bs : LogBatches} {es : LogEntries} (hlog : n.log = .started bs es)
    (h : HashPrefix) : n.Holds h ↔ h ∈ es := by
  constructor
  · intro hex
    obtain ⟨c, hget⟩ := hex
    obtain ⟨bs', es', heq, hl⟩ := MemoryReplayLog.get_eq_ok.mp hget
    cases hlog.symm.trans heq
    exact Finmap.mem_of_lookup_eq_some hl
  · intro hm
    obtain ⟨c, hl⟩ := Finmap.mem_iff.mp hm
    exact ⟨c, MemoryReplayLog.get_eq_ok.mpr ⟨bs, es, hlog, hl⟩⟩

/-- No operation of a node takes an entry out of the log. -/
theorem Node.Holds.step {r : Router P} {n n' : Node P} {op : NodeOp} {h : HashPrefix} (hh : n.Holds h)
    (hstep : NodeStep r n op n') : n'.Holds h := by
  obtain ⟨c, hget⟩ := hh
  refine ⟨c, ?_⟩
  rcases hstep.log_cases with heq | ⟨h', cltv, heq⟩ | ⟨o, order, -, heq⟩
  · rw [heq]
    exact hget
  · rw [heq]
    exact MemoryReplayLog.get_apply hget _ (by simp)
  · rw [heq]
    exact MemoryReplayLog.get_apply hget _ (by simp)

/-- A packet the first commit accepts is an entry of the batch, with a prefix that was
not in the log. -/
theorem entry_of_accepted {bs : LogBatches} {es : LogEntries} {o : NodeTx P} (hs : o.Sound bs)
    (ho : o.tx.batch.Open) {order : List UInt16} (hord : IterationOrder o.tx.batch.entries.keys order)
    {rs : ReplaySet} (hrs : (o.tx.commit (.started bs es) order).2.2.2 = .ok rs) {s : UInt16}
    (hno : rs.contains s = false) {h : HashPrefix} (hcached : o.cached s = some h) :
    ∃ e, o.tx.batch.entries.lookup s = some e ∧ e.hashPrefix = h ∧ h ∉ es := by
  rw [Tx.commit_new bs es order ho hs.unrecorded] at hrs
  cases hrs
  have hnot : ¬(o.tx.batch.replaySet.contains s = true ∨
      ∃ e, o.tx.batch.entries.lookup s = some e ∧ e.hashPrefix ∈ es) := by
    rw [← MemoryReplayLog.contains_committedReplays es hs.inv hord s, hno]
    exact Bool.false_ne_true
  rcases hs.linked s h hcached with hr | ⟨e, he, rfl⟩
  · exact absurd (.inl hr) hnot
  · exact ⟨e, he, rfl, fun hm => hnot (.inr ⟨e, he, hm⟩)⟩

/-- **An accepted prefix was not in the log, and now it is.** -/
theorem Node.Inv.accepts {r : Router P} {n n' : Node P} {op : NodeOp} {x : Option UInt16}
    {h : HashPrefix} (hn : n.Inv) (hstep : NodeStep r n op n') (ha : Accepts r n op x h) :
    ¬n.Holds h ∧ n'.Holds h := by
  obtain ⟨bs, es, hlog, hsound⟩ := hn.started
  rw [Node.holds_iff hlog]
  cases ha with
  | @process pkt ad cltv secret packet hsecret hok =>
    cases hstep
    cases he : r.examine pkt ad with
    | error err =>
      rw [Router.processOnionPacket_error he] at hok
      cases hok
    | ok found =>
      obtain ⟨secret', hsecret', -, hpre⟩ := Router.examine_eq_ok.mp he
      cases hsecret.symm.trans hsecret'
      by_cases hm : hashSharedSecret P secret ∈ es
      · rw [hlog, Router.processOnionPacket_replay bs es he cltv (hpre ▸ hm)] at hok
        cases hok
      · refine ⟨hm, ?_⟩
        have hfresh := Router.processOnionPacket_fresh bs es he cltv (hpre ▸ hm)
        rw [Node.holds_iff (show _ = MemoryReplayLog.started bs _ from by rw [hlog, hfresh]), hpre]
        exact Finmap.mem_insert.mpr (.inl rfl)
  | @commit k order o rs s _ hk hfirst hrs hs hcached =>
    cases hstep with
    | @commit _ _ o' hk' hord =>
      cases hk.symm.trans hk'
      rw [hlog] at hrs
      obtain ⟨e, he, rfl, hnot⟩ := entry_of_accepted (hsound k o hk hfirst) hfirst hord hrs hs hcached
      refine ⟨hnot, ?_⟩
      have hnew := Tx.commit_new bs es order hfirst (hsound k o hk hfirst).unrecorded
      have hadded := (MemoryReplayLog.extends_committedEntries es (hsound k o hk hfirst).inv hord).added
        he (Finmap.lookup_eq_none.mpr hnot)
      rw [← hlog] at hnew
      exact ⟨e.cltv, MemoryReplayLog.get_eq_ok.mpr ⟨_, _, congrArg Prod.fst hnew, hadded⟩⟩

/-- One operation accepts a prefix for one packet only. -/
theorem Node.Inv.accepts_unique {r : Router P} {n n' : Node P} {op : NodeOp} {x y : Option UInt16}
    {h : HashPrefix} (hn : n.Inv) (hstep : NodeStep r n op n') (hx : Accepts r n op x h)
    (hy : Accepts r n op y h) : x = y := by
  obtain ⟨bs, es, hlog, hsound⟩ := hn.started
  cases hx with
  | @process pkt ad cltv =>
    have hnone : ∀ {h'}, Accepts r n (.process pkt ad cltv) y h' → y = none := by
      rintro h' ⟨⟩
      rfl
    exact (hnone hy).symm
  | @commit k order o rs s _ hk hfirst hrs hs hcached =>
    cases hstep with
    | @commit _ _ o₁ hk₁ hord =>
      cases hk.symm.trans hk₁
      cases hy with
      | @commit _ _ o₂ rs₂ s₂ _ hk₂ hfirst₂ hrs₂ hs₂ hcached₂ =>
        cases hk.symm.trans hk₂
        have hso := hsound k o hk hfirst
        rw [hlog] at hrs hrs₂
        obtain ⟨e, he, heq, -⟩ := entry_of_accepted hso hfirst hord hrs hs hcached
        obtain ⟨e₂, he₂, heq₂, -⟩ := entry_of_accepted hso hfirst hord hrs₂ hs₂ hcached₂
        rw [hso.inv.distinct he he₂ (heq.trans heq₂.symm)]

/-! ### Whole runs -/

/-- A step that begins no transaction under a known ID. -/
def NewStep (r : Router P) (n : Node P) (op : NodeOp) (n' : Node P) : Prop :=
  NodeStep r n op n' ∧ op.New n

/-- Acceptance finds a prefix out of the log, and leaves it in there. -/
theorem accepts_marks (r : Router P) :
    Marks (NewStep r) Node.Inv Node.Holds fun n op h => ∃ x, Accepts r n op x h where
  inv _ _ _ hs hn := hn.step hs.1 hs.2
  stay _ _ _ _ _ hs hh := hh.step hs.1
  event _ _ _ _ hn hs := fun ⟨_, ha⟩ => hn.accepts hs.1 ha

section Run
variable {r : Router P} {node : Nat → Node P} {op : Nat → NodeOp} {m : Nat}
  (hrun : Run (NodeStep r) node op m) {bs : LogBatches} {es : LogEntries}
  (h0 : node 0 = ⟨.started bs es, []⟩) (hids : Fresh NodeOp.Begins (· ∈ bs) op m)
include hrun h0 hids

/-- IDs that are apart from one another, and from those of the log at the start, are new
when they are used. -/
theorem newStep_of_run : Run (NewStep r) node op m := by
  have hlearn : ∀ (n : Node P) a n' id, NodeStep r n a n' → n'.Knows id → n.Knows id ∨ a.Begins id :=
    fun _ _ _ _ hs => hs.knows
  have hstart : ∀ id, (node 0).Knows id → id ∈ bs := by
    rw [h0]
    rintro id (⟨o, ho, -⟩ | hbatch)
    · cases ho
    · exact MemoryReplayLog.hasBatch_started.mp hbatch
  exact ⟨fun i hi => ⟨hrun.step_at i hi, fun id hid => hrun.unknown_at hlearn hstart hids hi hid⟩⟩

theorem inv_of_run {k : Nat} (hk : k ≤ m) : (node k).Inv :=
  (newStep_of_run hrun h0 hids).invariant (accepts_marks r).inv (h0 ▸ Node.inv_started bs es) hk

theorem accepts_once {i j : Nat} {x y : Option UInt16} {h : HashPrefix} (hi : i < m) (hj : j < m)
    (hx : Accepts r (node i) (op i) x h) (hy : Accepts r (node j) (op j) y h) : i = j ∧ x = y := by
  obtain rfl := (newStep_of_run hrun h0 hids).once (accepts_marks r) (h0 ▸ Node.inv_started bs es) hi hj
    ⟨x, hx⟩ ⟨y, hy⟩
  exact ⟨rfl, (inv_of_run hrun h0 hids (Nat.le_of_lt hi)).accepts_unique (hrun.step_at i hi) hx hy⟩

theorem holds_after_accepts {i : Nat} {x : Option UInt16} {h : HashPrefix} (hi : i < m)
    (hx : Accepts r (node i) (op i) x h) {k : Nat} (hik : i < k) (hk : k ≤ m) : (node k).Holds h :=
  (newStep_of_run hrun h0 hids).marked (accepts_marks r) (h0 ▸ Node.inv_started bs es) hi ⟨x, hx⟩ k hik hk

end Run

/-! ### A run to try it on -/

/-- A packet in a transaction, its commit, and the packet again. -/
def sampleOp : Nat → NodeOp
  | 0 => .beginTxn [1] 1
  | 1 => .txProcess 0 ⟨0, Router.samplePacket, [], 7⟩
  | 2 => .commit 0 [0]
  | _ => .process Router.samplePacket [] 8

section Sample
variable (log : MemoryReplayLog) (h : HashPrefix) (packet : ProcessedPacket)

/-- The transaction with the packet, which has prefix `h`. -/
def sampleTx : NodeTx (samplePrimitives fun _ _ => sampleHash) :=
  ⟨(Router.sample.beginTxn [1] 1).record 0 h 7 packet, Function.update (fun _ => none) 0 (some h)⟩

/-- The node, from a log on. -/
def sampleNode : Nat → Node (samplePrimitives fun _ _ => sampleHash)
  | 0 => ⟨log, []⟩
  | 1 => ⟨log, [⟨Router.sample.beginTxn [1] 1, fun _ => none⟩]⟩
  | 2 => ⟨log, [sampleTx h packet]⟩
  | 3 =>
    let done := (sampleTx h packet).tx.commit log [0]
    ⟨done.1, [⟨done.2.1, (sampleTx h packet).cached⟩]⟩
  | i + 4 =>
    {sampleNode (i + 3) with
      log := (Router.sample.processOnionPacket (sampleNode (i + 3)).log Router.samplePacket [] 8).1}

theorem sampleTx_batch : (sampleTx h packet).tx.batch =
    {Batch.new [1] with entries := Finmap.insert 0 ⟨h, 7⟩ ∅, replayCache := insert h ∅} :=
  congrArg Prod.fst (Batch.put_fresh (b := .new [1]) rfl (Finset.notMem_empty h) 0 7)

theorem sampleTx_open : (sampleTx h packet).tx.batch.Open := by
  rw [sampleTx_batch]
  rfl

theorem sampleTx_order : IterationOrder (sampleTx h packet).tx.batch.entries.keys [0] := by
  refine ⟨List.nodup_singleton 0, fun s => ?_⟩
  rw [sampleTx_batch, Finmap.mem_keys, Finmap.mem_insert, List.mem_singleton,
    or_iff_left Finmap.notMem_empty]

variable {h packet}

theorem sampleNode_run (he : Router.sample.examine Router.samplePacket [] = .ok (h, packet)) :
    Run (NodeStep Router.sample) (sampleNode log h packet) sampleOp 4 := by
  have hrecord : (Router.sample.beginTxn [1] 1).processOnionPacket 0 Router.samplePacket [] 7 =
      some ((sampleTx h packet).tx, none) :=
    Tx.processOnionPacket_open (t := Router.sample.beginTxn [1] 1) he 0 7 rfl Nat.one_pos
  obtain ⟨secret, hsecret, -, hpre⟩ := Router.examine_eq_ok.mp he
  refine ⟨fun i hi => ?_⟩
  match i with
  | 0 => exact .beginTxn _ [1] 1
  | 1 =>
    have hstep := NodeStep.txProcess (r := Router.sample) (n := sampleNode log h packet 1) (k := 0)
      (c := ⟨0, Router.samplePacket, [], 7⟩) rfl hrecord hsecret
    rw [hpre] at hstep
    exact hstep
  | 2 => exact .commit (o := sampleTx _ packet) rfl (sampleTx_order _ packet)
  | 3 => exact .process _ _ _ _

theorem sampleNode_accepts {rs : ReplaySet} (hrs : ((sampleTx h packet).tx.commit log [0]).2.2.2 = .ok rs)
    (hno : rs.contains 0 = false) :
    Accepts Router.sample (sampleNode log h packet 2) (sampleOp 2) (some 0) h :=
  .commit (o := sampleTx h packet) rfl (sampleTx_open h packet) hrs hno rfl

end Sample

theorem sampleOp_ids {known : List UInt8 → Prop} (hknown : ¬known [1]) :
    Fresh NodeOp.Begins known sampleOp 4 := by
  have honce : ∀ {i id}, (sampleOp i).Begins id → i = 0 ∧ id = [1] := by
    rintro (_ | _ | _ | i) id ⟨nels, hop⟩ <;> cases hop
    exact ⟨rfl, rfl⟩
  refine ⟨fun i j id hij _ _ hj => ?_, fun i id _ hi => ?_⟩
  · obtain ⟨rfl, -⟩ := honce hj
    exact absurd hij (Nat.not_lt_zero i)
  · obtain ⟨-, rfl⟩ := honce hi
    exact hknown

theorem sampleNode_commit_new (h : HashPrefix) (packet : ProcessedPacket) :
    Accepts Router.sample (sampleNode (.started ∅ ∅) h packet 2) (sampleOp 2) (some 0) h := by
  have hcommit := Tx.commit_new ∅ ∅ [0] (sampleTx_open h packet) (Finmap.lookup_empty _)
  refine sampleNode_accepts _ (congrArg (·.2.2.2) hcommit) ?_
  have hinv : (sampleTx h packet).tx.batch.Inv := Batch.inv_put (Batch.inv_new [1]) 0 h 7
  rw [Bool.eq_false_iff, ne_eq, MemoryReplayLog.contains_committedReplays ∅ hinv (sampleTx_order h packet)]
  rintro (hr | ⟨e, -, hm⟩)
  · rw [sampleTx_batch] at hr
    cases hr
  · exact Finmap.notMem_empty hm

/-- **At-most-once acceptance.** In any run of a node with a started log, whatever its
length and its interleaving, where the IDs of the transactions differ from one another
and from those recorded in the log at the start: every prefix is accepted at most once,
by one operation and for one packet, and every accepted prefix is in the log from then
on. -/
theorem accepted_at_most_once (r : Router P) {node : Nat → Node P} {op : Nat → NodeOp} {m : Nat}
    (hrun : Run (NodeStep r) node op m) {bs : LogBatches} {es : LogEntries}
    (h0 : node 0 = ⟨.started bs es, []⟩) (hids : Fresh NodeOp.Begins (· ∈ bs) op m) :
    (∀ i j x y h, i < m → j < m → Accepts r (node i) (op i) x h → Accepts r (node j) (op j) y h →
        i = j ∧ x = y) ∧
      ∀ i x h, i < m → Accepts r (node i) (op i) x h →
        ∀ k, i < k → k ≤ m → ∃ c, (node k).log.get h = .ok c :=
  ⟨fun _ _ _ _ _ hi hj hx hy => accepts_once hrun h0 hids hi hj hx hy,
    fun _ _ _ hi hx _ hik hk => holds_after_accepts hrun h0 hids hi hx hik hk⟩

/-- The packet is accepted by the commit, and not when it comes again. -/
theorem sampleNode_replay : ∃ h packet,
    Run (NodeStep Router.sample) (sampleNode (.started ∅ ∅) h packet) sampleOp 4 ∧
      Accepts Router.sample (sampleNode (.started ∅ ∅) h packet 2) (.commit 0 [0]) (some 0) h ∧
      ¬∃ x, Accepts Router.sample (sampleNode (.started ∅ ∅) h packet 3)
        (.process Router.samplePacket [] 8) x h := by
  obtain ⟨h, packet, he⟩ := Router.sample_examine
  have hrun := sampleNode_run (.started ∅ ∅) he
  have hfirst := sampleNode_commit_new h packet
  refine ⟨h, packet, hrun, hfirst, fun ⟨x, ha⟩ => ?_⟩
  have honce := (accepted_at_most_once Router.sample hrun rfl (sampleOp_ids Finmap.notMem_empty)).1
  exact absurd (honce 2 3 (some 0) x h (by decide) (by decide) hfirst ha).1 (by decide)

/-- An empty set recorded under the ID of the run. -/
def recordedBatches : LogBatches := Finmap.insert [1] .new ∅

/-- **Distinct IDs are not enough.** The same run, from a log with its ID recorded: the
commit accepts the packet and the log does not get its prefix, and the packet is accepted
again. -/
theorem recordedNode_accepts_twice : ∃ h packet,
    let node := sampleNode (.started recordedBatches ∅) h packet
    Run (NodeStep Router.sample) node sampleOp 4 ∧ node 0 = ⟨.started recordedBatches ∅, []⟩ ∧
      Fresh NodeOp.Begins (fun _ => False) sampleOp 4 ∧
      Accepts Router.sample (node 2) (.commit 0 [0]) (some 0) h ∧
      (node 3).log.get h = .error .errLogEntryNotFound ∧
      Accepts Router.sample (node 3) (.process Router.samplePacket [] 8) none h := by
  obtain ⟨h, packet, he⟩ := Router.sample_examine
  obtain ⟨secret, hsecret, -, hpre⟩ := Router.examine_eq_ok.mp he
  have hknown : recordedBatches.lookup (sampleTx h packet).tx.batch.id = some .new := by
    rw [sampleTx_batch]
    exact Finmap.lookup_insert _
  have hcommit := Tx.commit_known recordedBatches ∅ [0] (sampleTx_open h packet) hknown
  have hlog : (sampleNode (.started recordedBatches ∅) h packet 3).log = .started recordedBatches ∅ :=
    congrArg Prod.fst hcommit
  refine ⟨h, packet, sampleNode_run _ he, rfl, sampleOp_ids id,
    sampleNode_accepts _ (congrArg (·.2.2.2) hcommit) rfl, ?_, ?_⟩
  · rw [hlog, MemoryReplayLog.get_started]
    rfl
  · have hfresh := Router.processOnionPacket_fresh recordedBatches ∅ he 8 Finmap.notMem_empty
    rw [← hlog] at hfresh
    subst hpre
    exact .process hsecret (congrArg Prod.snd hfresh)

end LightningOnion
