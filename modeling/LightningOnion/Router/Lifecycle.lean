import LightningOnion.Router.AtMostOnce

/-! Replay protection over the life of a router.

The router's log is in memory: starting it empties it, stopping it drops it, and an
entry can be deleted. All of this may happen in between, while transactions are open.
A prefix can then be accepted more than once, but only after the log was started again
or the prefix deleted from it (`accepted_twice`); a stop alone accepts nothing. The IDs
of the transactions are new here as well. -/
namespace LightningOnion
open Lib

variable {P : Primitives}

/-- Opens the log. -/
def Router.start (_ : Router P) (log : MemoryReplayLog) : MemoryReplayLog × Option Error := log.start

/-- Closes it; an error is not passed on. -/
def Router.stop (_ : Router P) (log : MemoryReplayLog) : MemoryReplayLog := log.stop.1

inductive LifeOp where
  | node (op : NodeOp)
  | start
  | stop
  | delete (hash : HashPrefix)

inductive LifeStep (r : Router P) : Node P → LifeOp → Node P → Prop where
  | node {n n' : Node P} {op : NodeOp} (hstep : NodeStep r n op n') : LifeStep r n (.node op) n'
  | start (n : Node P) : LifeStep r n .start {n with log := (r.start n.log).1}
  | stop (n : Node P) : LifeStep r n .stop {n with log := r.stop n.log}
  | delete (n : Node P) (hash : HashPrefix) :
      LifeStep r n (.delete hash) {n with log := (n.log.delete hash).1}

def LifeOp.Begins (op : LifeOp) (id : List UInt8) : Prop := ∃ nop, op = .node nop ∧ nop.Begins id

/-- The operation accepts a packet with prefix `h`. -/
def LifeAccepts (r : Router P) (n : Node P) (op : LifeOp) (x : Option UInt16) (h : HashPrefix) : Prop :=
  ∃ nop, op = .node nop ∧ Accepts r n nop x h

/-! ### The invariant, started or not -/

/-- What `Node.Inv` says of the transactions, whether or not the log is started. -/
structure Node.Lives (n : Node P) : Prop where
  sound : ∀ (k : Nat) (o : NodeTx P), n.txs[k]? = some o → o.tx.batch.Open →
    o.Sound ∅ ∧ ¬n.log.HasBatch o.tx.batch.id
  ids : ∀ (j k : Nat) (o o' : NodeTx P), n.txs[j]? = some o → n.txs[k]? = some o' →
    o.tx.batch.id = o'.tx.batch.id → j = k

theorem Node.Inv.lives {n : Node P} (hn : n.Inv) : n.Lives := by
  obtain ⟨bs, es, hlog, hsound⟩ := hn.started
  refine ⟨fun k o hk ho => ?_, hn.ids⟩
  obtain ⟨hun, hinv, hlinked⟩ := hsound k o hk ho
  refine ⟨⟨Finmap.lookup_empty _, hinv, hlinked⟩, ?_⟩
  rw [hlog, MemoryReplayLog.hasBatch_started]
  exact Finmap.lookup_eq_none.mp hun

theorem Node.Lives.inv {n : Node P} (hn : n.Lives) (hstarted : n.log.Started) : n.Inv := by
  obtain ⟨bs, es, hlog⟩ := hstarted
  refine ⟨⟨bs, es, hlog, fun k o hk ho => ?_⟩, hn.ids⟩
  obtain ⟨⟨-, hinv, hlinked⟩, hno⟩ := hn.sound k o hk ho
  rw [hlog, MemoryReplayLog.hasBatch_started] at hno
  exact ⟨Finmap.lookup_eq_none.mpr hno, hinv, hlinked⟩

theorem Node.Lives.of_log {n : Node P} (hn : n.Lives) {log : MemoryReplayLog}
    (hlog : ∀ id, log.HasBatch id → n.log.HasBatch id) : ({n with log := log} : Node P).Lives :=
  ⟨fun k o hk ho => ⟨(hn.sound k o hk ho).1, fun hid => (hn.sound k o hk ho).2 (hlog _ hid)⟩, hn.ids⟩

theorem MemoryReplayLog.HasBatch.started {log : MemoryReplayLog} {id : List UInt8}
    (h : log.HasBatch id) : log.Started := by
  obtain ⟨bs, es, heq, -⟩ := h
  exact ⟨bs, es, heq⟩

theorem Tx.commit_not_started (t : Tx P) {log : MemoryReplayLog} (h : ¬log.Started)
    (order : List UInt16) : (t.commit log order).1 = log ∧ (t.commit log order).2.1 = t := by
  rw [Tx.commit, MemoryReplayLog.putBatch_not_started log h]
  split <;> exact ⟨rfl, rfl⟩

section Step
variable {r : Router P} {n n' : Node P}

theorem NodeStep.log_of_not_started {op : NodeOp} (hstep : NodeStep r n op n') (hnot : ¬n.log.Started) :
    n'.log = n.log := by
  rcases hstep.log_cases with heq | ⟨h, cltv, heq⟩ | ⟨o, order, -, heq⟩
  · exact heq
  · rw [heq, MemoryReplayLog.apply_not_started hnot (by simp)]
  · rw [heq, MemoryReplayLog.apply_not_started hnot (by simp)]

/-- Apart from the node's operations there are calls of the log, and none of them stores
a batch. -/
theorem LifeStep.log_cases {op : LifeOp} (hstep : LifeStep r n op n') :
    (∃ nop, op = .node nop ∧ NodeStep r n nop n') ∨
      ∃ lop, (∀ batch order, lop ≠ .putBatch batch order) ∧ n' = {n with log := n.log.apply lop} := by
  cases hstep with
  | node hstep => exact .inl ⟨_, rfl, hstep⟩
  | start => exact .inr ⟨.start, by simp, rfl⟩
  | stop => exact .inr ⟨.stop, by simp, rfl⟩
  | delete h => exact .inr ⟨.delete h, by simp, rfl⟩

theorem MemoryReplayLog.hasBatch_of_apply {log : MemoryReplayLog} {lop : LogOp}
    (hlop : ∀ batch order, lop ≠ .putBatch batch order) {id : List UInt8}
    (h : (log.apply lop).HasBatch id) : log.HasBatch id := by
  rcases hasBatch_apply h with hid | ⟨batch, order, heq, -⟩
  · exact hid
  · exact absurd heq (hlop batch order)

theorem LifeStep.knows {op : LifeOp} (hstep : LifeStep r n op n') {id : List UInt8}
    (hid : n'.Knows id) : n.Knows id ∨ op.Begins id := by
  rcases hstep.log_cases with ⟨nop, rfl, hs⟩ | ⟨lop, hlop, rfl⟩
  · exact (hs.knows hid).imp_right fun hb => ⟨nop, rfl, hb⟩
  · exact .inl (hid.imp_right (MemoryReplayLog.hasBatch_of_apply hlop))

theorem Node.Lives.step {op : NodeOp} (hn : n.Lives) (hstep : NodeStep r n op n') (hnew : op.New n) :
    n'.Lives := by
  by_cases hstarted : n.log.Started
  · exact ((hn.inv hstarted).step hstep hnew).lives
  · have hlog := hstep.log_of_not_started hstarted
    -- The transactions do what they would do next to an empty log.
    have hinv : ({n with log := .started ∅ ∅} : Node P).Inv := by
      refine (hn.of_log fun id hid => ?_).inv ⟨∅, ∅, rfl⟩
      exact absurd (MemoryReplayLog.hasBatch_started.mp hid) Finmap.notMem_empty
    have hnew' : op.New ({n with log := .started ∅ ∅} : Node P) := by
      intro id hop hknown
      refine hnew id hop (hknown.imp_right fun hid => ?_)
      exact absurd (MemoryReplayLog.hasBatch_started.mp hid) Finmap.notMem_empty
    have hback : ∀ txs, (⟨.started ∅ ∅, txs⟩ : Node P).Inv → (⟨n.log, txs⟩ : Node P).Lives := by
      intro txs htxs
      exact htxs.lives.of_log fun id hid => absurd hid.started hstarted
    cases hstep with
    | process pkt ad cltv =>
      have hsame : (r.processOnionPacket n.log pkt ad cltv).1 = n.log := hlog
      rw [hsame]
      exact hn
    | get => exact hn
    | beginTxn id nels => exact hback _ (hinv.step (r := r) (.beginTxn _ id nels) hnew')
    | txError hk ht => exact hback _ (hinv.step (r := r) (.txError hk ht) hnew')
    | txProcess hk ht hsecret => exact hback _ (hinv.step (r := r) (.txProcess hk ht hsecret) hnew')
    | @commit k order o hk ho =>
      obtain ⟨hsame, htx⟩ := o.tx.commit_not_started hstarted order
      obtain ⟨hlt, rfl⟩ := List.getElem?_eq_some_iff.mp hk
      rw [hsame, htx, List.set_getElem_self]
      exact hn

/-- Every operation keeps the invariant, a start and a stop included. -/
theorem Node.Lives.life {op : LifeOp} (hn : n.Lives) (hstep : LifeStep r n op n')
    (hnew : ∀ id, op.Begins id → ¬n.Knows id) : n'.Lives := by
  rcases hstep.log_cases with ⟨nop, rfl, hs⟩ | ⟨lop, hlop, rfl⟩
  · exact hn.step hs fun id hid => hnew id ⟨nop, rfl, hid⟩
  · exact hn.of_log fun id => MemoryReplayLog.hasBatch_of_apply hlop

theorem Accepts.started {op : NodeOp} {x : Option UInt16} {h : HashPrefix} (ha : Accepts r n op x h) :
    n.log.Started := by
  by_contra hnot
  cases ha with
  | @process pkt ad cltv secret packet hsecret hok =>
    cases he : r.examine pkt ad with
    | error err =>
      rw [Router.processOnionPacket_error he] at hok
      cases hok
    | ok found =>
      rw [Router.processOnionPacket_ok he, MemoryReplayLog.put_not_started _ hnot] at hok
      cases hok
  | commit hk hfirst hrs hs hcached =>
    rw [Tx.commit, if_neg (by rw [hfirst]; decide),
      MemoryReplayLog.putBatch_not_started _ hnot] at hrs
    cases hrs

/-! ### Acceptance -/

/-- The log holds the prefix, or is not started. -/
def Node.Guards (n : Node P) (h : HashPrefix) : Prop := n.Holds h ∨ ¬n.log.Started

/-- Nothing ends that but starting the log, or deleting the prefix. -/
theorem Node.Guards.life {op : LifeOp} {h : HashPrefix} (hg : n.Guards h) (hstep : LifeStep r n op n')
    (hop : op ≠ .start ∧ op ≠ .delete h) : n'.Guards h := by
  by_cases hstarted : n.log.Started
  · have hh : n.Holds h := hg.resolve_right (not_not_intro hstarted)
    obtain ⟨bs, es, hlog⟩ := hstarted
    cases hstep with
    | node hstep => exact .inl (hh.step hstep)
    | start => exact absurd rfl hop.1
    | stop =>
      refine .inr ?_
      rw [Router.stop, hlog, MemoryReplayLog.stop_started]
      exact MemoryReplayLog.not_started_new
    | delete h' =>
      obtain ⟨c, hget⟩ := hh
      have hne : h' ≠ h := fun heq => hop.2 (congrArg _ heq)
      exact .inl ⟨c, MemoryReplayLog.get_apply hget (.delete h') ⟨by simp, by simp, by simpa using hne⟩⟩
  · refine .inr ?_
    cases hstep with
    | node hstep => rwa [hstep.log_of_not_started hstarted]
    | start => exact absurd rfl hop.1
    | stop => rwa [Router.stop, MemoryReplayLog.stop_not_started _ hstarted]
    | delete h' => rwa [MemoryReplayLog.delete_not_started _ hstarted]

theorem Node.Lives.accepts {op : LifeOp} {x : Option UInt16} {h : HashPrefix} (hn : n.Lives)
    (hstep : LifeStep r n op n') (ha : LifeAccepts r n op x h) : ¬n.Guards h ∧ n'.Holds h := by
  obtain ⟨nop, rfl, ha⟩ := ha
  cases hstep with
  | node hstep =>
    obtain ⟨hnot, hheld⟩ := (hn.inv ha.started).accepts hstep ha
    exact ⟨fun hg => hg.elim hnot fun hno => hno ha.started, hheld⟩

theorem Node.Lives.accepts_unique {op : LifeOp} {x y : Option UInt16} {h : HashPrefix} (hn : n.Lives)
    (hstep : LifeStep r n op n') (hx : LifeAccepts r n op x h) (hy : LifeAccepts r n op y h) : x = y := by
  obtain ⟨nop, rfl, hx⟩ := hx
  obtain ⟨nop', heq, hy⟩ := hy
  cases heq
  cases hstep with
  | node hstep => exact (hn.inv hx.started).accepts_unique hstep hx hy

end Step

/-- **Accepted twice only after a start or a deletion.** In any run of a router whose log
is started and stopped and has entries deleted at any time, whatever transactions are
open, as long as their IDs differ from one another and from those recorded in the log at
the start of the run: between two operations that accept the same prefix the log was
started or the prefix deleted, and no operation accepts a prefix for two packets. -/
theorem accepted_twice (r : Router P) {node : Nat → Node P} {op : Nat → LifeOp} {m : Nat}
    (hrun : Run (LifeStep r) node op m) (h0 : (node 0).txs = [])
    (hids : Fresh LifeOp.Begins (node 0).log.HasBatch op m) {i j : Nat} {x y : Option UInt16}
    {h : HashPrefix} (hij : i ≤ j) (hj : j < m) (hx : LifeAccepts r (node i) (op i) x h)
    (hy : LifeAccepts r (node j) (op j) y h) :
    (i = j ∧ x = y) ∨ ∃ k, i < k ∧ k < j ∧ (op k = .start ∨ op k = .delete h) := by
  have hinit : (node 0).Lives := by
    refine ⟨fun k o hk => ?_, fun j k o o' hj => ?_⟩
    · rw [h0] at hk
      cases hk
    · rw [h0] at hj
      cases hj
  have hlearn : ∀ (n : Node P) a n' id, LifeStep r n a n' → n'.Knows id → n.Knows id ∨ a.Begins id :=
    fun _ _ _ _ hs => hs.knows
  have hstart : ∀ id, (node 0).Knows id → (node 0).log.HasBatch id := by
    rintro id (⟨o, ho, -⟩ | hbatch)
    · rw [h0] at ho
      cases ho
    · exact hbatch
  have hrun' : Run (fun n a n' => LifeStep r n a n' ∧ ∀ id, a.Begins id → ¬n.Knows id) node op m :=
    ⟨fun i hi => ⟨hrun.step_at i hi, fun id hid => hrun.unknown_at hlearn hstart hids hi hid⟩⟩
  have hlives : ∀ k, k ≤ m → (node k).Lives := fun k hk =>
    hrun'.invariant (fun _ _ _ hs hn => hn.life hs.1 hs.2) hinit hk
  rcases Nat.lt_or_eq_of_le hij with hlt | rfl
  · refine .inr ?_
    by_contra hnone
    have hafter : (node (i + 1)).Guards h :=
      .inl ((hlives i (by omega)).accepts (hrun.step_at i (by omega)) hx).2
    have hguards : (node j).Guards h := by
      refine hrun.keeps (K := fun n => n.Guards h) (A := fun a => a ≠ .start ∧ a ≠ .delete h)
        (fun _ _ _ ha hs hg => hg.life hs ha) (by omega) (fun k hik hkj => ?_) hafter j hlt (Nat.le_refl j)
      constructor
      · exact fun heq => hnone ⟨k, hik, hkj, .inl heq⟩
      · exact fun heq => hnone ⟨k, hik, hkj, .inr heq⟩
    exact ((hlives j (by omega)).accepts (hrun.step_at j hj) hy).1 hguards
  · exact .inl ⟨rfl, (hlives i (by omega)).accepts_unique (hrun.step_at i hj) hx hy⟩

/-- A router whose log is started before each of two packets. -/
def restartedOp (i : Nat) : LifeOp :=
  if i % 2 = 0 then .start else .node (.process Router.samplePacket [] 0)

def restartedNode : Nat → Node (samplePrimitives fun _ _ => sampleHash)
  | 0 => ⟨.new, []⟩
  | i + 1 =>
    if i % 2 = 0 then {restartedNode i with log := (Router.sample.start (restartedNode i).log).1}
    else {restartedNode i with
      log := (Router.sample.processOnionPacket (restartedNode i).log Router.samplePacket [] 0).1}

/-- It accepts the packet both times. -/
theorem restarted_accepted_twice : ∃ h,
    LifeAccepts Router.sample (restartedNode 1) (restartedOp 1) none h ∧
      LifeAccepts Router.sample (restartedNode 3) (restartedOp 3) none h ∧
      ∃ k, 1 < k ∧ k < 3 ∧ (restartedOp k = .start ∨ restartedOp k = .delete h) := by
  obtain ⟨h, packet, he⟩ := Router.sample_examine
  obtain ⟨secret, hsecret, -, rfl⟩ := Router.examine_eq_ok.mp he
  have hrun : Run (LifeStep Router.sample) restartedNode restartedOp 4 := by
    refine ⟨fun i _ => ?_⟩
    by_cases heven : i % 2 = 0
    · rw [restartedOp, restartedNode, if_pos heven, if_pos heven]
      exact .start _
    · rw [restartedOp, restartedNode, if_neg heven, if_neg heven]
      exact .node (.process _ _ _ _)
  have hok := congrArg Prod.snd (Router.processOnionPacket_fresh ∅ ∅ he 0 Finmap.notMem_empty)
  have hfirst : LifeAccepts Router.sample (restartedNode 1) (restartedOp 1) none _ :=
    ⟨_, rfl, .process hsecret hok⟩
  have hsecond : LifeAccepts Router.sample (restartedNode 3) (restartedOp 3) none _ :=
    ⟨_, rfl, .process hsecret hok⟩
  refine ⟨_, hfirst, hsecond, ?_⟩
  have hnone : ∀ i id, i < 4 → ¬(restartedOp i).Begins id := by
    rintro i id - ⟨nop, hop, nels, rfl⟩
    rw [restartedOp] at hop
    split at hop <;> cases hop
  rcases accepted_twice Router.sample hrun rfl (fresh_of_none hnone) (by decide) (by decide) hfirst
    hsecond with h | h
  · exact absurd h.1 (by decide)
  · exact h

end LightningOnion
