import LightningOnion.Replay.Filling
import LightningOnion.Router.AtMostOnce

/-! What is recorded was handed over.

That a prefix is accepted at most once lets it be recorded without its packet ever being
accepted. With repeated sequence numbers that happens: a packet of a batch is recorded,
and reported as a replay because of another one under its number. In a run where every
transaction uses each number once it does not: the log holds the prefixes it began with
and those accepted since, each of them once (`recorded_exactly_once`).

A packet handed over, by the router or by a commit, is what the router made of a packet
it was given; `NodeTx.Caches` follows it through the transaction. -/
namespace LightningOnion
open Lib

variable {P : Primitives}

/-- The operation caches no packet over another one of its transaction. -/
def NodeOp.FreshIn (n : Node P) : NodeOp → Prop
  | .txProcess k c => ∀ o, n.txs[k]? = some o → o.cached c.seqNum = none
  | _ => True

/-- The packet the operation is given. -/
def NodeOp.given : NodeOp → Option (OnionPacket × List UInt8)
  | .process onionPkt assocData _ => some (onionPkt, assocData)
  | .txProcess _ c => some (c.onionPkt, c.assocData)
  | _ => none

/-- The operation hands over a packet it accepts: the router returns it, or the first
commit of its transaction returns it under a number that is not reported. -/
inductive Yields (r : Router P) (n : Node P) :
    NodeOp → Option UInt16 → HashPrefix → ProcessedPacket → Prop where
  | process {onionPkt : OnionPacket} {assocData : List UInt8} {cltv : UInt32} {secret : Hash256}
      {packet : ProcessedPacket} (hsecret : r.generateSharedSecret onionPkt.ephemeralKey = .ok secret)
      (hok : (r.processOnionPacket n.log onionPkt assocData cltv).2 = .ok packet) :
      Yields r n (.process onionPkt assocData cltv) none (hashSharedSecret P secret) packet
  | commit {k : Nat} {order : List UInt16} {o : NodeTx P} {rs : ReplaySet} {s : UInt16} {h : HashPrefix}
      {packet : ProcessedPacket} (hk : n.txs[k]? = some o) (hfirst : o.tx.batch.isCommitted = false)
      (hrs : (o.tx.commit n.log order).2.2.2 = .ok rs) (hs : rs.contains s = false)
      (hcached : o.cached s = some h)
      (hpacket : (o.tx.commit n.log order).2.2.1[s.toNat]? = some packet) :
      Yields r n (.commit k order) (some s) h packet

theorem Yields.accepts {r : Router P} {n : Node P} {op : NodeOp} {x : Option UInt16} {h : HashPrefix}
    {packet : ProcessedPacket} (hy : Yields r n op x h packet) : Accepts r n op x h := by
  cases hy with
  | process hsecret hok => exact .process hsecret hok
  | commit hk hfirst hrs hs hcached _ => exact .commit hk hfirst hrs hs hcached

theorem Yields.unique {r : Router P} {n : Node P} {op : NodeOp} {x : Option UInt16} {h h' : HashPrefix}
    {packet packet' : ProcessedPacket} (hy : Yields r n op x h packet)
    (hy' : Yields r n op x h' packet') : packet = packet' := by
  cases hy with
  | process _ hok =>
    cases hy' with
    | process _ hok' => exact Except.ok.inj (hok.symm.trans hok')
  | commit hk _ _ _ _ hpacket =>
    cases hy' with
    | commit hk' _ _ _ _ hpacket' =>
      cases hk.symm.trans hk'
      exact Option.some.inj (hpacket.symm.trans hpacket')

/-! ### The packets of a transaction -/

/-- The transaction is the router's, and every packet cached in it satisfies `Q`. -/
structure NodeTx.Caches (r : Router P) (Q : HashPrefix → ProcessedPacket → Prop) (o : NodeTx P) :
    Prop where
  router : o.tx.router = r
  packet : ∀ s h, o.cached s = some h → ∃ packet, o.tx.packets[s.toNat]? = some packet ∧ Q h packet

theorem NodeTx.Caches.mono {r : Router P} {Q Q' : HashPrefix → ProcessedPacket → Prop} {o : NodeTx P}
    (ho : o.Caches r Q) (hQ : ∀ h packet, Q h packet → Q' h packet) : o.Caches r Q' := by
  refine ⟨ho.router, fun s h hs => ?_⟩
  obtain ⟨packet, hp, hq⟩ := ho.packet s h hs
  exact ⟨packet, hp, hQ h packet hq⟩

theorem NodeTx.Caches.record {r : Router P} {Q : HashPrefix → ProcessedPacket → Prop} {o : NodeTx P}
    (ho : o.Caches r Q) {s : UInt16} {h : HashPrefix} {packet : ProcessedPacket} (hq : Q h packet)
    (hlt : s.toNat < o.tx.packets.length) (cltv : UInt32) :
    NodeTx.Caches r Q ⟨o.tx.record s h cltv packet, Function.update o.cached s (some h)⟩ := by
  refine ⟨ho.router, fun s' h' hcached => ?_⟩
  by_cases heq : s' = s
  · subst heq
    obtain rfl : h = h' := by simpa using hcached
    exact ⟨packet, List.getElem?_set_self hlt, hq⟩
  · have hold : o.cached s' = some h' := by simpa [heq] using hcached
    obtain ⟨packet', hp, hq'⟩ := ho.packet s' h' hold
    have hidx : s.toNat ≠ s'.toNat := fun h => heq (UInt16.toNat_inj.mp h).symm
    exact ⟨packet', (List.getElem?_set_ne hidx).trans hp, hq'⟩

section Caches
variable {r : Router P} {n n' : Node P} {op : NodeOp} {Q : HashPrefix → ProcessedPacket → Prop}
  (hn : ∀ (k : Nat) (o : NodeTx P), n.txs[k]? = some o → o.Caches r Q)
  (hgiven : ∀ onionPkt assocData h packet, op.given = some (onionPkt, assocData) →
    r.examine onionPkt assocData = .ok (h, packet) → Q h packet)
include hn hgiven

/-- Every operation keeps it, if it holds of the packet the operation is given. -/
theorem NodeStep.caches (hstep : NodeStep r n op n') :
    ∀ (k : Nat) (o : NodeTx P), n'.txs[k]? = some o → o.Caches r Q := by
  intro j o' hj
  cases hstep.origin hj with
  | kept hk => exact hn _ o' hk
  | begun => exact ⟨rfl, fun s h hs => by cases hs⟩
  | recorded hk he _ hlt =>
    rw [(hn _ _ hk).router] at he
    exact (hn _ _ hk).record (hgiven _ _ _ _ rfl he) hlt _
  | @committed k order o hk =>
    obtain ⟨-, hpackets, hrouter⟩ := o.tx.commit_packets n.log order
    refine ⟨hrouter.trans (hn k o hk).router, fun s h hs => ?_⟩
    rw [hpackets]
    exact (hn k o hk).packet s h hs

/-- And it holds of the packet an operation hands over. -/
theorem Yields.satisfies {x : Option UInt16} {h : HashPrefix} {packet : ProcessedPacket}
    (hy : Yields r n op x h packet) : Q h packet := by
  cases hy with
  | @process onionPkt assocData cltv secret _ hsecret hok =>
    cases he : r.examine onionPkt assocData with
    | error err =>
      rw [Router.processOnionPacket_error he] at hok
      cases hok
    | ok found =>
      obtain ⟨h, packet'⟩ := found
      obtain ⟨secret', hsecret', -, rfl⟩ := Router.examine_eq_ok.mp he
      cases hsecret.symm.trans hsecret'
      have hsame : packet' = packet := by
        rw [Router.processOnionPacket_ok he] at hok
        rcases hput : n.log.put (hashSharedSecret P secret) cltv with ⟨log', _ | err⟩ <;>
          rw [hput] at hok <;> cases hok
        rfl
      exact hgiven _ _ _ _ rfl (hsame ▸ he)
  | @commit k order o rs s _ _ hk hfirst hrs hs hcached hpacket =>
    obtain ⟨packet', hp, hq⟩ := (hn k o hk).packet s h hcached
    rw [(o.tx.commit_packets n.log order).1, hp] at hpacket
    cases hpacket
    exact hq

omit hgiven in
theorem Accepts.yields {x : Option UInt16} {h : HashPrefix} (ha : Accepts r n op x h) :
    ∃ packet, Yields r n op x h packet := by
  cases ha with
  | @process _ _ _ _ packet hsecret hok => exact ⟨packet, .process hsecret hok⟩
  | @commit k order o rs s _ hk hfirst hrs hs hcached =>
    obtain ⟨packet, hp, -⟩ := (hn k o hk).packet s h hcached
    exact ⟨packet, .commit hk hfirst hrs hs hcached
      ((congrArg (·[s.toNat]?) (o.tx.commit_packets n.log order).1).trans hp)⟩

end Caches

/-! ### Nothing is recorded that is not accepted -/

/-- The entries and the replays of a transaction whose numbers were used once. -/
structure NodeTx.Exact (o : NodeTx P) : Prop where
  entry : ∀ s e, o.tx.batch.entries.lookup s = some e →
    o.cached s = some e.hashPrefix ∧ o.tx.batch.replaySet.contains s = false
  replay : ∀ s, o.tx.batch.replaySet.contains s = true → o.cached s ≠ none

theorem NodeTx.Exact.record {o : NodeTx P} (ho : o.Exact) (hopen : o.tx.batch.Open) {s : UInt16}
    (hfresh : o.cached s = none) (h : HashPrefix) (cltv : UInt32) (packet : ProcessedPacket) :
    NodeTx.Exact ⟨o.tx.record s h cltv packet, Function.update o.cached s (some h)⟩ := by
  have hentry : o.tx.batch.entries.lookup s = none := by
    refine Option.eq_none_iff_forall_not_mem.mpr fun e he => ?_
    rw [(ho.entry s e he).1] at hfresh
    cases hfresh
  have hreplay : o.tx.batch.replaySet.contains s = false :=
    Bool.eq_false_iff.mpr fun hr => ho.replay s hr hfresh
  refine ⟨fun s' e he => ?_, fun s' hr => ?_⟩
  · by_cases heq : s' = s
    · subst heq
      by_cases hc : h ∈ o.tx.batch.replayCache
      · rw [Tx.record, Batch.put_cached hopen hc] at he
        cases hentry.symm.trans he
      · rw [Tx.record, Batch.put_fresh hopen hc] at he ⊢
        cases (Finmap.lookup_insert _).symm.trans he
        exact ⟨Function.update_self _ _ _, hreplay⟩
    · have hsame := Tx.sameAt_record hopen s h cltv packet heq
      obtain ⟨hcached, hno⟩ := ho.entry s' e (hsame.entry.symm.trans he)
      exact ⟨(Function.update_of_ne heq _ _).trans hcached, hsame.replay.trans hno⟩
  · by_cases heq : s' = s
    · subst heq
      simp
    · have hsame := Tx.sameAt_record hopen s h cltv packet heq
      have hold := ho.replay s' (hsame.replay.symm.trans hr)
      rwa [← Function.update_of_ne heq (some h) o.cached] at hold

/-- The open transactions of a node. -/
def Node.Exact (n : Node P) : Prop :=
  ∀ (k : Nat) (o : NodeTx P), n.txs[k]? = some o → o.tx.batch.Open → o.Exact

theorem Node.Exact.step {r : Router P} {n n' : Node P} {op : NodeOp} (hn : n.Exact) (hinv : n.Inv)
    (hstep : NodeStep r n op n') (hfresh : op.FreshIn n) : n'.Exact := by
  intro j o' hj hopen
  cases hstep.origin hj with
  | kept hk => exact hn _ o' hk hopen
  | begun => exact ⟨fun s e he => (by cases he), fun s hr => (by cases hr)⟩
  | recorded hk _ hopen' _ => exact (hn _ _ hk hopen').record hopen' (hfresh _ hk) _ _ _
  | @committed k order o hk =>
    rcases o.tx.batch.committed_or_open with hc | ho'
    · rw [Tx.commit_committed hc] at hopen ⊢
      exact hn k o hk hopen
    · obtain ⟨bs, es, hlog, hsound⟩ := hinv.started
      rw [hlog, Tx.commit_new bs es order ho' (hsound k o hk ho').unrecorded] at hopen
      cases hopen

/-- **What an operation adds to the log it accepts.** -/
theorem Node.Exact.stored {r : Router P} {n n' : Node P} {op : NodeOp} (hn : n.Exact) (hinv : n.Inv)
    (hstep : NodeStep r n op n') {h : HashPrefix} (hh : n'.Holds h) :
    n.Holds h ∨ ∃ x, Accepts r n op x h := by
  obtain ⟨bs, es, hlog, hsound⟩ := hinv.started
  cases hstep with
  | process pkt ad cltv =>
    cases he : r.examine pkt ad with
    | error err =>
      simp only [Router.processOnionPacket_error he] at hh
      exact .inl hh
    | ok found =>
      obtain ⟨h', packet⟩ := found
      by_cases hm : h' ∈ es
      · rw [hlog] at hh
        simp only [Router.processOnionPacket_replay bs es he cltv hm] at hh
        rw [Node.holds_iff hlog]
        exact .inl ((Node.holds_iff rfl h).mp hh)
      · have hfresh := Router.processOnionPacket_fresh bs es he cltv hm
        rw [← hlog] at hfresh
        rw [Node.holds_iff (congrArg Prod.fst hfresh), Finmap.mem_insert] at hh
        rcases hh with rfl | hh
        · obtain ⟨secret, hsecret, -, rfl⟩ := Router.examine_eq_ok.mp he
          exact .inr ⟨none, .process hsecret (congrArg Prod.snd hfresh)⟩
        · exact .inl ((Node.holds_iff hlog h).mpr hh)
  | @commit k order o hk ho =>
    rcases o.tx.batch.committed_or_open with hc | hopen
    · rw [Tx.commit_committed hc] at hh
      exact .inl hh
    · have hso := hsound k o hk hopen
      have hcommit := Tx.commit_new bs es order hopen hso.unrecorded
      rw [← hlog] at hcommit
      rw [Node.holds_iff (congrArg Prod.fst hcommit),
        MemoryReplayLog.mem_committedEntries es hso.inv ho] at hh
      by_cases hm : h ∈ es
      · exact .inl ((Node.holds_iff hlog h).mpr hm)
      · rcases hh with hh | ⟨s, e, he, rfl⟩
        · exact absurd hh hm
        · -- Not a replay inside the batch, nor of the log: the entry is accepted.
          obtain ⟨hcached, hno⟩ := (hn k o hk hopen).entry s e he
          refine .inr ⟨some s, .commit hk hopen (congrArg (·.2.2.2) hcommit) ?_ hcached⟩
          rw [Bool.eq_false_iff, ne_eq, MemoryReplayLog.contains_committedReplays es hso.inv ho, hno]
          rintro (h | ⟨e', he', hm'⟩)
          · cases h
          · cases he.symm.trans he'
            exact hm hm'
  | beginTxn => exact .inl hh
  | txError => exact .inl hh
  | txProcess => exact .inl hh
  | get => exact .inl hh

/-! ### Whole runs -/

section Run
variable {r : Router P} {node : Nat → Node P} {op : Nat → NodeOp} {m : Nat}
  (hrun : Run (NodeStep r) node op m) {bs : LogBatches} {es : LogEntries}
  (h0 : node 0 = ⟨.started bs es, []⟩)
include hrun h0

/-- The packets in the transactions are those the router was given before. -/
theorem caches_of_run {k : Nat} (hk : k ≤ m) : ∀ (l : Nat) (o : NodeTx P), (node k).txs[l]? = some o →
    o.Caches r fun h packet => ∃ j, j < k ∧ ∃ onionPkt assocData,
      (op j).given = some (onionPkt, assocData) ∧ r.examine onionPkt assocData = .ok (h, packet) := by
  refine hrun.remembers (E := fun _ a (found : HashPrefix × ProcessedPacket) =>
      ∃ onionPkt assocData, a.given = some (onionPkt, assocData) ∧ r.examine onionPkt assocData = .ok found)
    (I := fun done n => ∀ (l : Nat) (o : NodeTx P), n.txs[l]? = some o →
      o.Caches r fun h packet => done (h, packet)) ?_ ?_ hk
  · intro done n a n' hstep hn
    refine NodeStep.caches (fun l o ho => (hn l o ho).mono fun h packet hd => .inl hd) ?_ hstep
    exact fun onionPkt assocData h packet hg he => .inr ⟨onionPkt, assocData, hg, he⟩
  · rw [h0]
    intro l o ho
    cases ho

variable (hids : Fresh NodeOp.Begins (· ∈ bs) op m) (hfresh : ∀ i, i < m → (op i).FreshIn (node i))
include hids hfresh

/-- The log holds what it began with and what was accepted since. -/
theorem holds_of_run {k : Nat} (hk : k ≤ m) (h : HashPrefix) :
    (node k).Holds h ↔ h ∈ es ∨ ∃ i, i < k ∧ ∃ x, Accepts r (node i) (op i) x h := by
  have hrun' : Run (fun n a n' => NewStep r n a n' ∧ a.FreshIn n) node op m :=
    ⟨fun i hi => ⟨(newStep_of_run hrun h0 hids).step_at i hi, hfresh i hi⟩⟩
  have hall := hrun'.remembers (E := fun n a h => ∃ x, Accepts r n a x h)
    (I := fun done n => n.Inv ∧ n.Exact ∧ ∀ h, n.Holds h ↔ h ∈ es ∨ done h) ?_ ?_ hk
  · exact hall.2.2 h
  · rintro done n a n' ⟨⟨hstep, hnew⟩, hf⟩ ⟨hinv, hexact, hholds⟩
    refine ⟨hinv.step hstep hnew, hexact.step hinv hstep hf, fun h => ?_⟩
    rw [← or_assoc, ← hholds h]
    constructor
    · exact hexact.stored hinv hstep
    · rintro (hh | ⟨x, ha⟩)
      · exact hh.step hstep
      · exact (hinv.accepts hstep ha).2
  · rw [h0]
    refine ⟨Node.inv_started bs es, fun l o ho => (by cases ho), fun h => ?_⟩
    rw [Node.holds_iff rfl, or_false]

end Run

/-- **Exactly-once recording.** In any run of a node with a started log where the IDs of
the transactions differ from one another and from those recorded at the start, and every
transaction uses each sequence number once, the log holds a prefix exactly if it held
it in the beginning or handed its packet over since. A packet handed over has a prefix
the log did not begin with, is the only one with that prefix, and is what the router
made of a packet it was given. -/
theorem recorded_exactly_once (r : Router P) {node : Nat → Node P} {op : Nat → NodeOp} {m : Nat}
    (hrun : Run (NodeStep r) node op m) {bs : LogBatches} {es : LogEntries}
    (h0 : node 0 = ⟨.started bs es, []⟩) (hids : Fresh NodeOp.Begins (· ∈ bs) op m)
    (hfresh : ∀ i, i < m → (op i).FreshIn (node i)) :
    (∀ k h, k ≤ m → ((∃ c, (node k).log.get h = .ok c) ↔
        h ∈ es ∨ ∃ i x packet, i < k ∧ Yields r (node i) (op i) x h packet)) ∧
      ∀ i x h packet, i < m → Yields r (node i) (op i) x h packet →
        h ∉ es ∧
        (∀ j y packet', j < m → Yields r (node j) (op j) y h packet' →
          j = i ∧ y = x ∧ packet' = packet) ∧
        ∃ j onionPkt assocData, j ≤ i ∧ (op j).given = some (onionPkt, assocData) ∧
          r.examine onionPkt assocData = .ok (h, packet) := by
  refine ⟨fun k h hk => ?_, fun i x h packet hi hy => ⟨fun hes => ?_, fun j y packet' hj hy' => ?_, ?_⟩⟩
  · refine (holds_of_run hrun h0 hids hfresh hk h).trans (or_congr_right ?_)
    constructor
    · rintro ⟨i, hi, x, ha⟩
      obtain ⟨packet, hy⟩ := ha.yields (caches_of_run hrun h0 (by omega))
      exact ⟨i, x, packet, hi, hy⟩
    · rintro ⟨i, x, packet, hi, hy⟩
      exact ⟨i, hi, x, hy.accepts⟩
  · have hheld := (holds_of_run hrun h0 hids hfresh (Nat.le_of_lt hi) h).mpr (.inl hes)
    exact ((inv_of_run hrun h0 hids (Nat.le_of_lt hi)).accepts (hrun.step_at i hi) hy.accepts).1 hheld
  · obtain ⟨rfl, rfl⟩ := accepts_once hrun h0 hids hj hi hy'.accepts hy.accepts
    exact ⟨rfl, rfl, hy'.unique hy⟩
  · have hcaches : ∀ (l : Nat) (o : NodeTx P), (node i).txs[l]? = some o →
        o.Caches r fun h packet => ∃ j, j ≤ i ∧ ∃ onionPkt assocData,
          (op j).given = some (onionPkt, assocData) ∧ r.examine onionPkt assocData = .ok (h, packet) := by
      refine fun l o ho => (caches_of_run hrun h0 (Nat.le_of_lt hi) l o ho).mono ?_
      rintro h packet ⟨j, hj, hgiven⟩
      exact ⟨j, Nat.le_of_lt hj, hgiven⟩
    obtain ⟨j, hj, onionPkt, assocData, hgiven, he⟩ := hy.satisfies hcaches
      fun onionPkt assocData h packet hg he => ⟨i, Nat.le_refl i, onionPkt, assocData, hg, he⟩
    exact ⟨j, onionPkt, assocData, hj, hgiven, he⟩

/-- A packet given to a node in a transaction is handed over by the commit, recorded, and
not handed over again. -/
theorem sampleNode_recorded : ∃ h packet,
    Yields Router.sample (sampleNode (.started ∅ ∅) h packet 2) (.commit 0 [0]) (some 0) h packet ∧
      (∃ c, (sampleNode (.started ∅ ∅) h packet 4).log.get h = .ok c) ∧
      ∀ y packet', ¬Yields Router.sample (sampleNode (.started ∅ ∅) h packet 3)
        (.process Router.samplePacket [] 8) y h packet' := by
  obtain ⟨h, packet, he⟩ := Router.sample_examine
  have hfresh : ∀ i, i < 4 → (sampleOp i).FreshIn (sampleNode (.started ∅ ∅) h packet i) := by
    rintro (_ | _ | _ | i) -
    · trivial
    · intro o ho
      cases ho
      rfl
    · trivial
    · trivial
  obtain ⟨hlog, honce⟩ := recorded_exactly_once Router.sample (sampleNode_run (.started ∅ ∅) he) rfl
    (sampleOp_ids Finmap.notMem_empty) hfresh
  have hcaches := caches_of_run (sampleNode_run (.started ∅ ∅) he) rfl (show 2 ≤ 4 by decide)
  obtain ⟨packet', hfirst⟩ := (sampleNode_commit_new h packet).yields hcaches
  obtain rfl : packet = packet' := by
    cases hfirst with
    | commit hk _ _ _ _ hpacket =>
      cases hk
      rw [(Tx.commit_packets _ _ _).1] at hpacket
      exact Option.some.inj hpacket
  refine ⟨h, packet, hfirst, (hlog 4 h (by decide)).mpr (.inr ⟨2, some 0, packet, by decide, hfirst⟩), ?_⟩
  intro y packet' hy
  exact absurd ((honce 2 (some 0) h packet (by decide) hfirst).2.1 3 y packet' (by decide) hy).1 (by decide)

end LightningOnion
