import LightningOnion.Router.Process

/-! Transactions: packets processed together and written to the log at once.

The cached packets and the batch are filled optimistically; `commit` decides which
of them count. `processOnionPacket` indexes the cached packets by sequence number,
out of range when it is not below the size the transaction was begun with: `none`. -/
namespace LightningOnion
open Lib

structure Tx (P : Primitives) where
  /-- The packets' prefixes, to be written when the transaction is committed. -/
  batch : Batch
  router : Router P
  /-- The processed packets, by sequence number. -/
  packets : List ProcessedPacket

/-- A transaction for up to `nels` packets. -/
def Router.beginTxn {P : Primitives} (r : Router P) (id : List UInt8) (nels : Nat) : Tx P :=
  ⟨.new id, r, List.replicate nels .empty⟩

namespace Tx
variable {P : Primitives} (t : Tx P)

/-- Processes a packet and adds its prefix to the batch. -/
def processOnionPacket (seqNum : UInt16) (onionPkt : OnionPacket) (assocData : List UInt8)
    (incomingCltv : UInt32) : Option (Tx P × Option Error) :=
  match t.router.generateSharedSecret onionPkt.ephemeralKey with
  | .error err => some (t, some err)
  | .ok sharedSecret =>
    let hashPrefix := hashSharedSecret P sharedSecret
    match LightningOnion.processOnionPacket P onionPkt sharedSecret assocData with
    | .error err => some (t, some err)
    | .ok packet =>
      match t.batch.put seqNum hashPrefix incomingCltv with
      | (batch, some err) => some ({t with batch}, some err)
      | (batch, none) =>
        if seqNum.toNat < t.packets.length then
          some ({t with batch, packets := t.packets.set seqNum.toNat packet}, none)
        else none

/-- Writes the batch to the log: the log, the transaction, and what is returned, the
packets and the replays. -/
def commit (log : MemoryReplayLog) (order : List UInt16) :
    MemoryReplayLog × Tx P × List ProcessedPacket × Except Error ReplaySet :=
  if t.batch.isCommitted then (log, t, t.packets, .ok t.batch.replaySet)
  else
    match log.putBatch t.batch order with
    | (log', batch, rs) => (log', {t with batch}, t.packets, rs)

/-- The transaction with a prefix put in its batch and its packet cached. -/
def record (seqNum : UInt16) (hashPrefix : HashPrefix) (cltv : UInt32) (packet : ProcessedPacket) : Tx P :=
  {t with
    batch := (t.batch.put seqNum hashPrefix cltv).1
    packets := t.packets.set seqNum.toNat packet}

variable {t} {onionPkt : OnionPacket} {assocData : List UInt8}

theorem processOnionPacket_error {err : Error} (h : t.router.examine onionPkt assocData = .error err)
    (seqNum : UInt16) (cltv : UInt32) :
    t.processOnionPacket seqNum onionPkt assocData cltv = some (t, some err) := by
  rcases Router.examine_eq_error.mp h with hs | ⟨secret, hs, hp⟩
  · simp only [processOnionPacket, hs]
  · simp only [processOnionPacket, hs, hp]

section Examined
variable {h : HashPrefix} {packet : ProcessedPacket}
  (he : t.router.examine onionPkt assocData = .ok (h, packet)) (seqNum : UInt16) (cltv : UInt32)
include he

theorem processOnionPacket_committed (hc : t.batch.isCommitted = true) :
    t.processOnionPacket seqNum onionPkt assocData cltv = some (t, some .errAlreadyCommitted) := by
  obtain ⟨secret, hs, hp, rfl⟩ := Router.examine_eq_ok.mp he
  simp only [processOnionPacket, hs, hp, Batch.put_committed t.batch hc]

theorem processOnionPacket_open (ho : t.batch.Open) (hlt : seqNum.toNat < t.packets.length) :
    t.processOnionPacket seqNum onionPkt assocData cltv =
      some (t.record seqNum h cltv packet, none) := by
  obtain ⟨secret, hs, hp, rfl⟩ := Router.examine_eq_ok.mp he
  have hput := Batch.put_open ho seqNum (hashSharedSecret P secret) cltv
  simp only [processOnionPacket, record, hs, hp]
  rcases hb : t.batch.put seqNum (hashSharedSecret P secret) cltv with ⟨batch, _ | err⟩
  · simp only [if_pos hlt]
  · rw [hb] at hput
    cases hput

theorem processOnionPacket_outOfRange (ho : t.batch.Open) (hge : t.packets.length ≤ seqNum.toNat) :
    t.processOnionPacket seqNum onionPkt assocData cltv = none := by
  obtain ⟨secret, hs, hp, rfl⟩ := Router.examine_eq_ok.mp he
  have hput := Batch.put_open ho seqNum (hashSharedSecret P secret) cltv
  simp only [processOnionPacket, hs, hp]
  rcases hb : t.batch.put seqNum (hashSharedSecret P secret) cltv with ⟨batch, _ | err⟩
  · simp only [if_neg (Nat.not_lt.mpr hge)]
  · rw [hb] at hput
    cases hput

end Examined

/-- All that a call can do: fail and change nothing, or record a packet it examined. -/
theorem processOnionPacket_cases {t' : Tx P} {seqNum : UInt16} {cltv : UInt32} {res : Option Error}
    (h : t.processOnionPacket seqNum onionPkt assocData cltv = some (t', res)) :
    (t' = t ∧ ∃ err, res = some err) ∨
      ∃ hp packet, t.router.examine onionPkt assocData = .ok (hp, packet) ∧ t.batch.Open ∧
        seqNum.toNat < t.packets.length ∧ t' = t.record seqNum hp cltv packet ∧ res = none := by
  cases he : t.router.examine onionPkt assocData with
  | error err =>
    rw [processOnionPacket_error he] at h
    cases h
    exact .inl ⟨rfl, err, rfl⟩
  | ok found =>
    obtain ⟨hp, packet⟩ := found
    rcases t.batch.committed_or_open with hc | ho
    · rw [processOnionPacket_committed he _ _ hc] at h
      cases h
      exact .inl ⟨rfl, _, rfl⟩
    · by_cases hlt : seqNum.toNat < t.packets.length
      · rw [processOnionPacket_open he _ _ ho hlt] at h
        cases h
        exact .inr ⟨hp, packet, rfl, ho, hlt, rfl, rfl⟩
      · rw [processOnionPacket_outOfRange he _ _ ho (Nat.le_of_not_lt hlt)] at h
        cases h

theorem processOnionPacket_of_committed (hc : t.batch.isCommitted = true) (seqNum : UInt16)
    (onionPkt : OnionPacket) (assocData : List UInt8) (cltv : UInt32) :
    ∃ err, t.processOnionPacket seqNum onionPkt assocData cltv = some (t, some err) := by
  cases he : t.router.examine onionPkt assocData with
  | error err => exact ⟨err, processOnionPacket_error he seqNum cltv⟩
  | ok found => exact ⟨_, processOnionPacket_committed he seqNum cltv hc⟩

/-! ### Committing -/

theorem commit_packets (t : Tx P) (log : MemoryReplayLog) (order : List UInt16) :
    (t.commit log order).2.2.1 = t.packets ∧ (t.commit log order).2.1.packets = t.packets ∧
      (t.commit log order).2.1.router = t.router := by
  rw [commit]
  split <;> exact ⟨rfl, rfl, rfl⟩

theorem commit_id (t : Tx P) (log : MemoryReplayLog) (order : List UInt16) :
    (t.commit log order).2.1.batch.id = t.batch.id := by
  rw [commit]
  split
  · rfl
  · exact log.putBatch_id t.batch order

theorem commit_committed (hc : t.batch.isCommitted = true) (log : MemoryReplayLog)
    (order : List UInt16) : t.commit log order = (log, t, t.packets, .ok t.batch.replaySet) := by
  rw [commit, if_pos hc]

variable (bs : LogBatches) (es : LogEntries) (order : List UInt16) (ho : t.batch.Open)
include ho

theorem commit_known {rs : ReplaySet} (h : bs.lookup t.batch.id = some rs) :
    t.commit (.started bs es) order =
      (.started bs es, {t with batch := {t.batch with replaySet := rs, isCommitted := true}},
        t.packets, .ok rs) := by
  rw [commit, if_neg (by rw [ho]; decide), MemoryReplayLog.putBatch_known bs es h]

theorem commit_new (h : bs.lookup t.batch.id = none) :
    t.commit (.started bs es) order =
      (.started (bs.insert t.batch.id (MemoryReplayLog.committedReplays es t.batch order))
          (MemoryReplayLog.committedEntries es t.batch order),
        {t with batch := {t.batch with
          replaySet := MemoryReplayLog.committedReplays es t.batch order, isCommitted := true}},
        t.packets, .ok (MemoryReplayLog.committedReplays es t.batch order)) := by
  rw [commit, if_neg (by rw [ho]; decide), MemoryReplayLog.putBatch_new bs es h]

end Tx

end LightningOnion
