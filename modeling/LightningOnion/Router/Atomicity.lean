import LightningOnion.Lib.Trace
import LightningOnion.Router.Batching

/-! What processing a packet does, exactly, and that failing does nothing.

A packet is admitted exactly if its key is on the curve, its MAC verifies, the log is
started and its prefix is not there yet; then the prefix is all that is written.
Otherwise the first of these that fails is the error, and nothing is written. The
same holds of a packet added to a transaction. So calls that failed can be left out
of any run of a router and its transactions (`Session`). -/
namespace LightningOnion
open Lib

variable {P : Primitives}

namespace Router
variable (r : Router P) (log : MemoryReplayLog) (onionPkt : OnionPacket) (assocData : List UInt8)

/-- All that a packet needs to be admitted. -/
structure Admits : Prop where
  onCurve : P.isOnCurve onionPkt.ephemeralKey = true
  mac : r.MacVerifies onionPkt assocData
  started : log.Started
  fresh : ∀ es, log.entries = some es → r.hashPrefixOf onionPkt ∉ es

/-- The error for the first of them that fails. -/
def firstFailure : Error :=
  if P.isOnCurve onionPkt.ephemeralKey = false then .errInvalidOnionKey
  else if ¬ r.MacVerifies onionPkt assocData then .errInvalidOnionHMAC
  else if log.entries.isNone || log.batches.isNone then .errReplayLogNotStarted
  else .errReplayedPacket

variable {r log onionPkt assocData}

theorem processOnionPacket_admitted (h : r.Admits log onionPkt assocData) (cltv : UInt32) :
    ∃ packet bs es, log = .started bs es ∧ r.processOnionPacket log onionPkt assocData cltv =
      (.started bs (es.insert (r.hashPrefixOf onionPkt) cltv), .ok packet) := by
  obtain ⟨bs, es, hlog⟩ := h.started
  obtain ⟨packet, he⟩ := examine_verified h.onCurve h.mac
  have hfresh : r.hashPrefixOf onionPkt ∉ es := h.fresh es (by rw [hlog]; rfl)
  refine ⟨packet, bs, es, hlog, ?_⟩
  rw [hlog]
  exact processOnionPacket_fresh bs es he cltv hfresh

theorem processOnionPacket_refused (h : ¬ r.Admits log onionPkt assocData) (cltv : UInt32) :
    r.processOnionPacket log onionPkt assocData cltv =
      (log, .error (r.firstFailure log onionPkt assocData)) := by
  rw [firstFailure]
  cases hcurve : P.isOnCurve onionPkt.ephemeralKey with
  | false => rw [if_pos rfl, processOnionPacket_error (examine_offCurve hcurve)]
  | true =>
    rw [if_neg (by decide)]
    by_cases hmac : r.MacVerifies onionPkt assocData
    case neg => rw [if_pos hmac, processOnionPacket_error (examine_badMac hcurve hmac)]
    rw [if_neg (not_not_intro hmac)]
    obtain ⟨packet, he⟩ := examine_verified hcurve hmac
    by_cases hstarted : log.Started
    · obtain ⟨bs, es, rfl⟩ := hstarted
      have hm : r.hashPrefixOf onionPkt ∈ es := by
        by_contra hm
        exact h ⟨hcurve, hmac, ⟨bs, es, rfl⟩, fun es' hes => by cases hes; exact hm⟩
      rw [processOnionPacket_replay bs es he cltv hm]
      rfl
    · have hnil : (log.entries.isNone || log.batches.isNone) = true := by
        simpa using (log.not_started_iff).mp hstarted
      rw [if_pos hnil, processOnionPacket_ok he, log.put_not_started hstarted]

/-- An error always means that the log is as it was. -/
theorem processOnionPacket_error_log {cltv : UInt32} {err : Error}
    (h : (r.processOnionPacket log onionPkt assocData cltv).2 = .error err) :
    (r.processOnionPacket log onionPkt assocData cltv).1 = log := by
  by_cases hacc : r.Admits log onionPkt assocData
  · obtain ⟨packet, bs, es, -, hok⟩ := processOnionPacket_admitted hacc cltv
    rw [hok] at h
    cases h
  · rw [processOnionPacket_refused hacc]

end Router

/-! ### Whole runs -/

/-- A log and the transactions that write to it. -/
structure Session (P : Primitives) where
  log : MemoryReplayLog
  txs : List (Tx P)

/-- A call: of a router, or of one of the transactions. -/
inductive Op (P : Primitives) where
  | process (router : Router P) (onionPkt : OnionPacket) (assocData : List UInt8)
      (incomingCltv : UInt32)
  | add (tx : Nat) (call : Call)
  | commit (tx : Nat) (order : List UInt16)

/-- What it returns. -/
inductive Returned where
  | processed (result : Except Error ProcessedPacket)
  | added (result : Option Error)
  | committed (packets : List ProcessedPacket) (result : Except Error ReplaySet)

/-- A processing call that returned an error. -/
inductive Failed : Op P → Returned → Prop
  | process {router : Router P} {onionPkt : OnionPacket} {assocData : List UInt8} {cltv : UInt32}
      {err : Error} : Failed (.process router onionPkt assocData cltv) (.processed (.error err))
  | add {tx : Nat} {call : Call} {err : Error} : Failed (.add tx call) (.added (some err))

/-- Makes the call; a transaction that is not there, or a panic, ends the run. -/
def Session.perform (s : Session P) : Op P → Option (Session P × Returned)
  | .process router onionPkt assocData cltv =>
    let (log, result) := router.processOnionPacket s.log onionPkt assocData cltv
    some ({s with log}, .processed result)
  | .add tx call => do
    let t ← s.txs[tx]?
    let (t', err) ← t.processOnionPacket call.seqNum call.onionPkt call.assocData call.incomingCltv
    return ({s with txs := s.txs.set tx t'}, .added err)
  | .commit tx order => do
    let t ← s.txs[tx]?
    let (log, t', packets, result) := t.commit s.log order
    return (⟨log, s.txs.set tx t'⟩, .committed packets result)

/-- A call that failed changed nothing. -/
theorem Session.perform_failed {s s' : Session P} {op : Op P} {ret : Returned}
    (h : s.perform op = some (s', ret)) (hfailed : Failed op ret) : s' = s := by
  cases hfailed with
  | process =>
    simp only [perform, Option.some.injEq, Prod.mk.injEq, Returned.processed.injEq] at h
    obtain ⟨rfl, hret⟩ := h
    rw [Router.processOnionPacket_error_log hret]
  | add =>
    simp only [perform, Option.bind_eq_bind, Option.bind_eq_some_iff, Option.pure_def,
      Option.some.injEq, Prod.mk.injEq, Prod.exists, Returned.added.injEq] at h
    obtain ⟨t, ht, t', err', hcall, rfl, rfl⟩ := h
    rcases Tx.processOnionPacket_cases hcall with ⟨rfl, -⟩ | ⟨-, -, -, -, -, -, hnone⟩
    · obtain ⟨hlt, rfl⟩ := List.getElem?_eq_some_iff.mp ht
      rw [List.set_getElem_self]
    · cases hnone

/-- **Processing is exact, and failing is doing nothing.** A router returns a packet
exactly if it admits it, and has then written its prefix and nothing else; otherwise
the log is as it was and the error names the first thing missing. A call that fails on
a transaction leaves the transaction as it was. So, in any run, leaving out calls that
failed changes neither what the others return nor the state at the end. -/
theorem processing_atomic :
    (∀ (r : Router P) (log : MemoryReplayLog) (onionPkt : OnionPacket) (assocData : List UInt8)
      (cltv : UInt32),
      ((∃ packet, (r.processOnionPacket log onionPkt assocData cltv).2 = .ok packet) ↔
        r.Admits log onionPkt assocData) ∧
      (r.Admits log onionPkt assocData → ∃ bs es, log = .started bs es ∧
        (r.processOnionPacket log onionPkt assocData cltv).1 =
          .started bs (es.insert (r.hashPrefixOf onionPkt) cltv)) ∧
      (¬ r.Admits log onionPkt assocData → r.processOnionPacket log onionPkt assocData cltv =
        (log, .error (r.firstFailure log onionPkt assocData)))) ∧
    (∀ (t t' : Tx P) (call : Call) (err : Error),
      t.processOnionPacket call.seqNum call.onionPkt call.assocData call.incomingCltv =
        some (t', some err) → t' = t) ∧
    (∀ (s s' : Session P) (history history' : List (Op P × Returned)),
      exec Session.perform s (history.map Prod.fst) = some (s', history.map Prod.snd) →
      Erased Failed history history' →
      exec Session.perform s (history'.map Prod.fst) = some (s', history'.map Prod.snd)) := by
  refine ⟨fun r log onionPkt assocData cltv => ⟨⟨?_, ?_⟩, ?_, fun h =>
    Router.processOnionPacket_refused h cltv⟩, ?_, ?_⟩
  · intro ⟨packet, hok⟩
    by_contra hacc
    rw [Router.processOnionPacket_refused hacc] at hok
    cases hok
  · intro hacc
    obtain ⟨packet, bs, es, -, hok⟩ := Router.processOnionPacket_admitted hacc cltv
    exact ⟨packet, by rw [hok]⟩
  · intro hacc
    obtain ⟨packet, bs, es, hlog, hok⟩ := Router.processOnionPacket_admitted hacc cltv
    exact ⟨bs, es, hlog, by rw [hok]⟩
  · intro t t' call err h
    rcases Tx.processOnionPacket_cases h with ⟨rfl, -⟩ | ⟨-, -, -, -, -, -, hnone⟩
    · rfl
    · cases hnone
  · intro s s' history history' hexec herased
    exact exec_erased Session.perform Session.perform_failed herased hexec

/-- The sample packet with a key off the curve. -/
def junkPacket : OnionPacket := {Router.samplePacket with ephemeralKey := residuePoint 0}

/-- Junk before a good packet: without it, the good one is returned all the same, and
the log is the same. -/
theorem junk_erased : ∃ (s : Session (samplePrimitives fun _ _ => sampleHash))
    (packet : ProcessedPacket),
    exec Session.perform ⟨.started ∅ ∅, []⟩
      [.process .sample junkPacket [] 6, .process .sample Router.samplePacket [] 7] =
      some (s, [.processed (.error .errInvalidOnionKey), .processed (.ok packet)]) ∧
    exec Session.perform ⟨.started ∅ ∅, []⟩ [.process .sample Router.samplePacket [] 7] =
      some (s, [.processed (.ok packet)]) := by
  obtain ⟨h, packet, he⟩ := Router.sample_examine
  have hjunk : Router.sample.examine junkPacket [] = .error .errInvalidOnionKey :=
    Router.examine_offCurve rfl
  have hbad := Router.processOnionPacket_error hjunk (.started ∅ ∅) 6
  have hgood := Router.processOnionPacket_fresh ∅ ∅ he 7 Finmap.notMem_empty
  have hrun : exec Session.perform ⟨.started ∅ ∅, []⟩
      [.process .sample junkPacket [] 6, .process .sample Router.samplePacket [] 7] =
      some (⟨.started ∅ (Finmap.insert h 7 ∅), []⟩,
        [.processed (.error .errInvalidOnionKey), .processed (.ok packet)]) := by
    simp only [exec, Session.perform, hbad, hgood, Option.map_some]
  exact ⟨_, packet, hrun, processing_atomic.2.2 _ _
    [(.process .sample junkPacket [] 6, .processed (.error .errInvalidOnionKey)),
      (.process .sample Router.samplePacket [] 7, .processed (.ok packet))]
    [(.process .sample Router.samplePacket [] 7, .processed (.ok packet))] hrun
    (.drop .process (.keep .nil))⟩

end LightningOnion
