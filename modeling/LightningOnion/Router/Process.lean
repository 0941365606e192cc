import LightningOnion.Crypto.Transparent
import LightningOnion.Packet.Process
import LightningOnion.Replay.Log

/-! A router processing packets.

Processing is optimistic: the secret, the MAC check and the decryption come first,
and only a packet that passed them is looked up in the replay log. `examine` is the
part before the log, the same for a packet alone, in a transaction or reconstructed.
The log is passed in and out. -/
namespace LightningOnion.Router
open Lib

variable {P : Primitives} (r : Router P)

/-- Processes a packet, recording its prefix in the log unless it is a replay. -/
def processOnionPacket (log : MemoryReplayLog) (onionPkt : OnionPacket) (assocData : List UInt8)
    (incomingCltv : UInt32) : MemoryReplayLog × Except Error ProcessedPacket :=
  match r.generateSharedSecret onionPkt.ephemeralKey with
  | .error err => (log, .error err)
  | .ok sharedSecret =>
    let hashPrefix := hashSharedSecret P sharedSecret
    match LightningOnion.processOnionPacket P onionPkt sharedSecret assocData with
    | .error err => (log, .error err)
    | .ok packet =>
      match log.put hashPrefix incomingCltv with
      | (log', some err) => (log', .error err)
      | (log', none) => (log', .ok packet)

/-- Rederives the next packet, without any replay protection. -/
def reconstructOnionPacket (onionPkt : OnionPacket) (assocData : List UInt8) :
    Except Error ProcessedPacket :=
  match r.generateSharedSecret onionPkt.ephemeralKey with
  | .error err => .error err
  | .ok sharedSecret => LightningOnion.processOnionPacket P onionPkt sharedSecret assocData

/-- What a packet is found to be before the log is asked: its prefix, and the result
of processing it. -/
def examine (onionPkt : OnionPacket) (assocData : List UInt8) :
    Except Error (HashPrefix × ProcessedPacket) := do
  let sharedSecret ← r.generateSharedSecret onionPkt.ephemeralKey
  let packet ← LightningOnion.processOnionPacket P onionPkt sharedSecret assocData
  return (hashSharedSecret P sharedSecret, packet)

/-- The header's MAC is right under the secret the router derives. -/
def MacVerifies (onionPkt : OnionPacket) (assocData : List UInt8) : Prop :=
  onionPkt.headerMAC = calcMac P
    (generateKey P .mu (LightningOnion.generateSharedSecret P onionPkt.ephemeralKey r.onionKey))
    (onionPkt.routingInfo.toList ++ assocData)

instance (onionPkt : OnionPacket) (assocData : List UInt8) :
    Decidable (r.MacVerifies onionPkt assocData) :=
  inferInstanceAs (Decidable (_ = _))

/-- The prefix the packet is recorded under. -/
def hashPrefixOf (onionPkt : OnionPacket) : HashPrefix :=
  hashSharedSecret P (LightningOnion.generateSharedSecret P onionPkt.ephemeralKey r.onionKey)

variable {r} {onionPkt : OnionPacket} {assocData : List UInt8}

theorem examine_eq_error {err : Error} : r.examine onionPkt assocData = .error err ↔
    r.generateSharedSecret onionPkt.ephemeralKey = .error err ∨
      ∃ secret, r.generateSharedSecret onionPkt.ephemeralKey = .ok secret ∧
        LightningOnion.processOnionPacket P onionPkt secret assocData = .error err := by
  rw [examine]
  cases r.generateSharedSecret onionPkt.ephemeralKey with
  | error err => simp [bind, Except.bind]
  | ok secret =>
    cases hp : LightningOnion.processOnionPacket P onionPkt secret assocData with
    | error err => simp [bind, Except.bind, hp]
    | ok packet => simp [bind, Except.bind, pure, Except.pure, hp]

theorem examine_eq_ok {h : HashPrefix} {packet : ProcessedPacket} :
    r.examine onionPkt assocData = .ok (h, packet) ↔
      ∃ secret, r.generateSharedSecret onionPkt.ephemeralKey = .ok secret ∧
        LightningOnion.processOnionPacket P onionPkt secret assocData = .ok packet ∧
        hashSharedSecret P secret = h := by
  rw [examine]
  cases r.generateSharedSecret onionPkt.ephemeralKey with
  | error err => simp [bind, Except.bind]
  | ok secret =>
    cases hp : LightningOnion.processOnionPacket P onionPkt secret assocData with
    | error err => simp [bind, Except.bind, hp]
    | ok packet => simp [bind, Except.bind, pure, Except.pure, hp, and_comm]

theorem examine_offCurve (hcurve : P.isOnCurve onionPkt.ephemeralKey = false) :
    r.examine onionPkt assocData = .error .errInvalidOnionKey := by
  refine examine_eq_error.mpr (.inl ?_)
  rw [generateSharedSecret, if_neg (by rw [hcurve]; decide)]

section OnCurve
variable (hcurve : P.isOnCurve onionPkt.ephemeralKey = true)
include hcurve

theorem generateSharedSecret_onCurve : r.generateSharedSecret onionPkt.ephemeralKey =
    .ok (LightningOnion.generateSharedSecret P onionPkt.ephemeralKey r.onionKey) := by
  rw [generateSharedSecret, if_pos hcurve]

theorem examine_badMac (hmac : ¬ r.MacVerifies onionPkt assocData) :
    r.examine onionPkt assocData = .error .errInvalidOnionHMAC := by
  refine examine_eq_error.mpr (.inr ⟨_, generateSharedSecret_onCurve hcurve, ?_⟩)
  obtain ⟨hd, next, -, hunwrap⟩ := unwrapLayer_eq (layerKeys P (LightningOnion.generateSharedSecret P
    onionPkt.ephemeralKey r.onionKey)) onionPkt.routingInfo onionPkt.headerMAC assocData
  rw [if_neg (show ¬ onionPkt.headerMAC = (layerKeys P _).mu _ from hmac)] at hunwrap
  simp only [LightningOnion.processOnionPacket, unwrapPacket, hunwrap]

theorem examine_verified (hmac : r.MacVerifies onionPkt assocData) :
    ∃ packet, r.examine onionPkt assocData = .ok (r.hashPrefixOf onionPkt, packet) := by
  obtain ⟨packet, hp⟩ := processOnionPacket_of_mac P hmac
  exact ⟨packet, examine_eq_ok.mpr ⟨_, generateSharedSecret_onCurve hcurve, hp, rfl⟩⟩

end OnCurve

theorem macVerifies_of_examine {found : HashPrefix × ProcessedPacket}
    (h : r.examine onionPkt assocData = .ok found) : r.MacVerifies onionPkt assocData := by
  by_contra hmac
  cases hcurve : P.isOnCurve onionPkt.ephemeralKey with
  | false =>
    rw [examine_offCurve hcurve] at h
    cases h
  | true =>
    rw [examine_badMac hcurve hmac] at h
    cases h

theorem examine_error {err : Error} (h : r.examine onionPkt assocData = .error err) :
    err = .errInvalidOnionKey ∨ err = .errInvalidOnionHMAC := by
  cases hcurve : P.isOnCurve onionPkt.ephemeralKey with
  | false =>
    rw [examine_offCurve hcurve] at h
    exact .inl (Except.error.inj h).symm
  | true =>
    by_cases hmac : r.MacVerifies onionPkt assocData
    · obtain ⟨packet, hok⟩ := examine_verified hcurve hmac
      rw [hok] at h
      cases h
    · rw [examine_badMac hcurve hmac] at h
      exact .inr (Except.error.inj h).symm

theorem processOnionPacket_error {err : Error} (h : r.examine onionPkt assocData = .error err)
    (log : MemoryReplayLog) (cltv : UInt32) :
    r.processOnionPacket log onionPkt assocData cltv = (log, .error err) := by
  rcases examine_eq_error.mp h with hs | ⟨secret, hs, hp⟩
  · simp only [processOnionPacket, hs]
  · simp only [processOnionPacket, hs, hp]

theorem processOnionPacket_ok {h : HashPrefix} {packet : ProcessedPacket}
    (he : r.examine onionPkt assocData = .ok (h, packet)) (log : MemoryReplayLog) (cltv : UInt32) :
    r.processOnionPacket log onionPkt assocData cltv =
      ((log.put h cltv).1, match (log.put h cltv).2 with
        | some err => .error err
        | none => .ok packet) := by
  obtain ⟨secret, hs, hp, rfl⟩ := examine_eq_ok.mp he
  simp only [processOnionPacket, hs, hp]
  rcases log.put (hashSharedSecret P secret) cltv with ⟨log', _ | err⟩ <;> rfl

/-- The log is left alone, or written to once. -/
theorem processOnionPacket_log (r : Router P) (log : MemoryReplayLog) (onionPkt : OnionPacket)
    (assocData : List UInt8) (cltv : UInt32) :
    (r.processOnionPacket log onionPkt assocData cltv).1 = log ∨
      ∃ h, (r.processOnionPacket log onionPkt assocData cltv).1 = (log.put h cltv).1 := by
  cases he : r.examine onionPkt assocData with
  | error err =>
    rw [processOnionPacket_error he]
    exact .inl rfl
  | ok found =>
    rw [processOnionPacket_ok he]
    exact .inr ⟨_, rfl⟩

theorem reconstructOnionPacket_error {err : Error} (h : r.examine onionPkt assocData = .error err) :
    r.reconstructOnionPacket onionPkt assocData = .error err := by
  rcases examine_eq_error.mp h with hs | ⟨secret, hs, hp⟩
  · simp only [reconstructOnionPacket, hs]
  · simp only [reconstructOnionPacket, hs, hp]

theorem reconstructOnionPacket_ok {h : HashPrefix} {packet : ProcessedPacket}
    (he : r.examine onionPkt assocData = .ok (h, packet)) :
    r.reconstructOnionPacket onionPkt assocData = .ok packet := by
  obtain ⟨secret, hs, hp, rfl⟩ := examine_eq_ok.mp he
  simp only [reconstructOnionPacket, hs, hp]

/-! ### On a started log -/

section Started
variable {h : HashPrefix} {packet : ProcessedPacket} (bs : LogBatches) (es : LogEntries)
  (he : r.examine onionPkt assocData = .ok (h, packet)) (cltv : UInt32)
include he

theorem processOnionPacket_replay (hm : h ∈ es) :
    r.processOnionPacket (.started bs es) onionPkt assocData cltv =
      (.started bs es, .error .errReplayedPacket) := by
  rw [processOnionPacket_ok he, MemoryReplayLog.put_started_mem bs es hm]

theorem processOnionPacket_fresh (hm : h ∉ es) :
    r.processOnionPacket (.started bs es) onionPkt assocData cltv =
      (.started bs (es.insert h cltv), .ok packet) := by
  rw [processOnionPacket_ok he, MemoryReplayLog.put_started_notMem bs es hm]

end Started

/-! ### A router to try it on -/

/-- A router for which every MAC is the same. -/
def sample : Router (samplePrimitives fun _ _ => sampleHash) := ⟨sampleKey _⟩

/-- A packet with that MAC and an empty header. -/
def samplePacket : OnionPacket := ⟨baseVersion, residuePoint 1, zeroBytes _, sampleHash⟩

theorem sample_examine : ∃ h packet, sample.examine samplePacket [] = .ok (h, packet) := by
  obtain ⟨packet, hp⟩ := processOnionPacket_of_mac (samplePrimitives fun _ _ => sampleHash)
    (show samplePacket.headerMAC = calcMac _ (generateKey _ .mu sampleHash) (_ ++ []) from rfl)
  exact ⟨_, packet, examine_eq_ok.mpr ⟨sampleHash, rfl, hp, rfl⟩⟩

end LightningOnion.Router
