import LightningOnion.Crypto.Transparent
import LightningOnion.Route.Delivery

/-! What a hop makes of a tampered packet.

`Receives i pkt` is what arrives at hop `i` when every hop before it forwards what
it decrypts. Whoever changes the routing info or the associated data of that packet
has it refused, unless the change collides under the hop's MAC key. -/
namespace LightningOnion
open Lib

namespace Route
variable {P : Primitives} (R : Route P)

/-- Hop `i` of the route is sent `pkt`. -/
inductive Receives : Nat → OnionPacket → Prop where
  | first {path' : PaymentPath} {pkt : OnionPacket}
      (h : newOnionPacket P R.path R.sessionKey R.assocData = some (path', pkt)) : Receives 0 pkt
  | next {i : Nat} {pkt pkt' : OnionPacket} {out : ProcessedPacket} (hprev : Receives i pkt)
      (hout : (R.router i).reconstructOnionPacket pkt R.assocData = .ok out)
      (hnext : out.nextPacket = some pkt') : Receives (i + 1) pkt'

theorem secret_of_ok {i : Nat} {secret : Hash256}
    (h : (R.router i).generateSharedSecret (R.packetAt i).ephemeralKey = .ok secret) :
    secret = R.secret i := by
  rw [Router.generateSharedSecret] at h
  split at h
  · exact (Except.ok.inj h).symm
  · cases h

/-- What arrives at a hop is the packet the layers hold for it. -/
theorem eq_packetAt {E : Type} [AddCommGroup E] (C : CurveModel P E) {i : Nat} {pkt : OnionPacket}
    (h : R.Receives i pkt) (hi : i ≤ R.length) : pkt = R.packetAt i := by
  induction h with
  | first h =>
    rw [R.newOnionPacket_route C] at h
    exact (Prod.mk.inj (Option.some.inj h)).2.symm
  | @next i pkt pkt' out _ hout hnext ih =>
    obtain rfl := ih (by omega)
    rw [Router.reconstructOnionPacket] at hout
    cases hs : (R.router i).generateSharedSecret (R.packetAt i).ephemeralKey with
    | error err =>
      rw [hs] at hout
      cases hout
    | ok secret =>
      obtain rfl := R.secret_of_ok hs
      simp only [hs, processOnionPacket, R.unwrapPacket_packetAt (show i < R.length by omega)] at hout
      rw [← Except.ok.inj hout] at hnext
      exact (Option.some.inj hnext).symm

/-- And that packet does arrive. -/
theorem receives_packetAt {E : Type} [AddCommGroup E] (C : CurveModel P E)
    (hx : R.sessionKey.d % P.order ≠ 0) {i : Nat} (hi : i ≤ R.length)
    (hb : BlindingsNonzero R.sessionKey R.node i) : R.Receives i (R.packetAt i) := by
  induction i with
  | zero => exact .first (R.newOnionPacket_route C)
  | succ i ih =>
    have hb' : BlindingsNonzero R.sessionKey R.node i := fun j hj => hb j (by omega)
    have hout : ∃ action, (R.router i).reconstructOnionPacket (R.packetAt i) R.assocData =
        .ok ⟨action, R.instructions i, some (R.packetAt (i + 1))⟩ := by
      simp only [Router.reconstructOnionPacket, R.generateSharedSecret_packetAt C hx hb',
        processOnionPacket, R.unwrapPacket_packetAt hi]
      exact ⟨_, rfl⟩
    obtain ⟨action, hout⟩ := hout
    exact .next (ih (by omega) hb') hout rfl

/-- The routing info has a fixed size, so the message has only one reading. -/
theorem message_injective {info info' : Bytes routingInfoSize} {assocData assocData' : List UInt8}
    (h : info'.toList ++ assocData' = info.toList ++ assocData) : (info', assocData') = (info, assocData) := by
  obtain ⟨hinfo, hassoc⟩ := List.append_inj h (by rw [info'.toList_length, info.toList_length])
  rw [List.Vector.eq _ _ hinfo, hassoc]

theorem examine_of_mac_ne {r : Router P} {pkt : OnionPacket} {assocData : List UInt8} {secret : Hash256}
    (hs : r.generateSharedSecret pkt.ephemeralKey = .ok secret)
    (hmac : pkt.headerMAC ≠
      calcMac P (generateKey P .mu secret) (pkt.routingInfo.toList ++ assocData)) :
    r.examine pkt assocData = .error .errInvalidOnionHMAC := by
  refine Router.examine_eq_error.mpr (.inr ⟨secret, hs, ?_⟩)
  have hunwrap : unwrapLayer (layerKeys P secret) pkt.routingInfo pkt.headerMAC assocData =
      .error .errInvalidOnionHMAC := by
    rw [unwrapLayer]
    exact if_neg hmac
  rw [processOnionPacket, unwrapPacket, hunwrap]

/-- **Integrity of header and associated data.** At every hop, the honest key and MAC
with any other routing info and associated data are refused by all three ways of
processing a packet, and nothing is recorded: neither in the log nor in a
transaction. Only the honest message may have its MAC. -/
theorem tampered_rejected {E : Type} [AddCommGroup E] (C : CurveModel P E)
    (hx : R.sessionKey.d % P.order ≠ 0) {i : Nat} (hi : i < R.path.trueRouteLength)
    (hb : BlindingsNonzero R.sessionKey R.node i) {pkt : OnionPacket} (hpkt : R.Receives i pkt)
    (hinj : ∀ msg, calcMac P (generateKey P .mu (hopSecret R.sessionKey R.node i)) msg =
      calcMac P (generateKey P .mu (hopSecret R.sessionKey R.node i))
        (pkt.routingInfo.toList ++ R.assocData) → msg = pkt.routingInfo.toList ++ R.assocData)
    (info : Bytes routingInfoSize) (assocData : List UInt8)
    (hne : (info, assocData) ≠ (pkt.routingInfo, R.assocData)) :
    (∀ log cltv, (R.router i).processOnionPacket log {pkt with routingInfo := info} assocData cltv =
        (log, .error .errInvalidOnionHMAC)) ∧
      (R.router i).reconstructOnionPacket {pkt with routingInfo := info} assocData =
        .error .errInvalidOnionHMAC ∧
      ∀ (t : Tx P), t.router = R.router i → ∀ seqNum cltv,
        t.processOnionPacket seqNum {pkt with routingInfo := info} assocData cltv =
          some (t, some .errInvalidOnionHMAC) := by
  obtain rfl := R.eq_packetAt C hpkt (Nat.le_of_lt hi)
  have hmac : (R.packetAt i).headerMAC ≠
      calcMac P (generateKey P .mu (R.secret i)) (info.toList ++ assocData) := by
    intro heq
    rw [R.headerMAC_eq hi] at heq
    exact hne (message_injective (hinj _ heq.symm))
  have hexamine : (R.router i).examine {R.packetAt i with routingInfo := info} assocData =
      .error .errInvalidOnionHMAC :=
    examine_of_mac_ne (R.generateSharedSecret_packetAt C hx hb) hmac
  refine ⟨Router.processOnionPacket_error hexamine, Router.reconstructOnionPacket_error hexamine,
    fun t ht => ?_⟩
  rw [← ht] at hexamine
  exact Tx.processOnionPacket_error hexamine

/-- A MAC that tells the all-zero header from every other message. -/
def zeroHeaderMac (_ msg : List UInt8) : Bytes 32 :=
  if msg = List.replicate routingInfoSize 0 then sampleHash else zeroBytes 32

theorem zeroHeaderMac_injective {key msg : List UInt8}
    (h : zeroHeaderMac key msg = zeroHeaderMac key (List.replicate routingInfoSize 0)) :
    msg = List.replicate routingInfoSize 0 := by
  by_contra hne
  rw [zeroHeaderMac, zeroHeaderMac, if_neg hne, if_pos rfl] at h
  exact sampleHash_ne_zero h.symm

/-- Without keystream and without instructions, the header for the last of two hops is
all zeroes. -/
theorem sampleRoute_header (hmac : (key msg : List UInt8) → Bytes 32) :
    ((sampleRoute hmac 2 (by decide) (by decide)).packetAt 1).routingInfo.toList =
      List.replicate routingInfoSize 0 := by
  let R := sampleRoute hmac 2 (by decide) (by decide)
  have hlen : R.path.trueRouteLength = 2 := trueRouteLength_samplePath 2 (by decide)
  have hpad : ∀ n m, pad (blanks n) (blanks m) = (blanks (min m n) : List UInt8) := by
    intro n m
    rw [blanks_pad, blanks, List.take_replicate, Nat.min_comm]
    rfl
  have hstream : ∀ i, i < 2 → rhoStream R.keys i = blanks numStreamBytes := by
    intro i hi
    rw [rhoStream, R.keys_eq (Nat.lt_of_lt_of_eq hi hlen.symm), layerKeys_rho, generateCipherStream]
    simp [samplePrimitives, transparent, blanks, Alphabet.blank]
  have hinstr : (hopDataAt R.keys R.path R.assocData 1).encode = blanks hopDataSize := by
    have hzero : (R.packetAt 2).headerMAC = zeroHMAC := hlen ▸ R.headerMAC_length
    have hempty : hopDataAt R.keys R.path R.assocData 1 = .empty := by
      refine (R.instructions_eq 1).trans ?_
      rw [hzero]
      rfl
    rw [hempty]
    decide
  have hfill : routeFiller R.keys R.path = blanks hopDataSize := by
    rw [routeFiller, hlen]
    show pad (blanks hopDataSize) ((rhoStream R.keys 0).rtake (1 * hopDataSize)) = _
    rw [hstream 0 (by decide), List.rtake, length_blanks, blanks, blanks, List.drop_replicate]
    exact hpad _ _
  have hwrap : wrap routingInfoSize (blanks numStreamBytes) (blanks hopDataSize)
      (zeroBytes routingInfoSize).toList = (blanks routingInfoSize : List UInt8) := by
    have hinner : (zeroBytes routingInfoSize).toList = blanks routingInfoSize := rfl
    rw [hinner, wrap, length_blanks, blanks, blanks, blanks, List.take_replicate, List.take_replicate,
      List.replicate_append_replicate]
    exact hpad _ _
  have hlast := headerAt_last R.keys R.path R.assocData R.pos
  rw [hlen, Nat.add_sub_cancel 1 1, hfill, hstream 1 (by decide), hinstr, hwrap, overwriteTail,
    List.rdrop, length_blanks, length_blanks, blanks, List.take_replicate, blanks,
    List.replicate_append_replicate] at hlast
  rw [R.routingInfo_packetAt (Nat.lt_of_lt_of_eq Nat.one_lt_two hlen.symm)]
  exact hlast

/-- Two hops with that MAC: the second refuses another header. -/
theorem sampleRoute_tampered :
    let R := sampleRoute zeroHeaderMac 2 (by decide) (by decide)
    let info : Bytes routingInfoSize := ⟨List.replicate routingInfoSize 1, List.length_replicate⟩
    R.Receives 1 (R.packetAt 1) ∧
      ∀ log cltv, (R.router 1).processOnionPacket log {R.packetAt 1 with routingInfo := info} [] cltv =
        (log, .error .errInvalidOnionHMAC) := by
  intro R info
  have hlen : R.path.trueRouteLength = 2 := trueRouteLength_samplePath 2 (by decide)
  have hlt : 1 < R.path.trueRouteLength := Nat.lt_of_lt_of_eq Nat.one_lt_two hlen.symm
  have hzeroes := sampleRoute_header zeroHeaderMac
  have hhonest : (R.packetAt 1).routingInfo.toList ++ R.assocData =
      List.replicate routingInfoSize 0 := by
    rw [hzeroes]
    exact List.append_nil _
  have hinj : ∀ key msg, zeroHeaderMac key msg =
      zeroHeaderMac key ((R.packetAt 1).routingInfo.toList ++ R.assocData) →
      msg = (R.packetAt 1).routingInfo.toList ++ R.assocData := by
    rw [hhonest]
    exact fun key msg h => zeroHeaderMac_injective h
  have hne : (info, ([] : List UInt8)) ≠ ((R.packetAt 1).routingInfo, R.assocData) := by
    intro h
    have hinfo := congrArg List.Vector.toList (Prod.mk.inj h).1
    rw [hzeroes, List.Vector.toList_mk] at hinfo
    exact absurd ((List.replicate_right_inj (by decide)).mp hinfo) (by decide)
  have hx : R.sessionKey.d % 5 ≠ 0 := by decide
  have hb : BlindingsNonzero R.sessionKey R.node 1 :=
    sampleRoute_blindings zeroHeaderMac 2 (by decide) (by decide) 1
  clear_value R info
  have hpkt := R.receives_packetAt (sampleCurve _) hx (Nat.le_of_lt hlt) hb
  exact ⟨hpkt, (R.tampered_rejected (sampleCurve _) hx hlt hb hpkt (hinj []) info [] hne).1⟩

end Route

end LightningOnion
