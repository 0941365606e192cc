import LightningOnion.Crypto.Transparent
import LightningOnion.Packet.Codec
import LightningOnion.Router.Tx

/-! From the sender to every hop.

A `Route` is what a sender knows of a payment: the path, the session key and the
associated data, with the keys of the nodes on the path. `packetAt i` is the packet
that travels to hop `i`; the construction makes the first one, and each hop, given
its packet, finds its own instructions and the packet of the next hop. -/
namespace LightningOnion
open Lib

/-- A path of at least one hop to nodes with known keys. -/
structure Route (P : Primitives) where
  path : PaymentPath
  node : Nat → PrivateKey P
  sessionKey : PrivateKey P
  assocData : List UInt8
  pos : 0 < path.trueRouteLength
  nodePub : ∀ i, i < path.trueRouteLength → (path.hop i).nodePub = (node i).pubKey

namespace Route
variable {P : Primitives} (R : Route P)

/-- The number of hops. -/
abbrev length : Nat := R.path.trueRouteLength

/-- Hop `i`'s router. -/
def router (i : Nat) : Router P := ⟨R.node i⟩

/-- The shared secret of hop `i`, from the key it receives. -/
def secret (i : Nat) : Hash256 := hopSecret R.sessionKey R.node i

/-- The layer keys the sender builds the packet with. -/
def keys : Nat → LayerKeys := secretKeys P ((List.range R.length).map R.secret)

/-- The path as the construction leaves it. -/
def finalPath : PaymentPath := (stateAt R.keys R.path R.assocData 0).paymentPath

/-- The instructions of hop `i`. -/
def instructions (i : Nat) : HopData := hopDataAt R.keys R.path R.assocData i

/-- The header that travels to hop `i`, or is left over after the last one. -/
def routingInfoAt (i : Nat) : Bytes routingInfoSize :=
  if i < R.length then headerAt R.keys R.path R.assocData i
  else exitHeader R.keys R.path R.pos

/-- The packet that travels to hop `i`. -/
def packetAt (i : Nat) : OnionPacket :=
  ⟨baseVersion, hopEphemeral R.sessionKey R.node i, R.routingInfoAt i,
    macAt R.keys R.path R.assocData i⟩

theorem routingInfo_packetAt {i : Nat} (hi : i < R.length) :
    (R.packetAt i).routingInfo = headerAt R.keys R.path R.assocData i := if_pos hi

theorem keys_eq {i : Nat} (hi : i < R.length) : R.keys i = layerKeys P (R.secret i) := by
  rw [keys, secretKeys, List.getD_eq_getElem?_getD, List.getElem?_map, List.getElem?_range hi]
  rfl

theorem headerMAC_eq {i : Nat} (hi : i < R.length) : (R.packetAt i).headerMAC =
    calcMac P (generateKey P .mu (R.secret i))
      ((R.packetAt i).routingInfo.toList ++ R.assocData) := by
  have hmac := macAt_eq R.keys R.path R.assocData hi
  rw [R.keys_eq hi] at hmac
  rw [R.routingInfo_packetAt hi]
  exact hmac

theorem headerMAC_length : (R.packetAt R.length).headerMAC = zeroHMAC :=
  macAt_length R.keys R.path R.assocData

theorem instructions_eq (i : Nat) : R.instructions i =
    {(R.path.hop i).hopData with hmac := (R.packetAt (i + 1)).headerMAC} := rfl

theorem finalPath_hop {i : Nat} (hi : i < R.length) :
    (R.finalPath.hop i).hopData = R.instructions i :=
  hopData_stateAt_zero R.keys R.path R.assocData hi

/-- **Hop `i` unwraps its packet into its instructions and the packet of hop `i + 1`.** -/
theorem unwrapPacket_packetAt {i : Nat} (hi : i < R.length) :
    unwrapPacket P (R.packetAt i) (R.secret i) R.assocData =
      .ok (R.packetAt (i + 1), R.instructions i) := by
  have hunwrap : unwrapLayer (layerKeys P (R.secret i)) (R.packetAt i).routingInfo
      (R.packetAt i).headerMAC R.assocData = .ok (R.instructions i, R.routingInfoAt (i + 1)) := by
    rw [R.routingInfo_packetAt hi, ← R.keys_eq hi, routingInfoAt]
    by_cases hlast : i + 1 < R.length
    · rw [if_pos hlast]
      exact unwrapLayer_layer R.keys R.path R.assocData hlast
    · rw [if_neg hlast]
      obtain rfl : i = R.length - 1 := by omega
      exact unwrapLayer_last R.keys R.path R.assocData R.pos
  rw [unwrapPacket, hunwrap]
  rfl

/-- What hop `i` gets out of its packet. -/
def processedAt (i : Nat) : ProcessedPacket :=
  ⟨if i + 1 < R.length then .moreHops else .exitNode, R.instructions i, some (R.packetAt (i + 1))⟩

/-- No layer inside the outermost has an all-zero MAC, which would read as the end of
the route. -/
def NoZeroMac : Prop := ∀ i, i + 1 < R.length → (R.finalPath.hop i).hopData.hmac ≠ zeroHMAC

theorem processOnionPacket_packetAt (hz : R.NoZeroMac) {i : Nat} (hi : i < R.length) :
    processOnionPacket P (R.packetAt i) (R.secret i) R.assocData = .ok (R.processedAt i) := by
  rw [processOnionPacket, R.unwrapPacket_packetAt hi, processedAt]
  simp only
  by_cases hlast : i + 1 < R.length
  · have hne := hz i hlast
    rw [R.finalPath_hop hi] at hne
    rw [if_pos hlast, if_neg (Ne.symm hne)]
  · obtain rfl : i = R.length - 1 := by omega
    have hnext : R.length - 1 + 1 = R.length := Nat.sub_add_cancel R.pos
    have hzero : (R.instructions (R.length - 1)).hmac = zeroHMAC := by
      rw [R.instructions_eq, hnext, R.headerMAC_length]
    rw [if_neg hlast, if_pos hzero.symm]

/-! ### On the curve -/

section Curve
variable {E : Type} [AddCommGroup E] (C : CurveModel P E)
include C

theorem newOnionPacket_route :
    newOnionPacket P R.path R.sessionKey R.assocData = some (R.finalPath, R.packetAt 0) := by
  have hkeys := R.path.nodeKeys_eq (fun j => (R.node j).pubKey) R.nodePub
  have hsecrets := generateSharedSecrets_eq C R.sessionKey R.node R.length R.pos
  rw [newOnionPacket_eq P R.path R.sessionKey R.assocData (hkeys ▸ hsecrets)]
  refine (newOnionPacketWith_eq R.keys R.path R.assocData _ R.pos).trans ?_
  have hfirst : R.packetAt 0 = ⟨baseVersion, R.sessionKey.pubKey,
      headerAt R.keys R.path R.assocData 0, macAt R.keys R.path R.assocData 0⟩ := by
    rw [← R.routingInfo_packetAt R.pos]
    rfl
  rw [hfirst]
  rfl

variable (hx : R.sessionKey.d % P.order ≠ 0)
include hx

/-- Hop `i` accepts the key on its packet, and derives its secret from it. -/
theorem generateSharedSecret_packetAt {i : Nat} (hb : BlindingsNonzero R.sessionKey R.node i) :
    (R.router i).generateSharedSecret (R.packetAt i).ephemeralKey = .ok (R.secret i) := by
  have hcurve := (hopEphemeral_isOnCurve C R.sessionKey R.node hx i hb).2
  exact if_pos hcurve

theorem examine_packetAt (hz : R.NoZeroMac) {i : Nat} (hi : i < R.length)
    (hb : BlindingsNonzero R.sessionKey R.node i) :
    (R.router i).examine (R.packetAt i) R.assocData =
      .ok (hashSharedSecret P (R.secret i), R.processedAt i) :=
  Router.examine_eq_ok.mpr ⟨R.secret i, R.generateSharedSecret_packetAt C hx hb,
    R.processOnionPacket_packetAt hz hi, rfl⟩

/-- Whatever its next MAC is, it finds nothing wrong with the packet. -/
theorem examine_packetAt_ok {i : Nat} (hi : i < R.length)
    (hb : BlindingsNonzero R.sessionKey R.node i) : ∃ packet,
      (R.router i).examine (R.packetAt i) R.assocData = .ok (hashSharedSecret P (R.secret i), packet) := by
  obtain ⟨packet, hprocess⟩ := processOnionPacket_of_mac P (R.headerMAC_eq hi)
  exact ⟨packet, Router.examine_eq_ok.mpr
    ⟨R.secret i, R.generateSharedSecret_packetAt C hx hb, hprocess, rfl⟩⟩

/-- The packet of hop `i` survives the wire, whatever follows it there. -/
theorem decode_packetAt_append {i : Nat} (hb : BlindingsNonzero R.sessionKey R.node i)
    (rest : List UInt8) (cuts : List Nat) :
    ∃ cuts', OnionPacket.decode P ⟨(R.packetAt i).encode P ++ rest, cuts⟩ =
      .ok (R.packetAt i, ⟨rest, cuts'⟩) := by
  have hne := (hopEphemeral_isOnCurve C R.sessionKey R.node hx i hb).1
  have hpoint := hopEphemeral_eq C R.sessionKey R.node i
  have hlen := C.length_serialize _ hne
  have hparse := C.parse_serialize _ hne
  rw [← hpoint] at hlen hparse
  exact OnionPacket.decode_encode P (R.packetAt i) rfl hlen hparse rest cuts

theorem decode_packetAt {i : Nat} (hb : BlindingsNonzero R.sessionKey R.node i) (cuts : List Nat) :
    ∃ cuts', OnionPacket.decode P ⟨(R.packetAt i).encode P, cuts⟩ =
      .ok (R.packetAt i, ⟨[], cuts'⟩) := by
  have := R.decode_packetAt_append C hx hb [] cuts
  rwa [List.append_nil] at this

end Curve

/-! ### A route to try it on -/

/-- `n` hops to the same node, without instructions. -/
def samplePath (n : Nat) : PaymentPath := PaymentPath.repeated ⟨residuePoint 1, .empty⟩ n

theorem trueRouteLength_samplePath (n : Nat) (hn : n ≤ numMaxHops) :
    (samplePath n).trueRouteLength = n :=
  PaymentPath.trueRouteLength_repeated rfl hn

section Sample
variable (hmac : (key msg : List UInt8) → Bytes 32)

def sampleRoute (n : Nat) (hpos : 0 < n) (hle : n ≤ numMaxHops) : Route (samplePrimitives hmac) where
  path := samplePath n
  node := fun _ => sampleKey hmac
  sessionKey := sampleKey hmac
  assocData := []
  pos := by rwa [trueRouteLength_samplePath n hle]
  nodePub := fun i hi => by
    rw [trueRouteLength_samplePath n hle] at hi
    rw [samplePath, PaymentPath.hop_repeated _ hle hi]
    rfl

theorem sampleRoute_blindings (n : Nat) (hpos : 0 < n) (hle : n ≤ numMaxHops) (i : Nat) :
    BlindingsNonzero (sampleRoute hmac n hpos hle).sessionKey (sampleRoute hmac n hpos hle).node i := by
  intro j _
  show beNat sampleHash.toList % 5 ≠ 0
  decide

end Sample

/-! ### Delivery -/

/-- **End-to-end delivery.** Packet 0 is what the sender makes; the router of every
hop, sent its packet over any stream and with a started log that has not seen its
secret, accepts it, and gets its own instructions and the packet for the next hop. -/
theorem delivery {E : Type} [AddCommGroup E] (C : CurveModel P E)
    (hx : R.sessionKey.d % P.order ≠ 0)
    (hb : BlindingsNonzero R.sessionKey R.node (R.length - 1))
    (hz : ∀ path' pkt, newOnionPacket P R.path R.sessionKey R.assocData = some (path', pkt) →
      ∀ i, i + 1 < R.length → (path'.hop i).hopData.hmac ≠ zeroHMAC) :
    ∃ (path' : PaymentPath) (pkt : Nat → OnionPacket),
      newOnionPacket P R.path R.sessionKey R.assocData = some (path', pkt 0) ∧
      (pkt R.length).headerMAC = zeroHMAC ∧
      ∀ i, i < R.length →
        (path'.hop i).hopData = {(R.path.hop i).hopData with hmac := (pkt (i + 1)).headerMAC} ∧
        (∀ cuts, ∃ cuts', OnionPacket.decode P ⟨(pkt i).encode P, cuts⟩ =
          .ok (pkt i, ⟨[], cuts'⟩)) ∧
        ∃ secret, (R.router i).generateSharedSecret (pkt i).ephemeralKey = .ok secret ∧
          (pkt i).headerMAC = calcMac P (generateKey P .mu secret)
            ((pkt i).routingInfo.toList ++ R.assocData) ∧
          ∀ (bs : LogBatches) (es : LogEntries) (cltv : UInt32), hashSharedSecret P secret ∉ es →
            (R.router i).processOnionPacket (.started bs es) (pkt i) R.assocData cltv =
              (.started bs (es.insert (hashSharedSecret P secret) cltv),
                .ok ⟨if i + 1 < R.length then .moreHops else .exitNode,
                  (path'.hop i).hopData, some (pkt (i + 1))⟩) := by
  have hnew := R.newOnionPacket_route C
  have hzero : R.NoZeroMac := hz _ _ hnew
  refine ⟨R.finalPath, R.packetAt, hnew, R.headerMAC_length, fun i hi => ?_⟩
  have hbi : BlindingsNonzero R.sessionKey R.node i := fun j hj => hb j (by omega)
  refine ⟨R.finalPath_hop hi, R.decode_packetAt C hx hbi, R.secret i,
    R.generateSharedSecret_packetAt C hx hbi, R.headerMAC_eq hi, fun bs es cltv hm => ?_⟩
  rw [R.finalPath_hop hi]
  exact Router.processOnionPacket_fresh bs es (R.examine_packetAt C hx hzero hi hbi) cltv hm

/-- Over two hops with a constant MAC: the first forwards, the second is the last. -/
theorem sampleRoute_delivery : ∃ (path' : PaymentPath) (pkt : Nat → OnionPacket),
    newOnionPacket (samplePrimitives fun _ _ => sampleHash) (samplePath 2) (sampleKey _) [] =
        some (path', pkt 0) ∧
      ∀ i, i < 2 → ((⟨sampleKey fun _ _ => sampleHash⟩ : Router _).processOnionPacket
        (.started ∅ ∅) (pkt i) [] 0).2 =
          .ok ⟨if i + 1 < 2 then .moreHops else .exitNode, (path'.hop i).hopData,
            some (pkt (i + 1))⟩ := by
  let R := sampleRoute (fun _ _ => sampleHash) 2 (by decide) (by decide)
  have hlen : R.length = 2 := trueRouteLength_samplePath 2 (by decide)
  have hz : ∀ path' pkt, newOnionPacket _ R.path R.sessionKey R.assocData = some (path', pkt) →
      ∀ i, i + 1 < R.length → (path'.hop i).hopData.hmac ≠ zeroHMAC := by
    intro path' pkt hnew i hi
    rw [R.newOnionPacket_route (sampleCurve _)] at hnew
    cases hnew
    rw [R.finalPath_hop (by omega), R.instructions_eq, R.headerMAC_eq hi]
    exact sampleHash_ne_zero
  obtain ⟨path', pkt, hnew, -, hhops⟩ := R.delivery (sampleCurve _) (by decide)
    (sampleRoute_blindings _ 2 (by decide) (by decide) _) hz
  refine ⟨path', pkt, hnew, fun i hi => ?_⟩
  obtain ⟨-, -, secret, -, -, hprocess⟩ := hhops i (by omega)
  have := hprocess ∅ ∅ 0 Finmap.notMem_empty
  rw [hlen] at this
  exact congrArg Prod.snd this

end Route

end LightningOnion
