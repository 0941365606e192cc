import LightningOnion.Packet.Construct

/-! Peeling a layer off an onion packet.

`unwrapLayer` is the part of `unwrapPacket` that uses the layer's keys: the MAC
check, the decryption and the parse. It inverts a layer of the construction
(`unwrapLayer_layer`, `unwrapLayer_last`); parsing never fails
(`unwrapLayer_eq`). -/
namespace LightningOnion
open Lib

/-- What to do after processing a packet. -/
inductive ProcessCode where
  /-- The node is the destination. -/
  | exitNode
  /-- The packet is to be forwarded. -/
  | moreHops
  | failure
  deriving DecidableEq, Repr

structure ProcessedPacket where
  action : ProcessCode
  forwardingInstructions : HopData
  nextPacket : Option OnionPacket
  deriving DecidableEq

/-- A freshly allocated `ProcessedPacket`. -/
def ProcessedPacket.empty : ProcessedPacket := ⟨.exitNode, .empty, none⟩

/-- Checks the MAC, decrypts the header with its zero padding, parses the hop data
and snips it off. -/
def unwrapLayer (k : LayerKeys) (routeInfo : Bytes routingInfoSize) (headerMac : Bytes hmacSize)
    (assocData : List UInt8) : Except Error (HopData × Bytes routingInfoSize) :=
  if headerMac = k.mu (routeInfo.toList ++ assocData) then
    let headerWithPadding := routeInfo.toList ++ List.replicate hopDataSize 0
    let hopInfo := xor (zeroBytes numStreamBytes).toList headerWithPadding k.rho.toList
    match HopData.decode (Reader.ofBytes hopInfo) with
    | .error e => .error e
    | .ok (hopData, _) =>
      .ok (hopData, ⟨copyAt (zeroBytes routingInfoSize).toList 0 (hopInfo.drop hopDataSize), by
        rw [length_copyAt, List.Vector.toList_length]⟩)
  else .error .errInvalidOnionHMAC

section
variable (P : Primitives)

/-- Unwraps a layer of the packet: the next inner packet, and the hop data. -/
def unwrapPacket (onionPkt : OnionPacket) (sharedSecret : Hash256) (assocData : List UInt8) :
    Except Error (OnionPacket × HopData) :=
  match unwrapLayer (layerKeys P sharedSecret) onionPkt.routingInfo onionPkt.headerMAC assocData with
  | .error e => .error e
  | .ok (hopData, nextMixHeader) =>
    let blindingFactor := computeBlindingFactor P onionPkt.ephemeralKey sharedSecret.toList
    let nextDHKey := blindGroupElement P onionPkt.ephemeralKey blindingFactor.toList
    .ok (⟨onionPkt.version, nextDHKey, nextMixHeader, hopData.hmac⟩, hopData)

/-- Unwraps a layer and decides what to do with what is left. -/
def processOnionPacket (onionPkt : OnionPacket) (sharedSecret : Hash256) (assocData : List UInt8) :
    Except Error ProcessedPacket :=
  match unwrapPacket P onionPkt sharedSecret assocData with
  | .error e => .error e
  | .ok (innerPkt, outerHopData) =>
    let action := if zeroHMAC = outerHopData.hmac then ProcessCode.exitNode else .moreHops
    .ok ⟨action, outerHopData, some innerPkt⟩

end

theorem hopInfo_eq (k : LayerKeys) (routeInfo : Bytes routingInfoSize) :
    xor (zeroBytes numStreamBytes).toList (routeInfo.toList ++ List.replicate hopDataSize 0)
      k.rho.toList = peel hopDataSize k.rho.toList routeInfo.toList := by
  have hlen : (routeInfo.toList ++ List.replicate hopDataSize (0 : UInt8)).length = numStreamBytes := by
    rw [List.length_append, List.Vector.toList_length, List.length_replicate]
    rfl
  rw [xor_eq _ _ _ (by rw [hlen, List.Vector.toList_length, List.Vector.toList_length]; simp), hlen,
    List.Vector.toList_length, Nat.min_self, List.drop_of_length_le (by simp), List.append_nil]
  rfl

theorem length_peel (k : LayerKeys) (routeInfo : Bytes routingInfoSize) :
    (peel hopDataSize k.rho.toList routeInfo.toList).length = numStreamBytes := by
  rw [← hopInfo_eq, length_xor, List.Vector.toList_length]

/-- The MAC check decides; what passes it always parses, into the peeled header. -/
theorem unwrapLayer_eq (k : LayerKeys) (routeInfo : Bytes routingInfoSize) (headerMac : Bytes hmacSize)
    (assocData : List UInt8) :
    ∃ hd next, hd.encode ++ next.toList = peel hopDataSize k.rho.toList routeInfo.toList ∧
      unwrapLayer k routeInfo headerMac assocData =
        if headerMac = k.mu (routeInfo.toList ++ assocData) then .ok (hd, next)
        else .error .errInvalidOnionHMAC := by
  have hlen := length_peel k routeInfo
  obtain ⟨hd, cuts', henc, hdec⟩ := HopData.decode_of_le
    (peel hopDataSize k.rho.toList routeInfo.toList) [] (by rw [hlen]; decide)
  have hdrop : ((peel hopDataSize k.rho.toList routeInfo.toList).drop hopDataSize).length =
      routingInfoSize := by
    rw [List.length_drop, hlen]
    rfl
  refine ⟨hd, ⟨(peel hopDataSize k.rho.toList routeInfo.toList).drop hopDataSize, hdrop⟩, ?_, ?_⟩
  · show hd.encode ++ (peel hopDataSize k.rho.toList routeInfo.toList).drop hopDataSize = _
    rw [henc, List.take_append_drop]
  · unfold unwrapLayer
    split
    · simp only [hopInfo_eq, Reader.ofBytes, hdec]
      have hcopy : copyAt (zeroBytes routingInfoSize).toList 0
          ((peel hopDataSize k.rho.toList routeInfo.toList).drop hopDataSize) =
          (peel hopDataSize k.rho.toList routeInfo.toList).drop hopDataSize := by
        have hall : (zeroBytes routingInfoSize).toList.drop routingInfoSize = [] :=
          List.drop_of_length_le (by rw [List.Vector.toList_length])
        rw [copyAt_zero _ _ (by rw [hdrop, List.Vector.toList_length]), hdrop, hall, List.append_nil]
      simp only [hcopy]
    · rfl

theorem unwrapLayer_of_peel {k : LayerKeys} {routeInfo : Bytes routingInfoSize}
    {assocData : List UInt8} {hd : HopData} {next : Bytes routingInfoSize}
    (h : peel hopDataSize k.rho.toList routeInfo.toList = hd.encode ++ next.toList) :
    unwrapLayer k routeInfo (k.mu (routeInfo.toList ++ assocData)) assocData = .ok (hd, next) := by
  obtain ⟨hd', next', henc, hunwrap⟩ :=
    unwrapLayer_eq k routeInfo (k.mu (routeInfo.toList ++ assocData)) assocData
  rw [if_pos rfl] at hunwrap
  rw [h] at henc
  obtain ⟨hfront, hback⟩ := List.append_inj henc (by simp)
  rw [hunwrap, HopData.encode_injective hfront, List.Vector.eq _ _ hback]

theorem processOnionPacket_of_mac (P : Primitives) {pkt : OnionPacket} {secret : Hash256}
    {assocData : List UInt8}
    (hmac : pkt.headerMAC =
      calcMac P (generateKey P .mu secret) (pkt.routingInfo.toList ++ assocData)) :
    ∃ packet, processOnionPacket P pkt secret assocData = .ok packet := by
  obtain ⟨hd, next, -, hunwrap⟩ := unwrapLayer_eq (layerKeys P secret) pkt.routingInfo
    pkt.headerMAC assocData
  rw [if_pos (show pkt.headerMAC = (layerKeys P secret).mu _ from hmac)] at hunwrap
  simp only [processOnionPacket, unwrapPacket, hunwrap]
  exact ⟨_, rfl⟩

/-- Associated data is only checked: whichever passes the check, the result is the same. -/
theorem unwrapLayer_assocData {k : LayerKeys} {routeInfo : Bytes routingInfoSize}
    {headerMac : Bytes hmacSize} {assocData assocData' : List UInt8}
    {found found' : HopData × Bytes routingInfoSize}
    (h : unwrapLayer k routeInfo headerMac assocData = .ok found)
    (h' : unwrapLayer k routeInfo headerMac assocData' = .ok found') : found = found' := by
  unfold unwrapLayer at h h'
  split at h
  · split at h'
    · exact Except.ok.inj (h.symm.trans h')
    · cases h'
  · cases h

theorem processOnionPacket_assocData {P : Primitives} {pkt : OnionPacket} {secret : Hash256}
    {assocData assocData' : List UInt8} {packet packet' : ProcessedPacket}
    (h : processOnionPacket P pkt secret assocData = .ok packet)
    (h' : processOnionPacket P pkt secret assocData' = .ok packet') : packet = packet' := by
  unfold processOnionPacket unwrapPacket at h h'
  cases hu : unwrapLayer (layerKeys P secret) pkt.routingInfo pkt.headerMAC assocData with
  | error e =>
    simp only [hu] at h
    cases h
  | ok found =>
    cases hu' : unwrapLayer (layerKeys P secret) pkt.routingInfo pkt.headerMAC assocData' with
    | error e =>
      simp only [hu'] at h'
      cases h'
    | ok found' =>
      rw [hu] at h
      rw [hu', ← unwrapLayer_assocData hu hu'] at h'
      exact Except.ok.inj (h.symm.trans h')

section Layers
variable (keys : Nat → LayerKeys) (path : PaymentPath) (assocData : List UInt8)

/-- **Unwrapping a layer gives the hop its data and the next layer.** -/
theorem unwrapLayer_layer {i : Nat} (hi : i + 1 < path.trueRouteLength) :
    unwrapLayer (keys i) (headerAt keys path assocData i) (macAt keys path assocData i) assocData =
      .ok (hopDataAt keys path assocData i, headerAt keys path assocData (i + 1)) := by
  rw [macAt_eq keys path assocData (by omega)]
  exact unwrapLayer_of_peel ((layers keys path assocData (by omega)).peel_header hi)

/-- What the last hop finds behind its data: the header's untouched zeroes, the
filler without the hop's keystream, and the end of the keystream. -/
def exitRemainder : List UInt8 :=
  List.replicate (routingInfoSize - path.trueRouteLength * hopDataSize) 0 ++
    (pad (routeFiller keys path) (((rhoStream keys (path.trueRouteLength - 1)).drop
      (routingInfoSize - (path.trueRouteLength - 1) * hopDataSize)).take
        ((path.trueRouteLength - 1) * hopDataSize)) ++
    (rhoStream keys (path.trueRouteLength - 1)).drop routingInfoSize)

theorem peel_exit (hpos : 0 < path.trueRouteLength) :
    peel hopDataSize (keys (path.trueRouteLength - 1)).rho.toList
      (headerAt keys path assocData (path.trueRouteLength - 1)).toList =
      (hopDataAt keys path assocData (path.trueRouteLength - 1)).encode ++ exitRemainder keys path := by
  refine (layers keys path assocData hpos).peel_last.trans ?_
  rw [exitRemainder]
  congr 2
  show (List.replicate routingInfoSize (0 : UInt8)).take _ = _
  rw [List.take_replicate, Nat.min_eq_left (Nat.sub_le _ _)]

theorem length_exitRemainder (hpos : 0 < path.trueRouteLength) :
    (exitRemainder keys path).length = routingInfoSize := by
  have h := congrArg List.length (peel_exit keys path [] hpos)
  rw [length_peel, List.length_append, HopData.length_encode] at h
  have : numStreamBytes = routingInfoSize + hopDataSize := rfl
  omega

/-- The same as a header: the routing info the last hop would forward. -/
def exitHeader (hpos : 0 < path.trueRouteLength) : Bytes routingInfoSize :=
  ⟨exitRemainder keys path, length_exitRemainder keys path hpos⟩

theorem unwrapLayer_last (hpos : 0 < path.trueRouteLength) :
    unwrapLayer (keys (path.trueRouteLength - 1))
      (headerAt keys path assocData (path.trueRouteLength - 1))
      (macAt keys path assocData (path.trueRouteLength - 1)) assocData =
      .ok (hopDataAt keys path assocData (path.trueRouteLength - 1), exitHeader keys path hpos) := by
  rw [macAt_eq keys path assocData (by omega)]
  exact unwrapLayer_of_peel (peel_exit keys path assocData hpos)

end Layers

/-! ### The filler -/

/-- A hop keeps the end of the header what the sender computed it to be: whatever
it unwraps that ends in the filler at hop `i` ends for the next in that at `i + 1`. -/
theorem unwrapLayer_tail (keys : Nat → LayerKeys) {i : Nat} (hi : i < numMaxHops)
    {header : Bytes routingInfoSize} {mac : Bytes hmacSize} {assocData : List UInt8} {hd : HopData}
    {next : Bytes routingInfoSize}
    (htail : header.toList.rtake (i * hopDataSize) = filler hopDataSize (rhoStream keys) i)
    (h : unwrapLayer (keys i) header mac assocData = .ok (hd, next)) :
    next.toList.rtake ((i + 1) * hopDataSize) = filler hopDataSize (rhoStream keys) (i + 1) := by
  have hmax : numMaxHops = 20 := rfl
  have hpeel := rtake_peel routingInfoSize hopDataSize (rhoStream keys) header.toList (i := i)
    header.toList_length (length_rhoStream keys i)
    (by rw [hopDataSize_eq, routingInfoSize_eq]; omega) htail
  obtain ⟨hd', next', henc, hunwrap⟩ := unwrapLayer_eq (keys i) header mac assocData
  rw [h] at hunwrap
  split at hunwrap
  · cases hunwrap
    have hbytes : hd.encode ++ next.toList = peel hopDataSize (rhoStream keys i) header.toList := henc
    rw [← hbytes, rtake_append_of_le] at hpeel
    · exact hpeel
    · rw [List.Vector.toList_length, hopDataSize_eq, routingInfoSize_eq]
      omega
  · cases hunwrap

/-- Whatever header the first hop unwraps, what arrives after `i` hops ends in the
filler at hop `i`. -/
theorem unwrapLayers_tail (keys : Nat → LayerKeys) (assocData : List UInt8)
    {header : Nat → Bytes routingInfoSize} {mac : Nat → Bytes hmacSize} {hd : Nat → HopData} {i : Nat}
    (hi : i ≤ numMaxHops)
    (h : ∀ j, j < i →
      unwrapLayer (keys j) (header j) (mac j) assocData = .ok (hd j, header (j + 1))) :
    (header i).toList.rtake (i * hopDataSize) = filler hopDataSize (rhoStream keys) i := by
  induction i with
  | zero =>
    rw [Nat.zero_mul, List.rtake, Nat.sub_zero, List.drop_length]
    rfl
  | succ i ih =>
    have hprev := ih (by omega) fun j hj => h j (by omega)
    exact unwrapLayer_tail keys hi hprev (h i (Nat.lt_succ_self i))

end LightningOnion
