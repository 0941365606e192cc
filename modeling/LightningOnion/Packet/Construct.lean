import LightningOnion.Packet.Filler
import LightningOnion.Crypto.SharedSecrets

/-! Building an onion packet.

`newOnionPacketWith` is `NewOnionPacket` over what a hop's shared secret is used
for: a keystream and a MAC per hop. `newOnionPacket` derives them from the session
key. The construction loop runs from the last hop to the first, with every index and
bound checked. `addLayer` is what an iteration leaves when nothing is out of range
(`buildLayer_eq`); `stateAt i` is the state when hop `i`'s layer is done, and `layers`
says that these states are the layers of a nested header. -/
namespace LightningOnion
open Lib

/-- The current supported version of onion packet. -/
def baseVersion : UInt8 := 0

structure OnionPacket where
  version : UInt8
  ephemeralKey : PublicKey
  routingInfo : Bytes routingInfoSize
  headerMAC : Bytes hmacSize
  deriving DecidableEq

/-- What a layer is built with: its keystream and its MAC. -/
structure LayerKeys where
  rho : Bytes numStreamBytes
  mu : List UInt8 → Bytes hmacSize

/-- The layer keys of a shared secret. -/
def layerKeys (P : Primitives) (secret : Hash256) : LayerKeys where
  rho := ⟨generateCipherStream P (generateKey P .rho secret) numStreamBytes,
    length_generateCipherStream P _ _⟩
  mu := calcMac P (generateKey P .mu secret)

theorem layerKeys_rho (P : Primitives) (secret : Hash256) : (layerKeys P secret).rho.toList =
    generateCipherStream P (generateKey P .rho secret) numStreamBytes := by
  simp only [layerKeys, List.Vector.toList]

/-- The path with hop `i`'s HMAC set. -/
def PaymentPath.setHMAC (p : PaymentPath) (i : Nat) (mac : Bytes hmacSize) : PaymentPath := fun j =>
  if j.val = i then {p j with hopData := {(p j).hopData with hmac := mac}} else p j

/-- `paymentPath[i].HopData.HMAC = mac`. -/
def PaymentPath.setHMAC? (p : PaymentPath) (i : Nat) (mac : Bytes hmacSize) : Option PaymentPath :=
  if i < numMaxHops then some (p.setHMAC i mac) else none

/-- `paymentPath[i]`. -/
def PaymentPath.hop? (p : PaymentPath) (i : Nat) : Option OnionHop :=
  if i < numMaxHops then some (p.hop i) else none

/-- The variables of the construction loop. -/
structure BuildState where
  paymentPath : PaymentPath
  mixHeader : Bytes routingInfoSize
  nextHmac : Bytes hmacSize

section Build
variable (keys : Nat → Option LayerKeys) (filler assocData : List UInt8) (numHops : Nat)

/-- The loop body for hop `i`. -/
def buildLayer (i : Nat) (st : BuildState) : Option BuildState := do
  let hopKeys ← keys i
  let paymentPath ← st.paymentPath.setHMAC? i st.nextHmac
  let mixHeader ← rightShift st.mixHeader.toList hopDataSize
  let hop ← paymentPath.hop? i
  let mixHeader := copyAt mixHeader 0 hop.hopData.encode
  let streamBytes ← slice hopKeys.rho.toList 0 routingInfoSize
  let mixHeader ← xor? mixHeader mixHeader streamBytes
  -- The "last" hop's tail is overridden.
  let mixHeader ← if i = numHops - 1 then copyTail mixHeader filler else some mixHeader
  let nextHmac := hopKeys.mu (mixHeader ++ assocData)
  return ⟨paymentPath, ← Bytes.ofSlice routingInfoSize mixHeader, nextHmac⟩

/-- `for i := k - 1; i >= 0; i--`. -/
def buildLayers : (k : Nat) → BuildState → Option BuildState
  | 0, st => some st
  | i + 1, st => do
    let st ← buildLayer keys filler assocData numHops i st
    buildLayers i st

end Build

/-- `NewOnionPacket` over the layer keys: the path with its HMACs filled in, and the packet. -/
def newOnionPacketWith (keys : Nat → LayerKeys) (ephemeralKey : PublicKey) (paymentPath : PaymentPath)
    (assocData : List UInt8) : Option (PaymentPath × OnionPacket) := do
  let numHops := paymentPath.trueRouteLength
  let filler ← headerPadding (fun i => some (keys i).rho.toList) numHops hopDataSize
  let st ← buildLayers (fun i => some (keys i)) filler assocData numHops numHops
    ⟨paymentPath, zeroBytes routingInfoSize, zeroBytes hmacSize⟩
  return (st.paymentPath, ⟨baseVersion, ephemeralKey, st.mixHeader, st.nextHmac⟩)

/-- Creates the onion packet for a path: the path as the call leaves it, and the
packet. -/
def newOnionPacket (P : Primitives) (paymentPath : PaymentPath) (sessionKey : PrivateKey P)
    (assocData : List UInt8) : Option (PaymentPath × OnionPacket) := do
  let numHops := paymentPath.trueRouteLength
  let hopSharedSecrets ← generateSharedSecrets P paymentPath.nodeKeys sessionKey
  let filler ← generateHeaderPadding P .rho numHops hopDataSize hopSharedSecrets
  let st ← buildLayers (fun i => (hopSharedSecrets[i]?).map (layerKeys P)) filler assocData numHops
    numHops ⟨paymentPath, zeroBytes routingInfoSize, zeroBytes hmacSize⟩
  return (st.paymentPath, ⟨baseVersion, sessionKey.pubKey, st.mixHeader, st.nextHmac⟩)

/-! ### One layer -/

theorem length_layer (k : LayerKeys) (hd : HopData) (inner : Bytes routingInfoSize) :
    (wrap routingInfoSize k.rho.toList hd.encode inner.toList).length = routingInfoSize := by
  have hle : hopDataSize ≤ routingInfoSize := by decide
  have hroom : routingInfoSize ≤ numStreamBytes := by decide
  apply length_wrap
  · rwa [List.Vector.toList_length]
  · rwa [HopData.length_encode]
  · rw [List.Vector.toList_length]
    exact Nat.le_add_right _ _

/-- An iteration in range. -/
def addLayer (keys : Nat → LayerKeys) (filler assocData : List UInt8) (numHops i : Nat)
    (st : BuildState) : BuildState :=
  let path := st.paymentPath.setHMAC i st.nextHmac
  let encrypted := wrap routingInfoSize (keys i).rho.toList (path.hop i).hopData.encode
    st.mixHeader.toList
  let header :=
    if i = numHops - 1 then copyAt encrypted (encrypted.length - filler.length) filler else encrypted
  { paymentPath := path
    mixHeader := ⟨header, by
      simp only [header, encrypted]
      split
      · rw [length_copyAt, length_layer]
      · rw [length_layer]⟩
    nextHmac := (keys i).mu (header ++ assocData) }

section
variable (k : LayerKeys) (hd : HopData) (inner : Bytes routingInfoSize)

theorem rightShift_header : rightShift inner.toList hopDataSize =
    some (List.replicate hopDataSize 0 ++ inner.toList.take (routingInfoSize - hopDataSize)) := by
  have hle : hopDataSize ≤ inner.toList.length := by
    rw [List.Vector.toList_length]
    decide
  rw [rightShift_eq hle, List.Vector.toList_length]

theorem copyAt_shifted (rest : List UInt8) :
    copyAt (List.replicate hopDataSize 0 ++ rest) 0 hd.encode = hd.encode ++ rest := by
  have hle : hd.encode.length ≤ (List.replicate hopDataSize (0 : UInt8) ++ rest).length := by
    rw [HopData.length_encode, List.length_append, List.length_replicate]
    exact Nat.le_add_right _ _
  rw [copyAt_zero _ _ hle, HopData.length_encode, List.drop_left' List.length_replicate]

theorem slice_rho : slice k.rho.toList 0 routingInfoSize = some (k.rho.toList.take routingInfoSize) := by
  have hle : routingInfoSize ≤ k.rho.toList.length := by
    rw [List.Vector.toList_length]
    decide
  have := slice_of_le (Nat.zero_le routingInfoSize) hle
  rwa [List.drop_zero] at this

theorem xor?_assembled (assembled : List UInt8)
    (h : assembled = hd.encode ++ inner.toList.take (routingInfoSize - hopDataSize)) :
    xor? assembled assembled (k.rho.toList.take routingInfoSize) =
      some (wrap routingInfoSize k.rho.toList hd.encode inner.toList) := by
  have hle : assembled.length ≤ (k.rho.toList.take routingInfoSize).length := by
    rw [h, List.length_append, HopData.length_encode, List.length_take, List.length_take,
      List.Vector.toList_length, List.Vector.toList_length]
    decide
  rw [xor?_eq (Nat.min_le_left _ _), xor_self _ _ hle, wrap, HopData.length_encode, h]

end

/-- No index and no bound of the loop body is out of range. -/
theorem buildLayer_eq {keys? : Nat → Option LayerKeys} {keys : Nat → LayerKeys} {i : Nat}
    (hkeys : keys? i = some (keys i)) (hi : i < numMaxHops) {filler : List UInt8}
    (hfill : filler.length ≤ routingInfoSize) (assocData : List UInt8) (numHops : Nat)
    (st : BuildState) :
    buildLayer keys? filler assocData numHops i st =
      some (addLayer keys filler assocData numHops i st) := by
  have hwrap := xor?_assembled (keys i) ((st.paymentPath.setHMAC i st.nextHmac).hop i).hopData
    st.mixHeader _ rfl
  have htail : ∀ header : List UInt8, header.length = routingInfoSize →
      copyTail header filler = some (copyAt header (header.length - filler.length) filler) :=
    fun header h => copyTail_eq (h ▸ hfill)
  simp only [buildLayer, hkeys, PaymentPath.setHMAC?, PaymentPath.hop?, if_pos hi, rightShift_header,
    copyAt_shifted, slice_rho, hwrap, htail _ (length_layer _ _ _), Option.bind_eq_bind,
    Option.bind_some, Option.pure_def]
  by_cases hlast : i = numHops - 1
  · have hlen : ∀ off, (copyAt (wrap routingInfoSize (keys i).rho.toList
        ((st.paymentPath.setHMAC i st.nextHmac).hop i).hopData.encode st.mixHeader.toList) off
        filler).length = routingInfoSize := fun off => by rw [length_copyAt, length_layer]
    simp only [if_pos hlast, Bytes.ofSlice, dif_pos (hlen _), addLayer]
    rfl
  · simp only [if_neg hlast, Bytes.ofSlice, dif_pos (length_layer _ _ _), addLayer]
    rfl

/-! ### The loop as layers -/

section Layers
variable (keys : Nat → LayerKeys) (path : PaymentPath) (assocData : List UInt8)

/-- The keystream of hop `i` as a slice. -/
def rhoStream (i : Nat) : List UInt8 := (keys i).rho.toList

/-- The filler of the whole route. -/
def routeFiller : List UInt8 := filler hopDataSize (rhoStream keys) (path.trueRouteLength - 1)

/-- The state after `d` iterations. -/
def stateAfter : Nat → BuildState
  | 0 => ⟨path, zeroBytes routingInfoSize, zeroBytes hmacSize⟩
  | d + 1 => addLayer keys (routeFiller keys path) assocData path.trueRouteLength
      (path.trueRouteLength - 1 - d) (stateAfter d)

/-- The state when the layers of hops `i` and later are done. -/
def stateAt (i : Nat) : BuildState := stateAfter keys path assocData (path.trueRouteLength - i)

/-- The header addressed to hop `i`. -/
def headerAt (i : Nat) : Bytes routingInfoSize := (stateAt keys path assocData i).mixHeader

/-- The MAC over it; zero after the last hop. -/
def macAt (i : Nat) : Bytes hmacSize := (stateAt keys path assocData i).nextHmac

/-- The instructions hop `i` is sent: the path's, with the next layer's MAC. -/
def hopDataAt (i : Nat) : HopData :=
  {(path.hop i).hopData with hmac := macAt keys path assocData (i + 1)}

theorem length_rhoStream (i : Nat) : (rhoStream keys i).length = numStreamBytes :=
  List.Vector.toList_length _

theorem headerPadding_rho (hpos : 0 < path.trueRouteLength) :
    headerPadding (fun i => some (keys i).rho.toList) path.trueRouteLength hopDataSize =
      some (routeFiller keys path) :=
  headerPadding_eq (rhoStream keys) _ path.trueRouteLength_le (fun i _ => length_rhoStream keys i) hpos _
    (fun _ _ => rfl)

theorem stateAt_length : stateAt keys path assocData path.trueRouteLength =
    ⟨path, zeroBytes routingInfoSize, zeroBytes hmacSize⟩ := by
  rw [stateAt, Nat.sub_self, stateAfter]

theorem stateAt_step {i : Nat} (hi : i < path.trueRouteLength) : stateAt keys path assocData i =
    addLayer keys (routeFiller keys path) assocData path.trueRouteLength i
      (stateAt keys path assocData (i + 1)) := by
  obtain ⟨d, hd⟩ : ∃ d, path.trueRouteLength - i = d + 1 := ⟨path.trueRouteLength - i - 1, by omega⟩
  have hidx : path.trueRouteLength - 1 - d = i := by omega
  rw [stateAt, hd, stateAfter, hidx, stateAt, show path.trueRouteLength - (i + 1) = d by omega]

theorem length_routeFiller_le (hpos : 0 < path.trueRouteLength) :
    (routeFiller keys path).length ≤ routingInfoSize := by
  have hmax := path.trueRouteLength_le
  have hmax' : numMaxHops = 20 := rfl
  rw [routeFiller, filler_length_of (rhoStream keys) path.trueRouteLength hmax
    (fun i _ => length_rhoStream keys i) (by omega), hopDataSize_eq, routingInfoSize_eq]
  omega

/-- Entered with the later layers done, the loop ends with all of them done. -/
theorem buildLayers_stateAt {keys? : Nat → Option LayerKeys}
    (hkeys : ∀ i, i < path.trueRouteLength → keys? i = some (keys i)) {k : Nat}
    (hk : k ≤ path.trueRouteLength) :
    buildLayers keys? (routeFiller keys path) assocData path.trueRouteLength k
      (stateAt keys path assocData k) = some (stateAt keys path assocData 0) := by
  have hmax := path.trueRouteLength_le
  induction k with
  | zero => rfl
  | succ i ih =>
    rw [buildLayers, buildLayer_eq (hkeys i hk) (by omega) (length_routeFiller_le keys path (by omega)),
      ← stateAt_step keys path assocData hk, ← ih (by omega)]
    rfl

theorem buildLayers_eq (keys? : Nat → Option LayerKeys)
    (hkeys : ∀ i, i < path.trueRouteLength → keys? i = some (keys i)) :
    buildLayers keys? (routeFiller keys path) assocData path.trueRouteLength path.trueRouteLength
      ⟨path, zeroBytes routingInfoSize, zeroBytes hmacSize⟩ = some (stateAt keys path assocData 0) := by
  rw [← stateAt_length keys path assocData]
  exact buildLayers_stateAt keys path assocData hkeys (Nat.le_refl _)

theorem newOnionPacketWith_eq (ephemeralKey : PublicKey) (hpos : 0 < path.trueRouteLength) :
    newOnionPacketWith keys ephemeralKey path assocData =
      some ((stateAt keys path assocData 0).paymentPath,
        ⟨baseVersion, ephemeralKey, headerAt keys path assocData 0, macAt keys path assocData 0⟩) := by
  have hloop := buildLayers_eq keys path assocData (fun i => some (keys i)) fun _ _ => rfl
  simp only [newOnionPacketWith, headerPadding_rho keys path hpos, hloop, Option.bind_eq_bind,
    Option.bind_some]
  rfl

/-- Only the HMACs of the hops whose layers are done have been written. -/
theorem stateAt_paymentPath {i : Nat} (hi : i ≤ path.trueRouteLength) (j : Fin numMaxHops) :
    (stateAt keys path assocData i).paymentPath j =
      if i ≤ j.val ∧ j.val < path.trueRouteLength then
        ⟨(path j).nodePub, hopDataAt keys path assocData j.val⟩ else path j := by
  obtain ⟨d, hd⟩ : ∃ d, i + d = path.trueRouteLength := ⟨path.trueRouteLength - i, by omega⟩
  induction d generalizing i with
  | zero =>
    obtain rfl : i = path.trueRouteLength := by omega
    rw [stateAt_length, if_neg (by omega)]
  | succ d ih =>
    have hnext := ih (i := i + 1) (by omega) (by omega)
    rw [stateAt_step keys path assocData (by omega)]
    show (PaymentPath.setHMAC _ i _) j = _
    rw [PaymentPath.setHMAC, hnext]
    by_cases hj : j.val = i
    · -- Hop `i` itself: its data is still the caller's.
      have hne : ¬(i + 1 ≤ j.val ∧ j.val < path.trueRouteLength) := by omega
      rw [if_pos hj, if_neg hne, if_pos (by omega), hopDataAt, path.hop_of_lt j.isLt, ← hj]
      rfl
    · rw [if_neg hj]
      by_cases hin : i + 1 ≤ j.val ∧ j.val < path.trueRouteLength
      · rw [if_pos hin, if_pos (by omega)]
      · rw [if_neg hin, if_neg (by omega)]

theorem hopData_stateAt_zero {i : Nat} (hi : i < path.trueRouteLength) :
    ((stateAt keys path assocData 0).paymentPath.hop i).hopData = hopDataAt keys path assocData i := by
  have hlt : i < numMaxHops := Nat.lt_of_lt_of_le hi path.trueRouteLength_le
  rw [PaymentPath.hop_of_lt _ hlt, stateAt_paymentPath keys path assocData (Nat.zero_le _),
    if_pos ⟨Nat.zero_le _, hi⟩]

theorem macAt_length : macAt keys path assocData path.trueRouteLength = zeroHMAC := by
  rw [macAt, stateAt_length]
  rfl

theorem macAt_eq {i : Nat} (hi : i < path.trueRouteLength) : macAt keys path assocData i =
    (keys i).mu ((headerAt keys path assocData i).toList ++ assocData) := by
  rw [macAt, headerAt, stateAt_step keys path assocData hi]
  rfl

theorem setHMAC_hop {i : Nat} (hi : i < path.trueRouteLength) :
    (((stateAt keys path assocData (i + 1)).paymentPath.setHMAC i
      (stateAt keys path assocData (i + 1)).nextHmac).hop i).hopData = hopDataAt keys path assocData i := by
  have hmax := path.trueRouteLength_le
  have hlt : i < numMaxHops := by omega
  rw [PaymentPath.hop_of_lt _ hlt, PaymentPath.setHMAC, if_pos rfl,
    stateAt_paymentPath keys path assocData (by omega), if_neg (by simp), hopDataAt,
    path.hop_of_lt hlt]
  rfl

theorem headerAt_step {i : Nat} (hi : i + 1 < path.trueRouteLength) :
    (headerAt keys path assocData i).toList =
      wrap routingInfoSize (rhoStream keys i) (hopDataAt keys path assocData i).encode
        (headerAt keys path assocData (i + 1)).toList := by
  rw [headerAt, stateAt_step keys path assocData (by omega), rhoStream, headerAt,
    ← setHMAC_hop keys path assocData (by omega)]
  show (if i = path.trueRouteLength - 1 then _ else _) = _
  rw [if_neg (by omega)]

theorem headerAt_last (hpos : 0 < path.trueRouteLength) :
    (headerAt keys path assocData (path.trueRouteLength - 1)).toList =
      overwriteTail (wrap routingInfoSize (rhoStream keys (path.trueRouteLength - 1))
        (hopDataAt keys path assocData (path.trueRouteLength - 1)).encode
        (zeroBytes routingInfoSize).toList) (routeFiller keys path) := by
  have hnext : path.trueRouteLength - 1 + 1 = path.trueRouteLength := by omega
  have hinit : zeroBytes routingInfoSize =
      (stateAt keys path assocData (path.trueRouteLength - 1 + 1)).mixHeader := by
    rw [hnext, stateAt_length]
  rw [headerAt, stateAt_step keys path assocData (by omega),
    ← setHMAC_hop keys path assocData (by omega), rhoStream, hinit]
  show (if path.trueRouteLength - 1 = path.trueRouteLength - 1 then _ else _) = _
  rw [if_pos rfl]
  apply copyAt_tail
  rw [length_layer]
  exact length_routeFiller_le keys path hpos

/-- **The construction loop builds a nested header.** -/
def layers (hpos : 0 < path.trueRouteLength) :
    Layers UInt8 routingInfoSize hopDataSize path.trueRouteLength where
  stream := rhoStream keys
  payload := fun i => (hopDataAt keys path assocData i).encode
  header := fun i => (headerAt keys path assocData i).toList
  core := (zeroBytes routingInfoSize).toList
  pos := hpos
  room := Nat.mul_le_mul_right _ path.trueRouteLength_le
  stream_length := fun i _ => length_rhoStream keys i
  payload_length := fun _ _ => HopData.length_encode _
  core_length := List.Vector.toList_length _
  header_last := headerAt_last keys path assocData hpos
  header_step := fun _ hi => headerAt_step keys path assocData hi

theorem rtake_headerAt {i : Nat} (hi : i < path.trueRouteLength) :
    (headerAt keys path assocData i).toList.rtake (i * hopDataSize) =
      filler hopDataSize (rhoStream keys) i := by
  have htail := (layers keys path assocData (by omega)).header_tail hi
  simp only [layers] at htail
  exact htail

end Layers

/-! ### From the session key -/

/-- The layer keys the sender derives. -/
def secretKeys (P : Primitives) (secrets : List Hash256) (i : Nat) : LayerKeys :=
  layerKeys P (secrets.getD i (zeroBytes 32))

theorem layerKeys_getElem? (P : Primitives) {secrets : List Hash256} {i : Nat} (hi : i < secrets.length) :
    (secrets[i]?).map (layerKeys P) = some (secretKeys P secrets i) := by
  rw [secretKeys, List.getD_eq_getElem?_getD, List.getElem?_eq_getElem hi]
  rfl

theorem generateHeaderPadding_eq (P : Primitives) (secrets : List Hash256) (hpos : 0 < secrets.length)
    (hmax : secrets.length ≤ numMaxHops) :
    generateHeaderPadding P .rho secrets.length hopDataSize secrets =
      some (filler hopDataSize (rhoStream (secretKeys P secrets)) (secrets.length - 1)) := by
  refine headerPadding_eq (rhoStream (secretKeys P secrets)) _ hmax (fun i _ => length_rhoStream _ i)
    hpos _ fun i hi => ?_
  have hlt : i < secrets.length := by omega
  have hkeys := congrArg (Option.map fun k : LayerKeys => k.rho.toList) (layerKeys_getElem? P hlt)
  simp only [Option.map_map, Option.map_some, Function.comp_def, layerKeys_rho] at hkeys
  exact hkeys

/-- `NewOnionPacket` is the construction over the layer keys of the shared secrets. -/
theorem newOnionPacket_eq (P : Primitives) (path : PaymentPath) (sessionKey : PrivateKey P)
    (assocData : List UInt8) {secrets : List Hash256}
    (h : generateSharedSecrets P path.nodeKeys sessionKey = some secrets) :
    newOnionPacket P path sessionKey assocData =
      newOnionPacketWith (secretKeys P secrets) sessionKey.pubKey path assocData := by
  have hlen := length_generateSharedSecrets P h
  rw [PaymentPath.length_nodeKeys] at hlen
  have hpos : 0 < path.trueRouteLength := by
    rw [← hlen]
    cases hk : path.nodeKeys with
    | nil => simp [hk, generateSharedSecrets] at h
    | cons first rest =>
      have := path.length_nodeKeys
      rw [hk, List.length_cons] at this
      omega
  have hpad := generateHeaderPadding_eq P secrets (by omega) (hlen ▸ path.trueRouteLength_le)
  rw [hlen] at hpad
  rw [newOnionPacketWith_eq _ _ _ _ hpos, newOnionPacket, h]
  have hloop := buildLayers_eq (secretKeys P secrets) path assocData _
    fun i hi => layerKeys_getElem? P (Nat.lt_of_lt_of_eq hi hlen.symm)
  rw [routeFiller] at hloop
  simp only [hpad, hloop, Option.bind_eq_bind, Option.bind_some]
  rfl

end LightningOnion
