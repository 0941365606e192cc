import LightningOnion.Packet.Process

/-! What building a packet reads of the path, and what it writes to it.

The loop writes each hop's HMAC before it encodes the hop, so whatever HMACs the
path came with are never read, and nothing after the route is. Two paths with the
same route (`SameRoute`) therefore give the same packet, and one of them is the path
the call leaves behind. Every header it computes a MAC over ends in the filler the hops
will have produced (`generateHeaderPadding_correct`). Nothing of the route gets lost: for
the same nodes, paths that tell a hop something else give another packet
(`newOnionPacket_faithful`). -/
namespace LightningOnion
open Lib

/-- Two hops are told the same; the HMACs, which the sender fills in, may differ. -/
def SameInstructions (a b : HopData) : Prop := {a with hmac := zeroHMAC} = {b with hmac := zeroHMAC}

theorem SameInstructions.with_hmac {a b : HopData} (h : SameInstructions a b) (mac : Bytes hmacSize) :
    ({a with hmac := mac} : HopData) = {b with hmac := mac} := by
  have := congrArg (fun hd : HopData => {hd with hmac := mac}) h
  exact this

/-- Two paths have the same hops up to the first empty slot, but for the HMACs. -/
structure SameRoute (path path' : PaymentPath) : Prop where
  length : path'.trueRouteLength = path.trueRouteLength
  nodePub : ∀ i, i < path.trueRouteLength → (path'.hop i).nodePub = (path.hop i).nodePub
  instructions : ∀ i, i < path.trueRouteLength →
    SameInstructions (path'.hop i).hopData (path.hop i).hopData

section
variable (keys : Nat → LayerKeys) {path path' : PaymentPath} (assocData : List UInt8)
  (h : SameRoute path path')
include h

theorem SameRoute.nodeKeys_eq : path'.nodeKeys = path.nodeKeys := by
  rw [path'.nodeKeys_eq (fun i => (path.hop i).nodePub) (fun i hi => h.nodePub i (h.length ▸ hi)),
    path.nodeKeys_eq (fun i => (path.hop i).nodePub) (fun _ _ => rfl), h.length]

theorem SameRoute.routeFiller_eq : routeFiller keys path' = routeFiller keys path := by
  rw [routeFiller, routeFiller, h.length]

theorem SameRoute.hopDataAt_eq {i : Nat} (hi : i < path.trueRouteLength)
    (hmac : macAt keys path' assocData (i + 1) = macAt keys path assocData (i + 1)) :
    hopDataAt keys path' assocData i = hopDataAt keys path assocData i := by
  rw [hopDataAt, hopDataAt, hmac, (h.instructions i hi).with_hmac]

/-- The headers of the two constructions agree, layer by layer from the last. -/
theorem SameRoute.headerAt_eq {i : Nat} (hi : i < path.trueRouteLength) :
    headerAt keys path' assocData i = headerAt keys path assocData i := by
  have hpos : 0 < path.trueRouteLength := by omega
  refine Layers.inward (P := fun i => headerAt keys path' assocData i =
    headerAt keys path assocData i) ?_ ?_ hi
  · have hnext : path.trueRouteLength - 1 + 1 = path.trueRouteLength := by omega
    have hmac : macAt keys path' assocData (path.trueRouteLength - 1 + 1) =
        macAt keys path assocData (path.trueRouteLength - 1 + 1) := by
      rw [hnext, macAt_length, ← h.length, macAt_length]
    have hlast := headerAt_last keys path' assocData (by rw [h.length]; exact hpos)
    rw [h.length, h.hopDataAt_eq keys assocData (by omega) hmac, h.routeFiller_eq] at hlast
    exact List.Vector.eq _ _ (hlast.trans (headerAt_last keys path assocData hpos).symm)
  · intro i hi hinner
    have hmac : macAt keys path' assocData (i + 1) = macAt keys path assocData (i + 1) := by
      rw [macAt_eq _ _ _ hi, macAt_eq _ _ _ (h.length ▸ hi), hinner]
    have hstep := headerAt_step keys path' assocData (h.length ▸ hi)
    rw [hinner, h.hopDataAt_eq keys assocData (by omega) hmac] at hstep
    exact List.Vector.eq _ _ (hstep.trans (headerAt_step keys path assocData hi).symm)

theorem SameRoute.macAt_eq {i : Nat} (hi : i ≤ path.trueRouteLength) :
    macAt keys path' assocData i = macAt keys path assocData i := by
  by_cases hlt : i < path.trueRouteLength
  · rw [LightningOnion.macAt_eq _ _ _ hlt, LightningOnion.macAt_eq _ _ _ (h.length ▸ hlt),
      h.headerAt_eq keys assocData hlt]
  · obtain rfl : i = path.trueRouteLength := by omega
    rw [macAt_length, ← h.length, macAt_length]

end

/-! ### The path afterwards -/

section
variable (keys : Nat → LayerKeys) (path : PaymentPath) (assocData : List UInt8)

/-- The path the call leaves behind. -/
def builtPath : PaymentPath := fun j =>
  if j.val < path.trueRouteLength then
    {path j with hopData := {(path j).hopData with hmac := macAt keys path assocData (j.val + 1)}}
  else path j

theorem stateAt_zero_paymentPath :
    (stateAt keys path assocData 0).paymentPath = builtPath keys path assocData := by
  funext j
  have hdata : hopDataAt keys path assocData j.val =
      {(path j).hopData with hmac := macAt keys path assocData (j.val + 1)} := by
    rw [hopDataAt, path.hop_of_lt j.isLt]
  rw [stateAt_paymentPath keys path assocData (Nat.zero_le _), builtPath, hdata]
  simp only [Nat.zero_le, true_and]

theorem sameRoute_builtPath : SameRoute path (builtPath keys path assocData) := by
  have hmax := path.trueRouteLength_le
  have hhop : ∀ i (hi : i < path.trueRouteLength), (builtPath keys path assocData).hop i =
      {path ⟨i, by omega⟩ with
        hopData := {(path ⟨i, by omega⟩).hopData with hmac := macAt keys path assocData (i + 1)}} := by
    intro i hi
    rw [PaymentPath.hop_of_lt _ (by omega), builtPath, if_pos hi]
  refine ⟨PaymentPath.trueRouteLength_congr fun j => ?_, fun i hi => ?_, fun i hi => ?_⟩
  · rw [builtPath]
    split <;> rfl
  · rw [hhop i hi, path.hop_of_lt (by omega)]
  · rw [hhop i hi, path.hop_of_lt (by omega)]
    rfl

/-- Building over it again writes what is there. -/
theorem builtPath_builtPath :
    builtPath keys (builtPath keys path assocData) assocData = builtPath keys path assocData := by
  have h := sameRoute_builtPath keys path assocData
  funext j
  rw [builtPath, h.length]
  by_cases hj : j.val < path.trueRouteLength
  · rw [if_pos hj, h.macAt_eq keys assocData hj, builtPath, if_pos hj]
  · rw [if_neg hj]

/-- A hop that forwards unwraps its instructions in that path, and the next header. -/
theorem unwrapLayer_builtPath {i : Nat} (hi : i + 1 < path.trueRouteLength) :
    unwrapLayer (keys i) (headerAt keys path assocData i) (macAt keys path assocData i) assocData =
      .ok (((builtPath keys path assocData).hop i).hopData, headerAt keys path assocData (i + 1)) := by
  rw [unwrapLayer_layer keys path assocData hi, ← stateAt_zero_paymentPath,
    hopData_stateAt_zero keys path assocData (by omega)]

end

/-- What the call returns: the path with its HMACs, and the outermost layer. -/
theorem newOnionPacket_built (P : Primitives) (path : PaymentPath) (sessionKey : PrivateKey P)
    (assocData : List UInt8) {secrets : List Hash256}
    (hs : generateSharedSecrets P path.nodeKeys sessionKey = some secrets)
    (hpos : 0 < path.trueRouteLength) :
    newOnionPacket P path sessionKey assocData =
      some (builtPath (secretKeys P secrets) path assocData,
        ⟨baseVersion, sessionKey.pubKey, headerAt (secretKeys P secrets) path assocData 0,
          macAt (secretKeys P secrets) path assocData 0⟩) := by
  rw [newOnionPacket_eq P path sessionKey assocData hs, newOnionPacketWith_eq _ _ _ _ hpos,
    stateAt_zero_paymentPath]

/-- **What `NewOnionPacket` reads and writes.** Paths with the same route give the
same packet. The path is left as it was but for the HMACs of its route: hop `i` gets
the MAC of the header addressed to hop `i + 1`, the one hop `i` unwraps to, and the
last hop zero. A second call on that path changes neither it nor the packet. -/
theorem newOnionPacket_frame (P : Primitives) {path path' : PaymentPath} (h : SameRoute path path')
    (hpos : 1 ≤ path.trueRouteLength) (sessionKey : PrivateKey P) (assocData : List UInt8) :
    ∃ (secrets : List Hash256) (header : Nat → Bytes routingInfoSize) (mac : Nat → Bytes hmacSize)
      (final final' : PaymentPath),
      generateSharedSecrets P path.nodeKeys sessionKey = some secrets ∧
      newOnionPacket P path sessionKey assocData =
        some (final, ⟨baseVersion, sessionKey.pubKey, header 0, mac 0⟩) ∧
      newOnionPacket P path' sessionKey assocData =
        some (final', ⟨baseVersion, sessionKey.pubKey, header 0, mac 0⟩) ∧
      (∀ j, final j = if j.val < path.trueRouteLength then
          {path j with hopData := {(path j).hopData with hmac := mac (j.val + 1)}} else path j) ∧
      mac path.trueRouteLength = zeroHMAC ∧
      (∀ i, i < path.trueRouteLength → mac i =
        (secretKeys P secrets i).mu ((header i).toList ++ assocData)) ∧
      (∀ i, i + 1 < path.trueRouteLength →
        unwrapLayer (secretKeys P secrets i) (header i) (mac i) assocData =
          .ok ((final.hop i).hopData, header (i + 1))) ∧
      newOnionPacket P final sessionKey assocData =
        some (final, ⟨baseVersion, sessionKey.pubKey, header 0, mac 0⟩) := by
  obtain ⟨secrets, hs⟩ := generateSharedSecrets_isSome P path.nodeKeys sessionKey (by
    intro hnil
    have := path.length_nodeKeys
    rw [hnil, List.length_nil] at this
    omega)
  -- A path with the same route is built with the same secrets, header and MAC.
  have hsame : ∀ q, SameRoute path q → newOnionPacket P q sessionKey assocData =
      some (builtPath (secretKeys P secrets) q assocData,
        ⟨baseVersion, sessionKey.pubKey, headerAt (secretKeys P secrets) path assocData 0,
          macAt (secretKeys P secrets) path assocData 0⟩) := by
    intro q hq
    rw [newOnionPacket_built P q sessionKey assocData (hq.nodeKeys_eq ▸ hs) (hq.length ▸ hpos),
      hq.headerAt_eq _ _ hpos, hq.macAt_eq _ _ (Nat.zero_le _)]
  refine ⟨secrets, headerAt (secretKeys P secrets) path assocData,
    macAt (secretKeys P secrets) path assocData, builtPath (secretKeys P secrets) path assocData,
    builtPath (secretKeys P secrets) path' assocData, hs,
    newOnionPacket_built P path sessionKey assocData hs hpos, hsame path' h, fun _ => rfl,
    macAt_length _ _ _, fun i hi => macAt_eq _ _ _ hi, fun i hi => unwrapLayer_builtPath _ _ _ hi, ?_⟩
  rw [hsame _ (sameRoute_builtPath _ _ _), builtPath_builtPath]

section Sample

def freshPath : PaymentPath := PaymentPath.repeated ⟨residuePoint 1, .empty⟩ 2

/-- The same two hops with HMACs already set, a gap, and populated hops after it. -/
def stalePath : PaymentPath := fun j =>
  if j.val = 2 then .unset else ⟨residuePoint 1, {HopData.empty with hmac := sampleHash}⟩

theorem trueRouteLength_freshPath : freshPath.trueRouteLength = 2 :=
  PaymentPath.trueRouteLength_repeated rfl (by decide)

theorem sameRoute_stalePath : SameRoute freshPath stalePath := by
  have hlen := trueRouteLength_freshPath
  have hfresh : ∀ i, i < 2 → freshPath.hop i = ⟨residuePoint 1, .empty⟩ := fun i hi =>
    PaymentPath.hop_repeated _ (by decide) hi
  have hstale : ∀ i, i < 2 →
      stalePath.hop i = ⟨residuePoint 1, {HopData.empty with hmac := sampleHash}⟩ := by
    intro i hi
    have hmax : i < numMaxHops := Nat.lt_of_lt_of_le hi (by decide)
    rw [PaymentPath.hop_of_lt _ hmax, stalePath, if_neg (by simp only; omega)]
  refine ⟨?_, fun i hi => ?_, fun i hi => ?_⟩
  · rw [hlen]
    decide
  · rw [hfresh i (hlen ▸ hi), hstale i (hlen ▸ hi)]
  · rw [hfresh i (hlen ▸ hi), hstale i (hlen ▸ hi)]
    rfl

/-- Stale HMACs and hops after a gap do not show in the packet. -/
theorem newOnionPacket_stalePath : ∃ final final' pkt,
    newOnionPacket (samplePrimitives fun _ _ => sampleHash) freshPath (sampleKey _) [] =
      some (final, pkt) ∧
    newOnionPacket (samplePrimitives fun _ _ => sampleHash) stalePath (sampleKey _) [] =
      some (final', pkt) ∧
    newOnionPacket (samplePrimitives fun _ _ => sampleHash) final (sampleKey _) [] =
      some (final, pkt) := by
  obtain ⟨-, header, mac, final, final', -, hfresh, hstale, -, -, -, -, hagain⟩ :=
    newOnionPacket_frame (samplePrimitives fun _ _ => sampleHash) sameRoute_stalePath
      (by rw [trueRouteLength_freshPath]; decide) (sampleKey _) []
  exact ⟨final, final', _, hfresh, hstale, hagain⟩

end Sample

/-! ### The filler -/

/-- **The filler is what the hops' zeroes become.** It is generated without reading
out of range. Every header `NewOnionPacket` computes a MAC over ends in the filler at
that hop; these are the headers that travel, from the packet it returns on. And so ends
what any hops before that one make of any header by padding it with zeroes and
decrypting it. -/
theorem generateHeaderPadding_correct (P : Primitives) (secrets : List Hash256)
    (hpos : 1 ≤ secrets.length) (hmax : secrets.length ≤ numMaxHops) :
    generateHeaderPadding P .rho secrets.length hopDataSize secrets =
      some (filler hopDataSize (rhoStream (secretKeys P secrets)) (secrets.length - 1)) ∧
    (∀ i, 1 ≤ i → i < secrets.length →
      slice (rhoStream (secretKeys P secrets) (i - 1)) ((numMaxHops - i + 1) * hopDataSize)
        ((numMaxHops - i + 1) * hopDataSize + i * hopDataSize) =
        some ((rhoStream (secretKeys P secrets) (i - 1)).rtake (i * hopDataSize))) ∧
    (∀ (path : PaymentPath) (assocData : List UInt8), path.trueRouteLength = secrets.length →
      ∀ i, i < secrets.length →
        macAt (secretKeys P secrets) path assocData i = (secretKeys P secrets i).mu
          ((headerAt (secretKeys P secrets) path assocData i).toList ++ assocData) ∧
        (headerAt (secretKeys P secrets) path assocData i).toList.rtake (i * hopDataSize) =
          filler hopDataSize (rhoStream (secretKeys P secrets)) i) ∧
    (∀ (path : PaymentPath) (sessionKey : PrivateKey P) (assocData : List UInt8),
      generateSharedSecrets P path.nodeKeys sessionKey = some secrets →
      newOnionPacket P path sessionKey assocData =
        some (builtPath (secretKeys P secrets) path assocData,
          ⟨baseVersion, sessionKey.pubKey, headerAt (secretKeys P secrets) path assocData 0,
            macAt (secretKeys P secrets) path assocData 0⟩) ∧
      ∀ i, i + 1 < secrets.length →
        unwrapLayer (secretKeys P secrets i) (headerAt (secretKeys P secrets) path assocData i)
          (macAt (secretKeys P secrets) path assocData i) assocData =
          .ok (((builtPath (secretKeys P secrets) path assocData).hop i).hopData,
            headerAt (secretKeys P secrets) path assocData (i + 1))) ∧
    (∀ i, i < secrets.length →
      ∀ (header next : Bytes routingInfoSize) (mac : Bytes hmacSize) (assocData : List UInt8)
        (hd : HopData),
        header.toList.rtake (i * hopDataSize) =
          filler hopDataSize (rhoStream (secretKeys P secrets)) i →
        unwrapLayer (secretKeys P secrets i) header mac assocData = .ok (hd, next) →
        next.toList.rtake ((i + 1) * hopDataSize) =
          filler hopDataSize (rhoStream (secretKeys P secrets)) (i + 1)) ∧
    (∀ i, i ≤ secrets.length → ∀ (assocData : List UInt8) (header : Nat → Bytes routingInfoSize)
      (mac : Nat → Bytes hmacSize) (hd : Nat → HopData),
      (∀ j, j < i → unwrapLayer (secretKeys P secrets j) (header j) (mac j) assocData =
        .ok (hd j, header (j + 1))) →
      (header i).toList.rtake (i * hopDataSize) =
        filler hopDataSize (rhoStream (secretKeys P secrets)) i) := by
  refine ⟨generateHeaderPadding_eq P secrets hpos hmax, fun i h1 hi => ?_,
    fun path assocData hlen i hi => ⟨macAt_eq _ _ _ (hlen ▸ hi), ?_⟩,
    fun path sessionKey assocData hs => ?_,
    fun i hi header next mac assocData hd htail h => unwrapLayer_tail _ (by omega) htail h,
    fun i hi assocData header mac hd h => unwrapLayers_tail _ assocData (hi.trans hmax) h⟩
  · obtain ⟨k, rfl⟩ : ∃ k, i = k + 1 := ⟨i - 1, by omega⟩
    rw [Nat.add_sub_cancel]
    exact slice_window (rhoStream (secretKeys P secrets)) _ hmax (fun j _ => length_rhoStream _ j) hi
  · exact rtake_headerAt _ _ _ (hlen ▸ hi)
  · have hlen : secrets.length = path.trueRouteLength := by
      rw [length_generateSharedSecrets P hs, path.length_nodeKeys]
    rw [hlen] at hpos ⊢
    exact ⟨newOnionPacket_built P path sessionKey assocData hs hpos,
      fun i hi => unwrapLayer_builtPath _ _ _ hi⟩

/-- Three hops with the same secret. -/
theorem generateHeaderPadding_sample :
    let P := samplePrimitives fun _ _ => sampleHash
    let secrets := List.replicate 3 sampleHash
    generateHeaderPadding P .rho 3 hopDataSize secrets =
      some (filler hopDataSize (rhoStream (secretKeys P secrets)) 2) ∧
    ∀ (path : PaymentPath), path.trueRouteLength = 3 →
      (headerAt (secretKeys P secrets) path [] 2).toList.rtake (2 * hopDataSize) =
        filler hopDataSize (rhoStream (secretKeys P secrets)) 2 := by
  intro P secrets
  obtain ⟨hfiller, -, hheader, -⟩ := generateHeaderPadding_correct P secrets (by decide) (by decide)
  exact ⟨hfiller, fun path hlen => (hheader path [] hlen 2 (by decide)).2⟩

/-! ### What the packet tells -/

section
variable (keys : Nat → LayerKeys) {path path' : PaymentPath} (assocData : List UInt8)

theorem unwrapLayer_hopDataAt {i : Nat} (hi : i < path.trueRouteLength) :
    ∃ next, unwrapLayer (keys i) (headerAt keys path assocData i) (macAt keys path assocData i) assocData =
        .ok (hopDataAt keys path assocData i, next) ∧
      (i + 1 < path.trueRouteLength → next = headerAt keys path assocData (i + 1)) := by
  by_cases hlast : i + 1 < path.trueRouteLength
  · exact ⟨_, unwrapLayer_layer keys path assocData hlast, fun _ => rfl⟩
  · obtain rfl : i = path.trueRouteLength - 1 := by omega
    exact ⟨_, unwrapLayer_last keys path assocData (by omega), fun h => absurd h hlast⟩

/-- From equal packets the hops unwrap equal instructions, one after the other. -/
theorem layers_faithful (hlen : path'.trueRouteLength = path.trueRouteLength)
    (hheader : headerAt keys path' assocData 0 = headerAt keys path assocData 0)
    (hmac : macAt keys path' assocData 0 = macAt keys path assocData 0) {i : Nat}
    (hi : i < path.trueRouteLength) :
    headerAt keys path' assocData i = headerAt keys path assocData i ∧
      macAt keys path' assocData i = macAt keys path assocData i ∧
      hopDataAt keys path' assocData i = hopDataAt keys path assocData i := by
  have hunwrap : ∀ {i : Nat}, i < path.trueRouteLength →
      headerAt keys path' assocData i = headerAt keys path assocData i →
      macAt keys path' assocData i = macAt keys path assocData i →
      hopDataAt keys path' assocData i = hopDataAt keys path assocData i ∧
        (i + 1 < path.trueRouteLength →
          headerAt keys path' assocData (i + 1) = headerAt keys path assocData (i + 1)) := by
    intro i hi hh hm
    have hi' : i < path'.trueRouteLength := hlen ▸ hi
    obtain ⟨next, hok, hnext⟩ := unwrapLayer_hopDataAt keys assocData hi
    obtain ⟨next', hok', hnext'⟩ := unwrapLayer_hopDataAt keys assocData hi'
    rw [hh, hm, hok] at hok'
    obtain ⟨hdata, rfl⟩ := Prod.mk.inj (Except.ok.inj hok')
    exact ⟨hdata.symm, fun h => (hnext' (hlen ▸ h)).symm.trans (hnext h)⟩
  induction i with
  | zero => exact ⟨hheader, hmac, (hunwrap hi hheader hmac).1⟩
  | succ i ih =>
    obtain ⟨hh, hm, hdata⟩ := ih (by omega)
    have hh' := (hunwrap (by omega) hh hm).2 hi
    have hm' : macAt keys path' assocData (i + 1) = macAt keys path assocData (i + 1) :=
      congrArg HopData.hmac hdata
    exact ⟨hh', hm', (hunwrap hi hh' hm').1⟩

end

theorem newOnionPacket_secrets {P : Primitives} {path : PaymentPath} {sessionKey : PrivateKey P}
    {assocData : List UInt8} {out : PaymentPath × OnionPacket}
    (h : newOnionPacket P path sessionKey assocData = some out) :
    ∃ secrets, generateSharedSecrets P path.nodeKeys sessionKey = some secrets ∧
      0 < path.trueRouteLength := by
  cases hs : generateSharedSecrets P path.nodeKeys sessionKey with
  | none => simp [newOnionPacket, hs] at h
  | some secrets =>
    refine ⟨secrets, rfl, Nat.pos_of_ne_zero fun hzero => ?_⟩
    have hnil : path.nodeKeys = [] := List.length_eq_zero_iff.mp (path.length_nodeKeys.trans hzero)
    simp [hnil, generateSharedSecrets] at hs

/-- **Only a path without hops panics.** For every path that names a node no loop of the
construction leaves its slices, whatever the keys and the hash. -/
theorem newOnionPacket_panics_iff (P : Primitives) (path : PaymentPath) (sessionKey : PrivateKey P)
    (assocData : List UInt8) :
    newOnionPacket P path sessionKey assocData = none ↔ path.trueRouteLength = 0 := by
  constructor
  · intro hnone
    by_contra hlen
    have hpos := Nat.pos_of_ne_zero hlen
    obtain ⟨secrets, hs⟩ := generateSharedSecrets_isSome P path.nodeKeys sessionKey
      (List.ne_nil_of_length_pos (path.length_nodeKeys.symm ▸ hpos))
    rw [newOnionPacket_built P path sessionKey assocData hs hpos] at hnone
    cases hnone
  · intro hlen
    refine Option.eq_none_iff_forall_ne_some.mpr fun out hout => ?_
    obtain ⟨_, -, hpos⟩ := newOnionPacket_secrets hout
    omega

/-- **The packet tells every instruction.** For the same nodes, session key and
associated data, two paths give the same packet exactly if they tell every hop of the
route the same, but for the HMACs. -/
theorem newOnionPacket_faithful (P : Primitives) {path path' : PaymentPath}
    (hnodes : path'.nodeKeys = path.nodeKeys) (sessionKey : PrivateKey P) (assocData : List UInt8)
    {final final' : PaymentPath} {pkt pkt' : OnionPacket}
    (hpkt : newOnionPacket P path sessionKey assocData = some (final, pkt))
    (hpkt' : newOnionPacket P path' sessionKey assocData = some (final', pkt')) :
    pkt' = pkt ↔ ∀ i, i < path.trueRouteLength →
      SameInstructions (path'.hop i).hopData (path.hop i).hopData := by
  have hlen : path'.trueRouteLength = path.trueRouteLength := by
    rw [← path'.length_nodeKeys, ← path.length_nodeKeys, hnodes]
  obtain ⟨secrets, hs, hpos⟩ := newOnionPacket_secrets hpkt
  rw [newOnionPacket_built P path sessionKey assocData hs hpos] at hpkt
  rw [newOnionPacket_built P path' sessionKey assocData (hnodes ▸ hs) (hlen ▸ hpos)] at hpkt'
  cases hpkt
  cases hpkt'
  constructor
  · intro heq i hi
    rw [OnionPacket.mk.injEq] at heq
    have hdata := (layers_faithful _ assocData hlen heq.2.2.1 heq.2.2.2 hi).2.2
    exact congrArg (fun hd : HopData => {hd with hmac := zeroHMAC}) hdata
  · intro hsame
    have hroute : SameRoute path path' := by
      have hkeys := hnodes
      rw [path'.nodeKeys_eq (fun i => (path'.hop i).nodePub) (fun _ _ => rfl),
        path.nodeKeys_eq (fun i => (path.hop i).nodePub) (fun _ _ => rfl), hlen, List.map_inj_left] at hkeys
      exact ⟨hlen, fun i hi => hkeys i (List.mem_range.mpr hi), hsame⟩
    rw [hroute.headerAt_eq _ _ hpos, hroute.macAt_eq _ _ (Nat.zero_le _)]

/-- The two hops of `freshPath`, the second told to forward something. -/
def paidPath : PaymentPath := fun j =>
  if j.val = 1 then ⟨residuePoint 1, {HopData.empty with forwardAmount := 7}⟩ else freshPath j

/-- That is another packet. -/
theorem paidPath_faithful : ∃ final final' pkt pkt',
    newOnionPacket (samplePrimitives fun _ _ => sampleHash) freshPath (sampleKey _) [] =
      some (final, pkt) ∧
    newOnionPacket (samplePrimitives fun _ _ => sampleHash) paidPath (sampleKey _) [] =
      some (final', pkt') ∧ pkt' ≠ pkt := by
  have hlen := trueRouteLength_freshPath
  have hlen' : paidPath.trueRouteLength = 2 := by decide
  have hnodes : paidPath.nodeKeys = freshPath.nodeKeys := by decide
  obtain ⟨secrets, hs⟩ := generateSharedSecrets_isSome (samplePrimitives fun _ _ => sampleHash)
    freshPath.nodeKeys (sampleKey _) (by decide)
  have hpkt := newOnionPacket_built _ freshPath (sampleKey fun _ _ => sampleHash) [] hs
    (by rw [hlen]; decide)
  have hpkt' := newOnionPacket_built _ paidPath (sampleKey fun _ _ => sampleHash) [] (hnodes ▸ hs)
    (by rw [hlen']; decide)
  refine ⟨_, _, _, _, hpkt, hpkt', fun heq => ?_⟩
  have hsame := (newOnionPacket_faithful _ hnodes _ _ hpkt hpkt').mp heq 1 (by rw [hlen]; decide)
  exact absurd (congrArg HopData.forwardAmount hsame) (by decide)

end LightningOnion
