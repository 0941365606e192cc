import Mathlib.Data.Set.Basic
import LightningOnion.Crypto.Transparent
import LightningOnion.Lib.Masking
import LightningOnion.Packet.Process

/-! What the last hop learns of the route's length.

The mix header starts out all zero, and the filler of `n` hops covers only
`n - 1` hop sizes of it. Behind its own data the last hop therefore finds the
untouched zeroes of the start, then anything at all, then the end of its own
keystream (`recoverable_iff`). The more hops, the fewer zeroes: a header that is
possible at the end of a route stays possible at the end of a longer one, and not at
the end of a shorter one. -/
namespace LightningOnion
open Lib

/-! ### What a hop receives -/

/-- The header and the MAC that reach hop `i` when the hops before it unwrap the
packet and pass it on. -/
def receivedAt (keys : Nat → LayerKeys) (assocData : List UInt8) (pkt : OnionPacket) :
    Nat → Except Error (Bytes routingInfoSize × Bytes hmacSize)
  | 0 => .ok (pkt.routingInfo, pkt.headerMAC)
  | i + 1 =>
    match receivedAt keys assocData pkt i with
    | .error e => .error e
    | .ok (routeInfo, headerMac) =>
      match unwrapLayer (keys i) routeInfo headerMac assocData with
      | .error e => .error e
      | .ok (hopData, nextMixHeader) => .ok (nextMixHeader, hopData.hmac)

section
variable {keys : Nat → LayerKeys} {path : PaymentPath} {assocData : List UInt8} {pkt : OnionPacket}
  (hinfo : pkt.routingInfo = headerAt keys path assocData 0)
  (hmac : pkt.headerMAC = macAt keys path assocData 0)
include hinfo hmac

theorem receivedAt_eq {i : Nat} (hi : i < path.trueRouteLength) :
    receivedAt keys assocData pkt i = .ok (headerAt keys path assocData i, macAt keys path assocData i) := by
  induction i with
  | zero => rw [receivedAt, hinfo, hmac]
  | succ i ih =>
    rw [receivedAt, ih (by omega)]
    simp only [unwrapLayer_layer keys path assocData hi]
    rfl

theorem receivedAt_length (hpos : 0 < path.trueRouteLength) :
    receivedAt keys assocData pkt path.trueRouteLength = .ok (exitHeader keys path hpos, zeroHMAC) := by
  have hlast := receivedAt_eq hinfo hmac (i := path.trueRouteLength - 1) (by omega)
  have hnext : path.trueRouteLength - 1 + 1 = path.trueRouteLength := by omega
  have hzero : (hopDataAt keys path assocData (path.trueRouteLength - 1)).hmac = zeroHMAC := by
    rw [hopDataAt, hnext, macAt_length]
  rw [← hnext, receivedAt, hlast]
  simp only [unwrapLayer_last keys path assocData hpos, hzero]

end

/-! ### The headers the last hop can be left with -/

/-- What the hop `exitHop` with the keys `exitKeys` can be left with as the last of
`n` hops, over all keys and instructions of the others. -/
def Recoverable (exitKeys : LayerKeys) (exitHop : OnionHop) (assocData : List UInt8) (n : Nat) :
    Set (Bytes routingInfoSize) :=
  {routingInfo | ∃ keys path ephemeralKey sent pkt headerMac,
    path.trueRouteLength = n ∧ keys (n - 1) = exitKeys ∧ path.hop (n - 1) = exitHop ∧
    newOnionPacketWith keys ephemeralKey path assocData = some (sent, pkt) ∧
    receivedAt keys assocData pkt n = .ok (routingInfo, headerMac)}

/-- Any string is the filler in front of a last hop, for some keys of the others. -/
theorem exists_filler (exitKeys : LayerKeys) {k : Nat} (hk : k < numMaxHops) (target : List UInt8)
    (ht : target.length = k * hopDataSize) :
    ∃ keys, keys k = exitKeys ∧ filler hopDataSize (rhoStream keys) k = target := by
  have hmax : numMaxHops = 20 := rfl
  cases k with
  | zero => exact ⟨fun _ => exitKeys, rfl, (List.length_eq_zero_iff.mp (by omega)).symm⟩
  | succ i =>
    have hfill : ∀ keys : Nat → LayerKeys,
        (filler hopDataSize (rhoStream keys) i).length = i * hopDataSize := fun keys =>
      filler_length_of (rhoStream keys) (i + 1) (by omega) (fun j _ => length_rhoStream keys j)
        (Nat.le_refl _)
    have hroom : target.length ≤ numStreamBytes := by
      rw [ht, hopDataSize_eq, numStreamBytes_eq]
      omega
    -- Hop `i`, the last before it, decides; the keystreams of the others do not matter.
    let tail := filler hopDataSize (rhoStream fun _ => exitKeys) i
    have hlen : (fillerStream hopDataSize numStreamBytes tail target).length = numStreamBytes := by
      refine length_fillerStream _ _ _ _ ?_ hroom
      rw [ht, hfill, Nat.succ_mul]
    let keys : Nat → LayerKeys := fun j =>
      if j = i then ⟨⟨fillerStream hopDataSize numStreamBytes tail target, hlen⟩, exitKeys.mu⟩
      else exitKeys
    have htail : filler hopDataSize (rhoStream keys) i = tail := by
      refine filler_congr hopDataSize i fun j hj => ?_
      have : keys j = exitKeys := if_neg (by omega)
      rw [rhoStream, this, rhoStream]
    refine ⟨keys, if_neg (by omega),
      filler_fillerStream hopDataSize numStreamBytes i _ target (hfill keys) ht hroom ?_⟩
    have : keys i = ⟨⟨fillerStream hopDataSize numStreamBytes tail target, hlen⟩, exitKeys.mu⟩ :=
      if_pos rfl
    rw [rhoStream, this, htail]
    rfl

/-- The part of the last hop's keystream that lies over the filler. -/
def exitWindow (exitKeys : LayerKeys) (n : Nat) : List UInt8 :=
  (exitKeys.rho.toList.drop (routingInfoSize - (n - 1) * hopDataSize)).take ((n - 1) * hopDataSize)

theorem length_exitWindow (exitKeys : LayerKeys) {n : Nat} (hn : n ≤ numMaxHops) :
    (exitWindow exitKeys n).length = (n - 1) * hopDataSize := by
  have hmax : numMaxHops = 20 := rfl
  rw [exitWindow, List.length_take, List.length_drop, List.Vector.toList_length, hopDataSize_eq,
    routingInfoSize_eq, numStreamBytes_eq]
  omega

section
variable {exitKeys : LayerKeys} {exitHop : OnionHop} {assocData : List UInt8}

theorem recoverable_of_route (keys : Nat → LayerKeys) (path : PaymentPath)
    (hpos : 0 < path.trueRouteLength) (hkeys : keys (path.trueRouteLength - 1) = exitKeys)
    (hhop : path.hop (path.trueRouteLength - 1) = exitHop) :
    exitHeader keys path hpos ∈ Recoverable exitKeys exitHop assocData path.trueRouteLength :=
  ⟨keys, path, ⟨none, none⟩, _, _, _, rfl, hkeys, hhop,
    newOnionPacketWith_eq keys path assocData _ hpos, receivedAt_length rfl rfl hpos⟩

/-- **The last hop of `n` is left with zeroes, then anything, then the end of its own
keystream.** -/
theorem recoverable_iff (hset : exitHop.isEmpty = false) {n : Nat} (hpos : 0 < n) (hn : n ≤ numMaxHops)
    (routingInfo : Bytes routingInfoSize) :
    routingInfo ∈ Recoverable exitKeys exitHop assocData n ↔
      ∃ middle : List UInt8, middle.length = (n - 1) * hopDataSize ∧
        routingInfo.toList = List.replicate (routingInfoSize - n * hopDataSize) 0 ++
          (middle ++ exitKeys.rho.toList.drop routingInfoSize) := by
  have hwin := length_exitWindow exitKeys hn
  constructor
  · intro hex
    obtain ⟨keys, path, ephemeralKey, sent, pkt, headerMac, rfl, rfl, -, hnew, hreceived⟩ := hex
    rw [newOnionPacketWith_eq keys path assocData ephemeralKey hpos] at hnew
    cases hnew
    rw [receivedAt_length rfl rfl hpos] at hreceived
    cases hreceived
    have hfill : (routeFiller keys path).length = (path.trueRouteLength - 1) * hopDataSize :=
      filler_length_of (rhoStream keys) path.trueRouteLength hn (fun i _ => length_rhoStream keys i)
        (by omega)
    refine ⟨pad (routeFiller keys path) (exitWindow _ _), ?_, rfl⟩
    rw [length_pad, hfill, hwin, Nat.min_self]
  · intro hex
    obtain ⟨middle, hmiddle, hinfo⟩ := hex
    -- The filler that the exit's keystream turns into `middle`.
    have htarget : (pad (exitWindow exitKeys n) middle).length = (n - 1) * hopDataSize := by
      rw [length_pad, hwin, hmiddle, Nat.min_self]
    obtain ⟨keys, hkeys, hfill⟩ := exists_filler exitKeys (by omega) _ htarget
    have hlen := PaymentPath.trueRouteLength_repeated hset hn
    have hpos' : 0 < (PaymentPath.repeated exitHop n).trueRouteLength := by rwa [hlen]
    have hleft : routingInfo = exitHeader keys (PaymentPath.repeated exitHop n) hpos' := by
      apply List.Vector.eq
      show routingInfo.toList = exitRemainder keys (PaymentPath.repeated exitHop n)
      rw [hinfo, exitRemainder, routeFiller, hlen, hfill, rhoStream, hkeys, ← exitWindow, pad_comm,
        pad_pad_left _ _ (by rw [hwin, hmiddle])]
    have hmem : exitHeader keys (PaymentPath.repeated exitHop n) hpos' ∈
        Recoverable exitKeys exitHop assocData (PaymentPath.repeated exitHop n).trueRouteLength := by
      refine recoverable_of_route keys _ hpos' ?_ ?_
      · rw [hlen, hkeys]
      · rw [hlen, PaymentPath.hop_repeated _ hn (by omega)]
    rw [hlen] at hmem
    rw [hleft]
    exact hmem

/-- Behind at most `n` hops, the front of what is left is zero. -/
theorem zero_of_recoverable (hset : exitHop.isEmpty = false) {n : Nat} (hpos : 0 < n)
    (hn : n ≤ numMaxHops) {routingInfo : Bytes routingInfoSize}
    (h : routingInfo ∈ Recoverable exitKeys exitHop assocData n) {k : Nat}
    (hk : k < routingInfoSize - n * hopDataSize) : routingInfo.toList[k]? = some 0 := by
  obtain ⟨middle, -, hinfo⟩ := (recoverable_iff hset hpos hn routingInfo).mp h
  rw [hinfo, List.getElem?_append_left (by rw [List.length_replicate]; exact hk),
    List.getElem?_replicate, if_pos hk]

/-- Behind more hops than `m` there need not be as many zeroes as behind `m`. -/
theorem exists_recoverable_ne_zero (exitKeys : LayerKeys) (assocData : List UInt8)
    (hset : exitHop.isEmpty = false) {n m : Nat} (hm : 0 < m) (hmn : m < n) (hn : n ≤ numMaxHops) :
    ∃ routingInfo ∈ Recoverable exitKeys exitHop assocData n,
      ∃ k < routingInfoSize - m * hopDataSize, routingInfo.toList[k]? = some 1 := by
  have hmax : numMaxHops = 20 := rfl
  let middle : List UInt8 := List.replicate ((n - 1) * hopDataSize) 1
  have hlen : (List.replicate (routingInfoSize - n * hopDataSize) 0 ++
      (middle ++ exitKeys.rho.toList.drop routingInfoSize)).length = routingInfoSize := by
    have hrho : exitKeys.rho.toList.length = 1365 := List.Vector.toList_length _
    simp only [middle, List.length_append, List.length_replicate, List.length_drop, hrho, hopDataSize_eq,
      routingInfoSize_eq]
    omega
  refine ⟨⟨_, hlen⟩, (recoverable_iff hset (by omega) hn _).mpr ⟨middle, List.length_replicate, rfl⟩,
    routingInfoSize - n * hopDataSize, ?_, ?_⟩
  · rw [hopDataSize_eq, routingInfoSize_eq]
    omega
  · have hfirst : 0 < (n - 1) * hopDataSize := Nat.mul_pos (by omega) (by decide)
    show (List.replicate (routingInfoSize - n * hopDataSize) 0 ++
      (middle ++ exitKeys.rho.toList.drop routingInfoSize))[_]? = some 1
    rw [List.getElem?_append_right (by rw [List.length_replicate]), List.length_replicate, Nat.sub_self,
      List.getElem?_append_left (by rw [List.length_replicate]; exact hfirst), List.getElem?_replicate,
      if_pos hfirst]

/-- **Route-length hiding goes one way.** What the last hop is left with behind `n`
hops is possible behind `m` hops exactly if there are no fewer of them. -/
theorem recoverable_subset_iff (hset : exitHop.isEmpty = false) {n m : Nat} (hn : 0 < n)
    (hn' : n ≤ numMaxHops) (hm : 0 < m) (hm' : m ≤ numMaxHops) :
    Recoverable exitKeys exitHop assocData n ⊆ Recoverable exitKeys exitHop assocData m ↔ n ≤ m := by
  constructor
  · intro hsub
    by_contra hlt
    obtain ⟨routingInfo, hmem, k, hk, hone⟩ := exists_recoverable_ne_zero exitKeys assocData hset hm
      (Nat.lt_of_not_le hlt) hn'
    rw [zero_of_recoverable hset hm hm' (hsub hmem) hk] at hone
    exact absurd hone (by decide)
  · -- Of the zeroes, as many as the longer route's filler reaches are just its middle.
    intro hle routingInfo hmem
    have hmax : numMaxHops = 20 := rfl
    obtain ⟨middle, hmiddle, hinfo⟩ := (recoverable_iff hset hn hn' routingInfo).mp hmem
    refine (recoverable_iff hset hm hm' routingInfo).mpr
      ⟨List.replicate ((m - n) * hopDataSize) 0 ++ middle, ?_, ?_⟩
    · rw [List.length_append, List.length_replicate, hmiddle, ← Nat.add_mul]
      congr 1
      omega
    · have hzeroes : routingInfoSize - n * hopDataSize =
          routingInfoSize - m * hopDataSize + (m - n) * hopDataSize := by
        rw [hopDataSize_eq, routingInfoSize_eq]
        omega
      rw [hinfo, hzeroes, List.replicate_add, List.append_assoc, List.append_assoc]

end

/-- A last hop with an all-zero keystream. -/
def zeroExit : LayerKeys := ⟨zeroBytes numStreamBytes, fun _ => sampleHash⟩

/-- The behind-two-hops header: zeroes, a hop's worth of ones, and the exit's keystream. -/
def twoHopHeader : Bytes routingInfoSize :=
  ⟨List.replicate 1170 0 ++ (List.replicate 65 1 ++ List.replicate 65 0), by
    simp only [List.length_append, List.length_replicate]
    rfl⟩

/-- Every header behind one hop is possible behind two. -/
theorem oneHop_subset : Recoverable zeroExit ⟨residuePoint 1, .empty⟩ [] 1 ⊆
    Recoverable zeroExit ⟨residuePoint 1, .empty⟩ [] 2 :=
  (recoverable_subset_iff rfl (by decide) (by decide) (by decide) (by decide)).mpr (by decide)

/-- But the header behind two is not possible behind one. -/
theorem twoHopHeader_reveals :
    twoHopHeader ∈ Recoverable zeroExit ⟨residuePoint 1, .empty⟩ [] 2 ∧
      twoHopHeader ∉ Recoverable zeroExit ⟨residuePoint 1, .empty⟩ [] 1 := by
  constructor
  · refine (recoverable_iff rfl (by decide) (by decide) _).mpr
      ⟨List.replicate 65 1, List.length_replicate, ?_⟩
    show _ = List.replicate 1170 0 ++
      (List.replicate 65 1 ++ (List.replicate numStreamBytes 0).drop routingInfoSize)
    rw [List.drop_replicate]
    rfl
  · intro hmem
    have hzero := zero_of_recoverable rfl (by decide) (by decide) hmem (k := 1170) (by decide)
    have hone : twoHopHeader.toList[1170]? = some 1 := by
      show (List.replicate 1170 0 ++ (List.replicate 65 1 ++ List.replicate 65 0))[1170]? = some 1
      rw [List.getElem?_append_right (by rw [List.length_replicate]), List.length_replicate]
      rfl
    rw [hzero] at hone
    exact absurd hone (by decide)

end LightningOnion
