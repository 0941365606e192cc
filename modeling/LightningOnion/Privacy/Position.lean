import LightningOnion.Packet.Frame
import LightningOnion.Privacy.RouteLength

/-! What a forwarding hop learns of its place on the route.

The last hop learns something of the route's length (`recoverable_subset_iff`). A hop
that is to forward the packet does not: whatever it receives and unwraps, it could have
received and unwrapped at any other place of any other route, for some keys of the other
hops (`views_eq`). What it forwards ends as its own keystream does; everything in front
of that can be anything, because the next hop's keystream is added to it where no filler
is taken from (`headerAt_redirected`). -/
namespace LightningOnion
open Lib

/-! ### Later layers -/

theorem addLayer_congr {keys keys' : Nat → LayerKeys} {i : Nat} (h : keys' i = keys i)
    (filler assocData : List UInt8) (numHops : Nat) (st : BuildState) :
    addLayer keys' filler assocData numHops i st = addLayer keys filler assocData numHops i st := by
  simp only [addLayer, h]

section
variable (keys : Nat → LayerKeys) (path : PaymentPath) (assocData : List UInt8)

/-- The layers after hop `q` see its keystream in the filler only. -/
theorem stateAt_congr {keys' : Nat → LayerKeys} {q : Nat} (hkeys : ∀ j, q < j → keys' j = keys j)
    (hfill : routeFiller keys' path = routeFiller keys path) {j : Nat} (hj : q < j)
    (hle : j ≤ path.trueRouteLength) :
    stateAt keys' path assocData j = stateAt keys path assocData j := by
  obtain ⟨d, hd⟩ : ∃ d, j + d = path.trueRouteLength := ⟨path.trueRouteLength - j, by omega⟩
  induction d generalizing j with
  | zero =>
    obtain rfl : j = path.trueRouteLength := by omega
    rw [stateAt_length, stateAt_length]
  | succ d ih =>
    rw [stateAt_step keys' path assocData (by omega), stateAt_step keys path assocData (by omega), hfill,
      ih (by omega) (by omega) (by omega), addLayer_congr (hkeys j hj)]

/-! ### Another header for the next hop -/

variable (q : Nat) (target : Bytes routingInfoSize) (hmac : Bytes hmacSize)

/-- The front of a header, before the filler. -/
def frontSize : Nat := routingInfoSize - q * hopDataSize

theorem length_redirected : (restream (rhoStream keys q) (headerAt keys path assocData q).toList
    target.toList (frontSize q)).length = numStreamBytes := by
  have hfront : frontSize q ≤ routingInfoSize := Nat.sub_le _ _
  have hroom : routingInfoSize ≤ numStreamBytes := by decide
  rw [length_restream, length_rhoStream]
  · rw [length_rhoStream]
    omega
  · rw [List.Vector.toList_length]
    exact hfront
  · rw [List.Vector.toList_length]
    exact hfront

/-- The keys with those of hop `q` changed, for it to receive `target` and `hmac`. -/
def redirected : Nat → LayerKeys :=
  Function.update keys q
    ⟨⟨restream (rhoStream keys q) (headerAt keys path assocData q).toList target.toList (frontSize q),
      length_redirected keys path assocData q target⟩, fun _ => hmac⟩

theorem redirected_of_ne {j : Nat} (hj : j ≠ q) :
    redirected keys path assocData q target hmac j = keys j :=
  Function.update_of_ne hj _ _

theorem rhoStream_redirected : rhoStream (redirected keys path assocData q target hmac) q =
    restream (rhoStream keys q) (headerAt keys path assocData q).toList target.toList (frontSize q) := by
  rw [rhoStream, redirected, Function.update_self]
  rfl

/-- No filler is taken from the front. -/
theorem routeFiller_redirected :
    routeFiller (redirected keys path assocData q target hmac) path = routeFiller keys path := by
  refine filler_congr hopDataSize _ fun j hj => ?_
  by_cases heq : j = q
  · subst heq
    have hmax := path.trueRouteLength_le
    have hmax' : numMaxHops = 20 := rfl
    rw [rhoStream_redirected]
    apply rtake_restream
    · rw [length_rhoStream, frontSize, numStreamBytes_eq, routingInfoSize_eq]
      omega
    · rw [List.Vector.toList_length]
      exact Nat.sub_le _ _
    · rw [List.Vector.toList_length]
      exact Nat.sub_le _ _
    · rw [length_rhoStream, frontSize, numStreamBytes_eq, routingInfoSize_eq, hopDataSize_eq]
      omega
  · rw [rhoStream, redirected_of_ne keys path assocData q target hmac heq, rhoStream]

theorem stateAt_redirected {j : Nat} (hj : q < j) (hle : j ≤ path.trueRouteLength) :
    stateAt (redirected keys path assocData q target hmac) path assocData j =
      stateAt keys path assocData j :=
  stateAt_congr keys path assocData
    (fun j hj => redirected_of_ne keys path assocData q target hmac (by omega))
    (routeFiller_redirected keys path assocData q target hmac) hj hle

variable {q} (hq : q < path.trueRouteLength)
include hq

omit hq in
theorem length_body (hd : HopData) (inner : Bytes routingInfoSize) :
    (hd.encode ++ inner.toList.take (routingInfoSize - hd.encode.length)).length = routingInfoSize := by
  rw [List.length_append, List.length_take, HopData.length_encode, List.Vector.toList_length,
    hopDataSize_eq, routingInfoSize_eq]
  decide

theorem headerAt_redirected_eq :
    (headerAt (redirected keys path assocData q target hmac) path assocData q).toList =
      target.toList.take (frontSize q) ++
        (headerAt keys path assocData q).toList.drop (frontSize q) := by
  have hmax := path.trueRouteLength_le
  have hfront : frontSize q ≤ routingInfoSize := Nat.sub_le _ _
  have htarget : frontSize q ≤ target.toList.length := by rwa [List.Vector.toList_length]
  have hstream : routingInfoSize ≤ (rhoStream keys q).length := by
    rw [length_rhoStream]
    decide
  have hstate := stateAt_redirected keys path assocData q target hmac (Nat.lt_succ_self q) hq
  have hdata : hopDataAt (redirected keys path assocData q target hmac) path assocData q =
      hopDataAt keys path assocData q := by
    rw [hopDataAt, hopDataAt, macAt, macAt, hstate]
  by_cases hlast : q + 1 < path.trueRouteLength
  · have hold := headerAt_step keys path assocData hlast
    rw [headerAt_step _ _ _ hlast, hdata, headerAt, hstate, ← headerAt, rhoStream_redirected,
      wrap_restream hfront hstream (length_body _ _) (congrArg _ hold)
        (by rwa [List.Vector.toList_length]) htarget, ← hold]
  · obtain rfl : q = path.trueRouteLength - 1 := by omega
    have hfill : (routeFiller keys path).length = (path.trueRouteLength - 1) * hopDataSize :=
      filler_length_of (rhoStream keys) path.trueRouteLength hmax
        (fun i _ => length_rhoStream keys i) (by omega)
    have hsize : frontSize (path.trueRouteLength - 1) + (routeFiller keys path).length =
        routingInfoSize := by
      have hmax' : numMaxHops = 20 := rfl
      rw [hfill, frontSize, routingInfoSize_eq, hopDataSize_eq]
      omega
    rw [headerAt_last _ _ _ (by omega), hdata, routeFiller_redirected, rhoStream_redirected,
      headerAt_last keys path assocData (by omega),
      overwriteTail_restream hsize hstream (length_body _ _) htarget]

/-- **Hop `q` receives any header that ends in its filler.** -/
theorem headerAt_redirected
    (htail : target.toList.rtake (q * hopDataSize) = filler hopDataSize (rhoStream keys) q) :
    headerAt (redirected keys path assocData q target hmac) path assocData q = target := by
  have hold := rtake_headerAt keys path assocData hq
  rw [← htail, List.rtake, List.rtake, List.Vector.toList_length, List.Vector.toList_length] at hold
  apply List.Vector.eq
  rw [headerAt_redirected_eq keys path assocData target hmac hq, frontSize, hold, List.take_append_drop]

theorem macAt_redirected :
    macAt (redirected keys path assocData q target hmac) path assocData q = hmac := by
  rw [macAt_eq _ _ _ hq, redirected, Function.update_self]

end

/-! ### What a forwarding hop sees -/

/-- What a hop receives, and what it makes of it. -/
structure HopView where
  routeInfo : Bytes routingInfoSize
  headerMac : Bytes hmacSize
  hopData : HopData
  nextMixHeader : Bytes routingInfoSize

/-- What hop `i` of the path, with the keys `hopKeys`, can see, over all keys of the
others: the hops before it unwrap the packet and pass it on. -/
def Views (hopKeys : LayerKeys) (path : PaymentPath) (assocData : List UInt8) (i : Nat) : Set HopView :=
  {view | ∃ keys ephemeralKey sent pkt, keys i = hopKeys ∧
    newOnionPacketWith keys ephemeralKey path assocData = some (sent, pkt) ∧
    receivedAt keys assocData pkt i = .ok (view.routeInfo, view.headerMac) ∧
    unwrapLayer hopKeys view.routeInfo view.headerMac assocData = .ok (view.hopData, view.nextMixHeader)}

section
variable (hopKeys : LayerKeys) (path : PaymentPath) (assocData : List UInt8) {i : Nat}
  (hi : i + 1 < path.trueRouteLength)
include hi

theorem mem_views {view : HopView} : view ∈ Views hopKeys path assocData i ↔
    ∃ keys, keys i = hopKeys ∧ view = ⟨headerAt keys path assocData i, macAt keys path assocData i,
      hopDataAt keys path assocData i, headerAt keys path assocData (i + 1)⟩ := by
  constructor
  · rintro ⟨keys, ephemeralKey, sent, pkt, rfl, hnew, hreceived, hunwrap⟩
    rw [newOnionPacketWith_eq keys path assocData ephemeralKey (by omega)] at hnew
    cases hnew
    rw [receivedAt_eq rfl rfl (by omega)] at hreceived
    obtain ⟨hinfo, hmac⟩ := Prod.mk.inj (Except.ok.inj hreceived)
    rw [← hinfo, ← hmac, unwrapLayer_layer keys path assocData hi] at hunwrap
    obtain ⟨hdata, hnext⟩ := Prod.mk.inj (Except.ok.inj hunwrap)
    refine ⟨keys, rfl, ?_⟩
    rw [hinfo, hmac, hdata, hnext]
  · rintro ⟨keys, rfl, rfl⟩
    exact ⟨keys, ⟨none, none⟩, _, _, rfl, newOnionPacketWith_eq keys path assocData _ (by omega),
      receivedAt_eq rfl rfl (by omega), unwrapLayer_layer keys path assocData hi⟩

theorem rtake_nextMixHeader (keys : Nat → LayerKeys) :
    (headerAt keys path assocData (i + 1)).toList.rtake hopDataSize =
      (rhoStream keys i).rtake hopDataSize := by
  have hroom : hopDataSize ≤ routingInfoSize := by decide
  have hsize : numStreamBytes - hopDataSize = routingInfoSize := by decide
  have hpeel : peel hopDataSize (rhoStream keys i) (headerAt keys path assocData i).toList =
      (hopDataAt keys path assocData i).encode ++ (headerAt keys path assocData (i + 1)).toList :=
    (layers keys path assocData (by omega)).peel_header hi
  have hlen : (peel hopDataSize (rhoStream keys i)
      (headerAt keys path assocData i).toList).length = numStreamBytes := length_peel (keys i) _
  rw [← rtake_append_of_le (hopDataAt keys path assocData i).encode _
      (by rwa [List.Vector.toList_length]), ← hpeel, List.rtake, List.rtake, hlen, length_rhoStream, hsize,
    peel, drop_pad, List.drop_left' (List.Vector.toList_length _), blanks_pad]
  refine List.take_of_length_le ?_
  rw [List.length_drop, length_rhoStream]
  decide

/-- Whatever ends as a hop's keystream does can be what it forwards, under any MAC. -/
theorem exists_nextMixHeader (next : Bytes routingInfoSize) (hmac : Bytes hmacSize)
    (hnext : next.toList.rtake hopDataSize = hopKeys.rho.toList.rtake hopDataSize) :
    ∃ keys, keys i = hopKeys ∧ headerAt keys path assocData (i + 1) = next ∧
      macAt keys path assocData (i + 1) = hmac := by
  have hmax := path.trueRouteLength_le
  have hmax' : numMaxHops = 20 := rfl
  have hfits : (i + 1) * hopDataSize ≤ routingInfoSize := by
    rw [hopDataSize_eq, routingInfoSize_eq]
    omega
  have hroom : routingInfoSize ≤ numStreamBytes := by decide
  have hinfo : next.toList.length = routingInfoSize := next.toList_length
  have hrho : hopKeys.rho.toList.length = numStreamBytes := hopKeys.rho.toList_length
  -- Of what is to be the filler behind the hop, the filler in front of it.
  let target := next.toList.rtake ((i + 1) * hopDataSize)
  let window := hopKeys.rho.toList.rtake ((i + 1) * hopDataSize)
  have htarget : target.length = (i + 1) * hopDataSize := by
    simp only [target, List.rtake, List.length_drop, hinfo]
    omega
  have hwindow : window.length = (i + 1) * hopDataSize := by
    simp only [window, List.rtake, List.length_drop, hrho]
    omega
  have hlen : ((pad target window).take (i * hopDataSize)).length = i * hopDataSize := by
    rw [List.length_take, length_pad, htarget, hwindow, Nat.succ_mul]
    omega
  obtain ⟨keys, hkeys, hfill⟩ := exists_filler hopKeys (k := i) (by omega) _ hlen
  have hstream : rhoStream keys i = hopKeys.rho.toList := by rw [rhoStream, hkeys]
  have hbehind : filler hopDataSize (rhoStream keys) (i + 1) = target := by
    refine filler_behind hopDataSize i (rhoStream keys) target ?_ htarget ?_ (hstream ▸ hfill)
    · rw [length_rhoStream]
      omega
    · rw [hstream, drop_rtake _ (by omega) (by rw [Nat.succ_mul]; omega),
        drop_rtake _ (by omega) (by rw [Nat.succ_mul]; omega), Nat.succ_mul, Nat.add_sub_cancel_left, hnext]
  refine ⟨redirected keys path assocData (i + 1) next hmac, ?_,
    headerAt_redirected keys path assocData next hmac hi hbehind.symm,
    macAt_redirected keys path assocData next hmac hi⟩
  rw [redirected_of_ne _ _ _ _ _ _ (by omega), hkeys]

theorem views_subset {path' : PaymentPath} {j : Nat} (hj : j + 1 < path'.trueRouteLength)
    (hsame : SameInstructions (path'.hop j).hopData (path.hop i).hopData) :
    Views hopKeys path assocData i ⊆ Views hopKeys path' assocData j := by
  intro view hview
  obtain ⟨keys, rfl, rfl⟩ := (mem_views hopKeys path assocData hi).mp hview
  obtain ⟨keys', hkeys, hheader, hmac⟩ := exists_nextMixHeader (keys i) path' assocData hj
    (headerAt keys path assocData (i + 1)) (macAt keys path assocData (i + 1))
    (rtake_nextMixHeader path assocData hi keys)
  have hdata : hopDataAt keys' path' assocData j = hopDataAt keys path assocData i := by
    rw [hopDataAt, hmac, hsame.with_hmac, hopDataAt]
  have hinfo : headerAt keys' path' assocData j = headerAt keys path assocData i := by
    apply List.Vector.eq
    rw [headerAt_step keys' path' assocData hj, headerAt_step keys path assocData hi, hdata, hheader,
      rhoStream, hkeys, rhoStream]
  refine (mem_views (keys i) path' assocData hj).mpr ⟨keys', hkeys, ?_⟩
  rw [hinfo, hdata, hheader, macAt_eq keys' path' assocData (by omega),
    macAt_eq keys path assocData (by omega), hinfo, hkeys]

end

/-- **A forwarding hop learns nothing of its place.** What a hop with given keys and
instructions can receive and unwrap, over all keys of the other hops, is the same at
every place of every route at which it has to forward the packet, whatever its length
and whatever the others are told. -/
theorem views_eq (hopKeys : LayerKeys) (path path' : PaymentPath) (assocData : List UInt8) {i j : Nat}
    (hi : i + 1 < path.trueRouteLength) (hj : j + 1 < path'.trueRouteLength)
    (hsame : SameInstructions (path.hop i).hopData (path'.hop j).hopData) :
    Views hopKeys path assocData i = Views hopKeys path' assocData j := by
  have hsame' : SameInstructions (path'.hop j).hopData (path.hop i).hopData := Eq.symm hsame
  exact Set.Subset.antisymm (views_subset hopKeys path assocData hi hj hsame')
    (views_subset hopKeys path' assocData hj hi hsame)

/-- The first of two hops and the fourth of twenty. -/
theorem views_sample : Views zeroExit (PaymentPath.repeated ⟨residuePoint 1, .empty⟩ 2) [] 0 =
    Views zeroExit (PaymentPath.repeated ⟨residuePoint 1, .empty⟩ 20) [] 3 := by
  refine views_eq zeroExit _ _ [] ?_ ?_ rfl
  · rw [PaymentPath.trueRouteLength_repeated rfl (by decide)]
    decide
  · rw [PaymentPath.trueRouteLength_repeated rfl (by decide)]
    decide

end LightningOnion
