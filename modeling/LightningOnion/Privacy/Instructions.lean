import LightningOnion.Lib.Masking
import LightningOnion.Packet.Frame

/-! The instructions of later hops stay hidden.

Change what the path tells some of its hops, and change those hops' keystreams over
their hop data to match: the packet does not change (`headerAt_rekeyed`). The end of
a keystream is left alone, and the filler is taken from nowhere else; the MACs are
over headers, which are the same. So a hop that knows its own keys and those of the
hops before it cannot tell from what it receives which instructions were sent to the
hops after it. -/
namespace LightningOnion
open Lib

/-- The keys that make of `hd'` the layer that `k` makes of `hd`. -/
def LayerKeys.rekey (k : LayerKeys) (hd hd' : HopData) : LayerKeys where
  rho := ⟨repad k.rho.toList hd.encode hd'.encode, by
    rw [length_repad _ _ _ (by simp) (by rw [k.rho.toList_length, hd.length_encode]; decide),
      k.rho.toList_length]⟩
  mu := k.mu

theorem LayerKeys.rekey_self (k : LayerKeys) (hd : HopData) : k.rekey hd hd = k := by
  have hrho : (k.rekey hd hd).rho = k.rho :=
    List.Vector.eq _ _ (repad_self _ _ (by rw [k.rho.toList_length, hd.length_encode]; decide))
  calc k.rekey hd hd = ⟨(k.rekey hd hd).rho, k.mu⟩ := rfl
    _ = k := by rw [hrho]

section
variable (keys : Nat → LayerKeys) (path path' : PaymentPath) (assocData : List UInt8)

/-- The keys under which `path'` looks like `path` under `keys`: every layer keeps
the MAC it carries for the next one. -/
def rekeyed (j : Nat) : LayerKeys :=
  (keys j).rekey (hopDataAt keys path assocData j)
    {(path'.hop j).hopData with hmac := macAt keys path assocData (j + 1)}

theorem rekeyed_eq {j : Nat} (h : SameInstructions (path'.hop j).hopData (path.hop j).hopData) :
    rekeyed keys path path' assocData j = keys j := by
  rw [rekeyed, h.with_hmac, ← hopDataAt, LayerKeys.rekey_self]

/-- Rekeyed, a layer that carries the same MAC around the same header is the same. -/
theorem wrap_rekeyed {j : Nat} (inner : List UInt8)
    (hmac : macAt (rekeyed keys path path' assocData) path' assocData (j + 1) =
      macAt keys path assocData (j + 1)) :
    wrap routingInfoSize (rhoStream (rekeyed keys path path' assocData) j)
        (hopDataAt (rekeyed keys path path' assocData) path' assocData j).encode inner =
      wrap routingInfoSize (rhoStream keys j) (hopDataAt keys path assocData j).encode inner := by
  rw [hopDataAt, hmac]
  apply wrap_repad _ _ _ _ _ (by simp)
  · rw [List.Vector.toList_length, HopData.length_encode]
    decide
  · rw [HopData.length_encode]
    decide

variable (hlen : path'.trueRouteLength = path.trueRouteLength)
include hlen

/-- No filler is taken from where a keystream covers hop data. -/
theorem routeFiller_rekeyed :
    routeFiller (rekeyed keys path path' assocData) path' = routeFiller keys path := by
  rw [routeFiller, routeFiller, hlen]
  refine filler_congr hopDataSize _ fun j hj => ?_
  have hmax := path.trueRouteLength_le
  have hmax' : numMaxHops = 20 := rfl
  apply rtake_repad _ _ _ (by simp)
  rw [List.Vector.toList_length, HopData.length_encode, hopDataSize_eq, numStreamBytes_eq]
  omega

/-- **Every hop receives the same header.** -/
theorem headerAt_rekeyed {j : Nat} (hj : j < path.trueRouteLength) :
    headerAt (rekeyed keys path path' assocData) path' assocData j = headerAt keys path assocData j := by
  have hpos : 0 < path.trueRouteLength := by omega
  refine Layers.inward (P := fun j => headerAt (rekeyed keys path path' assocData) path' assocData j =
    headerAt keys path assocData j) ?_ ?_ hj
  · -- The last hop's HMAC is zero on both paths.
    have hnext : path.trueRouteLength - 1 + 1 = path.trueRouteLength := by omega
    have hmac : macAt (rekeyed keys path path' assocData) path' assocData
        (path.trueRouteLength - 1 + 1) = macAt keys path assocData (path.trueRouteLength - 1 + 1) := by
      rw [hnext, macAt_length, ← hlen, macAt_length]
    have hlast := headerAt_last (rekeyed keys path path' assocData) path' assocData (by omega)
    rw [hlen, wrap_rekeyed keys path path' assocData _ hmac,
      routeFiller_rekeyed keys path path' assocData hlen] at hlast
    exact List.Vector.eq _ _ (hlast.trans (headerAt_last keys path assocData hpos).symm)
  · intro j hj hinner
    have hmac : macAt (rekeyed keys path path' assocData) path' assocData (j + 1) =
        macAt keys path assocData (j + 1) := by
      rw [macAt_eq _ _ _ hj, macAt_eq _ _ _ (hlen ▸ hj), hinner]
      rfl
    have hstep := headerAt_step (rekeyed keys path path' assocData) path' assocData (hlen ▸ hj)
    rw [hinner, wrap_rekeyed keys path path' assocData _ hmac] at hstep
    exact List.Vector.eq _ _ (hstep.trans (headerAt_step keys path assocData hj).symm)

theorem macAt_rekeyed {j : Nat} (hj : j ≤ path.trueRouteLength) :
    macAt (rekeyed keys path path' assocData) path' assocData j = macAt keys path assocData j := by
  by_cases hlt : j < path.trueRouteLength
  · rw [macAt_eq _ _ _ hlt, macAt_eq _ _ _ (hlen ▸ hlt), headerAt_rekeyed _ _ _ _ hlen hlt]
    rfl
  · obtain rfl : j = path.trueRouteLength := by omega
    rw [macAt_length, ← hlen, macAt_length]

end

/-- **Secrecy of downstream instructions.** Whatever the hops after hop `i` are told
instead, there are keystreams for them under which the packet is the same, and so is
what hops `0, …, i` find in it. The MACs and the keys of hops `0, …, i` are fixed. -/
theorem instructions_hidden (keys : Nat → LayerKeys) (ephemeralKey : PublicKey)
    (path path' : PaymentPath) (assocData : List UInt8) {i : Nat}
    (hlen : path'.trueRouteLength = path.trueRouteLength) (hi : i + 1 < path.trueRouteLength)
    (hsame : ∀ j, j ≤ i → SameInstructions (path'.hop j).hopData (path.hop j).hopData) :
    ∃ keys' : Nat → LayerKeys, (∀ j, j ≤ i → keys' j = keys j) ∧ (∀ j, (keys' j).mu = (keys j).mu) ∧
      ∃ sent sent' pkt, newOnionPacketWith keys ephemeralKey path assocData = some (sent, pkt) ∧
        newOnionPacketWith keys' ephemeralKey path' assocData = some (sent', pkt) ∧
        ∀ j, j ≤ i → (sent'.hop j).hopData = (sent.hop j).hopData := by
  have hpos : 0 < path.trueRouteLength := by omega
  have hnew := newOnionPacketWith_eq keys path assocData ephemeralKey hpos
  have hnew' := newOnionPacketWith_eq (rekeyed keys path path' assocData) path' assocData ephemeralKey
    (by omega)
  rw [headerAt_rekeyed keys path path' assocData hlen hpos,
    macAt_rekeyed keys path path' assocData hlen (Nat.zero_le _)] at hnew'
  refine ⟨rekeyed keys path path' assocData, fun j hj => rekeyed_eq keys path path' assocData (hsame j hj),
    fun _ => rfl, _, _, _, hnew, hnew', fun j hj => ?_⟩
  rw [hopData_stateAt_zero _ _ _ (by omega), hopData_stateAt_zero _ _ _ (by omega), hopDataAt, hopDataAt,
    macAt_rekeyed keys path path' assocData hlen (by omega), (hsame j hj).with_hmac]

/-- Two hops, of which the second is told to forward `amount`. -/
def payingPath (amount : UInt64) : PaymentPath := fun j =>
  if j.val = 0 then ⟨residuePoint 1, .empty⟩
  else if j.val = 1 then ⟨residuePoint 1, {HopData.empty with forwardAmount := amount}⟩ else .unset

/-- The first hop cannot tell whether the second is paid 0 or 7. -/
theorem payingPath_hidden : ∃ keys' : Nat → LayerKeys,
    keys' 0 = ⟨zeroBytes numStreamBytes, fun _ => sampleHash⟩ ∧
      ∃ sent sent' pkt,
        newOnionPacketWith (fun _ => ⟨zeroBytes numStreamBytes, fun _ => sampleHash⟩) ⟨none, none⟩
          (payingPath 0) [] = some (sent, pkt) ∧
        newOnionPacketWith keys' ⟨none, none⟩ (payingPath 7) [] = some (sent', pkt) := by
  have hlen : ∀ amount, (payingPath amount).trueRouteLength = 2 := fun _ => rfl
  obtain ⟨keys', hkeys, -, sent, sent', pkt, hnew, hnew', -⟩ := instructions_hidden
    (fun _ => ⟨zeroBytes numStreamBytes, fun _ => sampleHash⟩) ⟨none, none⟩ (payingPath 0) (payingPath 7) []
    (i := 0) rfl (by rw [hlen]; decide) (fun j hj => by
      obtain rfl : j = 0 := by omega
      rfl)
  exact ⟨keys', hkeys 0 (Nat.le_refl 0), sent, sent', pkt, hnew, hnew'⟩

end LightningOnion
