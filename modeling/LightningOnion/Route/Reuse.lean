import LightningOnion.Failure.Return
import LightningOnion.Router.AtMostOnce

/-! Session keys used again.

The prefix by which a hop recognises a replay is derived from the session key and the
nodes up to the hop, and from nothing else: not from the instructions, the associated
data or the rest of the route. So two payments with one session key are one packet to
every hop of their common front, and the second is refused as a replay of the first. -/
namespace LightningOnion
open Lib

variable {P : Primitives}

/-- Two routes that use one session key, and agree up to hop `i`. -/
structure Route.SharesFront (R R' : Route P) (i : Nat) : Prop where
  sessionKey : R'.sessionKey = R.sessionKey
  node : ∀ j, j ≤ i → R'.node j = R.node j

/-- What a hop is sent depends on the nodes before it only. -/
theorem hopEphemeral_congr (sessionKey : PrivateKey P) {node node' : Nat → PrivateKey P} {i : Nat}
    (h : ∀ j, j < i → node' j = node j) :
    hopEphemeral sessionKey node' i = hopEphemeral sessionKey node i := by
  induction i with
  | zero => rfl
  | succ i ih => rw [hopEphemeral, hopEphemeral, ih fun j hj => h j (by omega), h i (Nat.lt_succ_self i)]

theorem Route.SharesFront.secret_eq {R R' : Route P} {i : Nat} (h : R.SharesFront R' i) :
    R'.secret i = R.secret i := by
  rw [Route.secret, Route.secret, hopSecret, hopSecret, h.sessionKey, h.node i (Nat.le_refl i),
    hopEphemeral_congr R.sessionKey fun j hj => h.node j (Nat.le_of_lt hj)]

/-- **A session key can be used once.** Once a hop has accepted the packet of one route,
however it came to it, it refuses as a replay the packet of every other route with the
same session key and the same nodes up to the hop, whatever that route's instructions,
associated data and further hops, for as long as its log runs. As for every acceptance,
the IDs of the node's transactions differ from one another and from those recorded at
the start. -/
theorem Route.reused_rejected {E : Type} [AddCommGroup E] (C : CurveModel P E) (R R' : Route P) {i : Nat}
    (hshares : R.SharesFront R' i) (hi : i < R'.length) (hx : R'.sessionKey.d % P.order ≠ 0)
    (hb : BlindingsNonzero R'.sessionKey R'.node i) {node : Nat → Node P} {op : Nat → NodeOp} {m : Nat}
    (hrun : Run (NodeStep (R.router i)) node op m) {bs : LogBatches} {es : LogEntries}
    (h0 : node 0 = ⟨.started bs es, []⟩) (hids : Fresh NodeOp.Begins (· ∈ bs) op m) {a : Nat}
    (ha : a < m) {x : Option UInt16}
    (haccepts : Accepts (R.router i) (node a) (op a) x (hashSharedSecret P (R.secret i)))
    {k : Nat} (hak : a < k) (hk : k ≤ m) (cltv : UInt32) :
    (R.router i).processOnionPacket (node k).log (R'.packetAt i) R'.assocData cltv =
      ((node k).log, .error .errReplayedPacket) := by
  have hrouter : R'.router i = R.router i := by
    rw [Route.router, Route.router, hshares.node i (Nat.le_refl i)]
  obtain ⟨packet, hexamine⟩ := R'.examine_packetAt_ok C hx hi hb
  rw [hrouter, hshares.secret_eq] at hexamine
  have hheld := holds_after_accepts hrun h0 hids ha haccepts hak hk
  obtain ⟨bs', es', hlog, -⟩ := (inv_of_run hrun h0 hids hk).started
  rw [hlog, Router.processOnionPacket_replay bs' es' hexamine cltv ((Node.holds_iff hlog _).mp hheld)]

/-- Another payment with the session key of the open route. -/
def openRouteAgain : Route openPrimitives where
  path := PaymentPath.repeated ⟨residuePoint 1, {HopData.empty with forwardAmount := 5}⟩ 3
  node := openRoute.node
  sessionKey := openRoute.sessionKey
  assocData := [1]
  pos := by rw [PaymentPath.trueRouteLength_repeated rfl (by decide)]; decide
  nodePub := fun i hi => by
    rw [PaymentPath.trueRouteLength_repeated rfl (by decide)] at hi
    rw [PaymentPath.hop_repeated _ (by decide) hi]
    rfl

/-- What the first hop of the open route is asked to do. -/
def openOp : NodeOp := .process (openRoute.packetAt 0) openRoute.assocData 7

/-- The log with the payment of the open route in it. -/
def openLog : MemoryReplayLog :=
  .started ∅ (Finmap.insert (hashSharedSecret openPrimitives (openRoute.secret 0)) 7 ∅)

/-- The first hop of both payments takes the first one, and not the second. -/
theorem openRouteAgain_rejected :
    NodeStep (openRoute.router 0) ⟨.started ∅ ∅, []⟩ openOp ⟨openLog, []⟩ ∧
    (openRoute.router 0).processOnionPacket openLog (openRouteAgain.packetAt 0) openRouteAgain.assocData 9 =
      (openLog, .error .errReplayedPacket) := by
  have hx : openRoute.sessionKey.d % 5 ≠ 0 := by decide
  have hb : BlindingsNonzero openRoute.sessionKey openRoute.node 0 :=
    fun j hj => absurd hj (Nat.not_lt_zero j)
  obtain ⟨packet, hexamine⟩ := openRoute.examine_packetAt_ok openCurve hx openRoute.pos hb
  have hfresh := Router.processOnionPacket_fresh ∅ ∅ hexamine 7 Finmap.notMem_empty
  have hstep := NodeStep.process ⟨.started ∅ ∅, []⟩ (openRoute.packetAt 0) openRoute.assocData 7
    (r := openRoute.router 0)
  simp only [hfresh] at hstep
  have haccepts : Accepts (openRoute.router 0) ⟨.started ∅ ∅, []⟩ openOp none
      (hashSharedSecret openPrimitives (openRoute.secret 0)) :=
    .process (openRoute.generateSharedSecret_packetAt openCurve hx hb) (congrArg Prod.snd hfresh)
  have hrun : Run (NodeStep (openRoute.router 0)) (before ⟨.started ∅ ∅, []⟩ fun _ => ⟨openLog, []⟩)
      (fun _ => openOp) 1 := by
    refine ⟨fun i hi => ?_⟩
    obtain rfl : i = 0 := by omega
    exact hstep
  exact ⟨hstep, openRoute.reused_rejected openCurve openRouteAgain ⟨rfl, fun _ _ => rfl⟩
    openRouteAgain.pos hx hb hrun rfl (fresh_of_none fun _ _ _ ⟨_, hop⟩ => by cases hop) Nat.one_pos
    haccepts Nat.one_pos (Nat.le_refl 1) 9⟩

end LightningOnion
