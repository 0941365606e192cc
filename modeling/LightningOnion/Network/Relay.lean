import LightningOnion.Failure.Return
import LightningOnion.Network.Traffic

/-! What holds over every run of the network.

`Milestone`s are what a run is remembered by: a payment is sent, and passes one hop
after the other. `Tracks` ties a state of the network to the milestones so far: every
packet on the wire, and every packet waiting in a transaction, is the packet of a hop
that the payment has come to. Where no transaction uses a sequence number twice, the
converse holds as well (`Live`): what a payment has come to is on the wire, and is
accepted when it arrives. -/
namespace LightningOnion.Traffic
open Lib

inductive Milestone (ι : Type) where
  | sent (σ : ι)
  | passed (σ : ι) (i : Nat)

variable {P : Primitives} {ν ι : Type} (T : Traffic P ν ι)

/-- The milestones an operation reaches. -/
def Reaches (net : Net P ν) (op : NetOp ν ι) : Milestone ι → Prop
  | .sent σ => op = .send σ
  | .passed σ i => T.Passes net op σ i

/-- The payment has come to hop `i`: it is sent, and has passed every hop before. -/
def Ready (done : Milestone ι → Prop) (σ : ι) (i : Nat) : Prop :=
  done (.sent σ) ∧ ∀ j, j < i → done (.passed σ j)

theorem Ready.mono {done done' : Milestone ι → Prop} (hle : ∀ x, done x → done' x) {σ : ι} {i : Nat}
    (h : Ready done σ i) : Ready done' σ i :=
  ⟨hle _ h.1, fun j hj => hle _ (h.2 j hj)⟩

theorem Ready.succ {done : Milestone ι → Prop} {σ : ι} {i : Nat} (h : Ready done σ i)
    (hi : done (.passed σ i)) : Ready done σ (i + 1) := by
  refine ⟨h.1, fun j hj => ?_⟩
  rcases Nat.lt_succ_iff_lt_or_eq.mp hj with hlt | rfl
  · exact h.2 j hlt
  · exact hi

/-- A prefix and a packet at node `v` are those of a hop a payment has come to. -/
def Genuine (done : Milestone ι → Prop) (v : ν) (h : HashPrefix) (packet : ProcessedPacket) : Prop :=
  ∃ σ i, i < (T.route σ).length ∧ v = T.station σ i ∧ h = T.tag σ i ∧
    packet = (T.route σ).processedAt i ∧ Ready done σ i

structure Tracks (done : Milestone ι → Prop) (net : Net P ν) : Prop where
  inv : ∀ v, (net.node v).Inv
  wire : ∀ bytes, bytes ∈ net.wire → ∃ σ i, i < (T.route σ).length ∧
    bytes = ((T.route σ).packetAt i).encode P ∧ Ready done σ i
  caches : ∀ v (k : Nat) o, (net.node v).txs[k]? = some o → o.Caches (T.router v) (T.Genuine done v)

variable {T} {net net' : Net P ν} {op : NetOp ν ι} {done : Milestone ι → Prop}

theorem Genuine.mono {done' : Milestone ι → Prop} (hle : ∀ x, done x → done' x) {v : ν}
    {h : HashPrefix} {packet : ProcessedPacket} (hg : T.Genuine done v h packet) :
    T.Genuine done' v h packet := by
  obtain ⟨σ, i, hi, hv, hh, hp, hready⟩ := hg
  exact ⟨σ, i, hi, hv, hh, hp, hready.mono hle⟩

theorem decode_given {v : ν} {nop : NodeOp} (hop : op.nodeOp P = some (v, nop)) {pkt : OnionPacket}
    {assocData : List UInt8} (hgiven : nop.given = some (pkt, assocData)) :
    ∃ cuts rest, OnionPacket.decode P ⟨op.bytes, cuts⟩ = .ok (pkt, rest) := by
  cases op with
  | send => cases hop
  | beginTxn =>
    cases hop
    cases hgiven
  | commit =>
    cases hop
    cases hgiven
  | deliver w bytes cuts a cltv =>
    refine ⟨cuts, ?_⟩
    rw [NetOp.nodeOp] at hop
    split at hop
    · rename_i hdec
      cases hop
      cases hgiven
      exact ⟨_, hdec⟩
    · cases hop
  | deliverTx w k s bytes cuts a cltv =>
    refine ⟨cuts, ?_⟩
    rw [NetOp.nodeOp] at hop
    split at hop
    · rename_i hdec
      cases hop
      cases hgiven
      exact ⟨_, hdec⟩
    · cases hop

section Tracks
variable {E : Type} [AddCommGroup E] (C : CurveModel P E) (hT : T.Sound) (hforge : T.Unforged net op)
  (htr : T.Tracks done net)
include C hT hforge htr

theorem Tracks.given {v : ν} {nop : NodeOp} (hop : op.nodeOp P = some (v, nop)) (pkt : OnionPacket)
    (assocData : List UInt8) (h : HashPrefix) (packet : ProcessedPacket)
    (hgiven : nop.given = some (pkt, assocData))
    (he : (T.router v).examine pkt assocData = .ok (h, packet)) : T.Genuine done v h packet := by
  have hmac := Router.macVerifies_of_examine he
  obtain ⟨bytes, hmem, hbegins⟩ := hforge v nop pkt assocData hop hgiven hmac
  obtain ⟨σ, i, hi, rfl, hready⟩ := htr.wire bytes hmem
  obtain ⟨cuts, rest, hdec⟩ := decode_given hop hgiven
  obtain ⟨rest', hdec'⟩ := hT.decode_packetAt C hi hbegins cuts
  cases hdec.symm.trans hdec'
  obtain rfl := hT.addressed σ i v assocData hi hmac
  obtain ⟨hh, hp⟩ := hT.examined C hi he
  exact ⟨σ, i, hi, rfl, hh, hp, hready⟩

theorem Tracks.handsOver {v : ν} {x : Option UInt16} {h : HashPrefix} {packet : ProcessedPacket}
    (hh : T.HandsOver net op v x h packet) : T.Genuine done v h packet := by
  obtain ⟨nop, hop, hy⟩ := hh
  exact hy.satisfies (htr.caches v) (htr.given C hT hforge hop)

/-- A hop is passed only by a payment that has come to it. -/
theorem Tracks.passes (hdistinct : T.Distinct) {σ : ι} {i : Nat} (hi : i < (T.route σ).length)
    (hp : T.Passes net op σ i) : Ready done σ i := by
  obtain ⟨x, hh⟩ := hp
  obtain ⟨τ, j, hj, hv, htag, -, hready⟩ := htr.handsOver C hT hforge hh
  obtain ⟨rfl, rfl⟩ := hdistinct σ i τ j hi hj hv htag
  exact hready

/-- **Every operation keeps the network to its milestones.** -/
theorem Tracks.step [DecidableEq ν] (hnew : net.NewIds op) (hstep : T.Step net op net') :
    T.Tracks (fun x => done x ∨ T.Reaches net op x) net' := by
  have hle : ∀ x, done x → done x ∨ T.Reaches net op x := fun x hx => .inl hx
  refine ⟨fun v => ?_, fun bytes hmem => ?_, fun v => ?_⟩
  · exact hstep.keeps (htr.inv v) fun _ _ hop hs => (htr.inv v).step hs (hnew.new hop)
  · rcases hstep.mem_wire.mp hmem with hold | ⟨σ, path', pkt, rfl, hpkt, rfl⟩ | hf
    · obtain ⟨σ, i, hi, hbytes, hready⟩ := htr.wire bytes hold
      exact ⟨σ, i, hi, hbytes, hready.mono hle⟩
    · rw [(T.route σ).newOnionPacket_route C] at hpkt
      cases hpkt
      exact ⟨σ, 0, (T.route σ).pos, rfl, .inr rfl, fun j hj => absurd hj (Nat.not_lt_zero j)⟩
    · obtain ⟨v, x, h, packet, next, hh, hmore, hnext, rfl⟩ := hf
      obtain ⟨σ, i, hi, rfl, rfl, rfl, hready⟩ := htr.handsOver C hT hforge hh
      have hnot : i + 1 < (T.route σ).length := by
        by_contra hlast
        rw [Route.processedAt, if_neg hlast] at hmore
        cases hmore
      cases hnext
      exact ⟨σ, i + 1, hnot, rfl, (hready.mono hle).succ (.inr ⟨x, hh⟩)⟩
  · have hmono : ∀ (k : Nat) o, (net.node v).txs[k]? = some o →
        o.Caches (T.router v) (T.Genuine (fun x => done x ∨ T.Reaches net op x) v) :=
      fun k o ho => (htr.caches v k o ho).mono fun _ _ hg => hg.mono hle
    refine hstep.keeps hmono fun nop n' hop hs => NodeStep.caches hmono ?_ hs
    intro pkt assocData h packet hgiven he
    exact (htr.given C hT hforge hop pkt assocData h packet hgiven he).mono hle

end Tracks

/-! ### Safety -/

/-- A network in which nothing has happened. -/
structure Initial (net : Net P ν) : Prop where
  started : ∀ v, ∃ bs es, net.node v = ⟨.started bs es, []⟩
  wire : net.wire = ∅

theorem Initial.tracks (h : Initial net) : T.Tracks (fun _ => False) net := by
  refine ⟨fun v => ?_, fun bytes hmem => ?_, fun v k o ho => ?_⟩
  · obtain ⟨bs, es, heq⟩ := h.started v
    exact heq ▸ Node.inv_started bs es
  · rw [h.wire] at hmem
    cases hmem
  · obtain ⟨bs, es, heq⟩ := h.started v
    rw [heq] at ho
    cases ho

/-- Handing a packet over finds its prefix out of the log, and leaves it in there. -/
theorem handsOver_marks [DecidableEq ν] (T : Traffic P ν ι) (v : ν) :
    Marks (fun n a n' => T.Step n a n' ∧ n.NewIds a) (fun n => (n.node v).Inv)
      (fun n h => (n.node v).Holds h) fun n a h => ∃ x packet, T.HandsOver n a v x h packet where
  inv _ _ _ hs hn := hs.1.keeps hn fun _ _ hop hstep => hn.step hstep (hs.2.new hop)
  stay _ _ _ h _ hs hh := hs.1.keeps (K := fun n => n.Holds h) hh fun _ _ _ hstep => hh.step hstep
  event _ _ _ _ hn hs := fun ⟨_, _, _, hop, hy⟩ => hn.accepts (hs.1.stepped hop) hy.accepts

section Runs
variable [DecidableEq ν] {net : Nat → Net P ν} {op : Nat → NetOp ν ι} {m : Nat}
  (hrun : Run T.Step net op m) (h0 : Initial (net 0)) (hids : Fresh NetOp.Begins (net 0).Records op m)
include hrun h0 hids

/-- IDs that are apart at every node, from one another and from those of its log at the
start, are new when they are used. -/
theorem newIds_of_run {t : Nat} (ht : t < m) : (net t).NewIds (op t) := by
  have hlearn : ∀ n a n' w, T.Step n a n' → n'.Knows w → n.Knows w ∨ a.Begins w :=
    fun _ _ _ _ hs => hs.knows
  have hstart : ∀ w, (net 0).Knows w → (net 0).Records w := by
    rintro w (⟨o, ho, -⟩ | hbatch)
    · obtain ⟨bs, es, heq⟩ := h0.started w.1
      rw [heq] at ho
      cases ho
    · exact hbatch
  exact fun w hw => hrun.unknown_at hlearn hstart hids ht hw

theorem handsOver_once {s t : Nat} (hs : s < m) (ht : t < m) {v : ν} {x y : Option UInt16}
    {h : HashPrefix} {packet packet' : ProcessedPacket}
    (hx : T.HandsOver (net s) (op s) v x h packet) (hy : T.HandsOver (net t) (op t) v y h packet') :
    s = t ∧ x = y := by
  have hrun' : Run (fun n a n' => T.Step n a n' ∧ n.NewIds a) net op m :=
    ⟨fun i hi => ⟨hrun.step_at i hi, newIds_of_run hrun h0 hids hi⟩⟩
  have hstart : ((net 0).node v).Inv := by
    obtain ⟨bs, es, heq⟩ := h0.started v
    exact heq ▸ Node.inv_started bs es
  have hmarks := handsOver_marks T v
  obtain rfl := hrun'.once hmarks hstart hs ht ⟨x, packet, hx⟩ ⟨y, packet', hy⟩
  obtain ⟨nop, hop, hyx⟩ := hx
  obtain ⟨nop', hop', hyy⟩ := hy
  cases hop.symm.trans hop'
  exact ⟨rfl, (hrun'.invariant hmarks.inv hstart (Nat.le_of_lt hs)).accepts_unique
    ((hrun.step_at s hs).stepped hop) hyx.accepts hyy.accepts⟩

theorem tracks_of_run {E : Type} [AddCommGroup E] (C : CurveModel P E) (hT : T.Sound)
    (hforge : ∀ t, t < m → T.Unforged (net t) (op t)) {t : Nat} (ht : t ≤ m) :
    T.Tracks (fun x => ∃ s, s < t ∧ T.Reaches (net s) (op s) x) (net t) := by
  have hrun' : Run (fun n a n' => T.Step n a n' ∧ T.Unforged n a ∧ n.NewIds a) net op m :=
    ⟨fun i hi => ⟨hrun.step_at i hi, hforge i hi, newIds_of_run hrun h0 hids hi⟩⟩
  exact hrun'.remembers (fun done n a n' hs htr => htr.step C hT hs.2.1 hs.2.2 hs.1) h0.tracks ht

end Runs

/-! ### Progress -/

/-- Nothing is in the way of a payment: what it has come to is on the wire, and what
the logs hold of it was passed, hop after hop. -/
structure Live (T : Traffic P ν ι) (done : Milestone ι → Prop) (net : Net P ν) : Prop extends
    T.Tracks done net where
  exact : ∀ v, (net.node v).Exact
  onWire : ∀ σ i, i < (T.route σ).length → Ready done σ i →
    ((T.route σ).packetAt i).encode P ∈ net.wire
  held : ∀ σ i, i < (T.route σ).length → (net.node (T.station σ i)).Holds (T.tag σ i) →
    done (.passed σ i)
  ordered : ∀ σ i, i < (T.route σ).length → done (.passed σ i) → Ready done σ i

theorem Initial.live (h : Initial net)
    (hnew : ∀ σ i, i < (T.route σ).length → ¬(net.node (T.station σ i)).Holds (T.tag σ i)) :
    T.Live (fun _ => False) net := by
  refine ⟨h.tracks, fun v k o ho => ?_, fun σ i _ hready => absurd hready.1 not_false,
    fun σ i hi hh => absurd hh (hnew σ i hi), fun σ i _ hdone => absurd hdone not_false⟩
  obtain ⟨bs, es, heq⟩ := h.started v
  rw [heq] at ho
  cases ho

theorem unforged_arrival {σ : ι} {i : Nat} {cuts : List Nat} {cltv : UInt32}
    (h : ((T.route σ).packetAt i).encode P ∈ net.wire) : T.Unforged net (T.arrival σ i cuts cltv) :=
  fun _ _ _ _ _ _ _ => ⟨_, h, List.prefix_rfl⟩

theorem not_begins_arrival {σ : ι} {i : Nat} {cuts : List Nat} {cltv : UInt32} {w : ν × List UInt8} :
    ¬(T.arrival σ i cuts cltv).Begins w := fun ⟨_, h⟩ => by cases h

section Step
variable [DecidableEq ν] {E : Type} [AddCommGroup E] (C : CurveModel P E) (hT : T.Sound)
  (hdistinct : T.Distinct) (hlive : T.Live done net)
include C hT hdistinct hlive

theorem Live.step (hforge : T.Unforged net op) (hfresh : net.Fresh op) (hnew : net.NewIds op)
    (hstep : T.Step net op net') : T.Live (fun x => done x ∨ T.Reaches net op x) net' := by
  have hle : ∀ x, done x → done x ∨ T.Reaches net op x := fun x hx => .inl hx
  refine ⟨hlive.toTracks.step C hT hforge hnew hstep, fun v => ?_, fun σ i hi hready => ?_,
    fun σ i hi hh => ?_, fun σ i hi hdone => ?_⟩
  · exact hstep.keeps (hlive.exact v) fun nop _ hop hs =>
      (hlive.exact v).step (hlive.inv v) hs (hfresh v nop hop)
  · refine hstep.mem_wire.mpr ?_
    cases i with
    | zero =>
      rcases hready.1 with hold | rfl
      · exact .inl (hlive.onWire σ 0 hi ⟨hold, fun j hj => absurd hj (Nat.not_lt_zero j)⟩)
      · exact .inr (.inl ⟨σ, _, _, rfl, (T.route σ).newOnionPacket_route C, rfl⟩)
    | succ j =>
      rcases hready.2 j (Nat.lt_succ_self j) with hold | ⟨x, hh⟩
      · -- Hop `j` was passed before, and so was every hop before it.
        exact .inl (hlive.onWire σ (j + 1) hi ((hlive.ordered σ j (by omega) hold).succ hold))
      · exact .inr (.inr ⟨_, x, _, _, _, hh, if_pos hi, rfl, rfl⟩)
  · rcases hstep.node_cases (T.station σ i) with heq | ⟨nop, hop⟩
    · exact .inl (hlive.held σ i hi (heq ▸ hh))
    · rcases (hlive.exact _).stored (hlive.inv _) (hstep.stepped hop) hh with hold | ⟨x, ha⟩
      · exact .inl (hlive.held σ i hi hold)
      · obtain ⟨packet, hy⟩ := ha.yields (hlive.caches _)
        obtain ⟨τ, j, hj, hv, htag, rfl, -⟩ :=
          hlive.toTracks.handsOver C hT hforge ⟨nop, hop, hy⟩
        obtain ⟨rfl, rfl⟩ := hdistinct σ i τ j hi hj hv htag
        exact .inr ⟨x, nop, hop, hy⟩
  · rcases hdone with hold | hnow
    · exact (hlive.ordered σ i hi hold).mono hle
    · exact (hlive.toTracks.passes C hT hforge hdistinct hi hnow).mono hle

/-- **A payment moves on**: the packet of the hop it has come to is accepted there. -/
theorem Live.arrival {σ : ι} {i : Nat} (hi : i < (T.route σ).length) (hready : Ready done σ i)
    (hnot : ¬done (.passed σ i)) (cuts : List Nat) (cltv : UInt32) :
    ∃ net' done', T.Step net (T.arrival σ i cuts cltv) net' ∧
      T.Passes net (T.arrival σ i cuts cltv) σ i ∧ T.Live done' net' ∧ Ready done' σ (i + 1) ∧
      (i + 1 < (T.route σ).length → ¬done' (.passed σ (i + 1))) := by
  have hop := hT.nodeOp_arrival C hi cuts cltv
  have hforge : T.Unforged net (T.arrival σ i cuts cltv) :=
    unforged_arrival (hlive.onWire σ i hi hready)
  have hfresh : net.Fresh (T.arrival σ i cuts cltv) := by
    intro v nop hop'
    cases hop.symm.trans hop'
    trivial
  have hids : net.NewIds (T.arrival σ i cuts cltv) := fun w hw => absurd hw not_begins_arrival
  have hstep := Step.node (T := T) hop (.process (net.node (T.station σ i)) _ _ _)
  obtain ⟨bs, es, hlog, -⟩ := (hlive.inv (T.station σ i)).started
  have hnew : T.tag σ i ∉ es := fun hm =>
    hnot (hlive.held σ i hi ((Node.holds_iff hlog _).mpr hm))
  have hexamine := hT.examine_packetAt C hi
  have hprocess := Router.processOnionPacket_fresh bs es hexamine cltv hnew
  rw [← hlog] at hprocess
  have hpass : T.Passes net (T.arrival σ i cuts cltv) σ i := by
    obtain ⟨secret, hsecret, -, htag⟩ := Router.examine_eq_ok.mp hexamine
    refine ⟨none, _, hop, ?_⟩
    rw [← htag]
    exact .process hsecret (congrArg Prod.snd hprocess)
  refine ⟨_, _, hstep, hpass, hlive.step C hT hdistinct hforge hfresh hids hstep,
    (hready.mono fun _ => .inl).succ (.inr hpass), fun hi' hdone => ?_⟩
  -- The next hop would have been passed after this one.
  have hnext : Ready done σ (i + 1) := by
    rcases hdone with hold | hnow
    · exact hlive.ordered σ (i + 1) hi' hold
    · exact hlive.toTracks.passes C hT hforge hdistinct hi' hnow
  exact hnot (hnext.2 i (Nat.lt_succ_self i))

end Step

/-- From there on, to the end of its route. -/
theorem Live.completes [DecidableEq ν] {E : Type} [AddCommGroup E] (C : CurveModel P E) (hT : T.Sound)
    (hdistinct : T.Distinct) {σ : ι} (cuts : Nat → List Nat) (cltv : Nat → UInt32) {n i : Nat}
    (hn : i + n = (T.route σ).length) (hlive : T.Live done net) (hready : Ready done σ i)
    (hnot : i < (T.route σ).length → ¬done (.passed σ i)) :
    ∃ net' : Nat → Net P ν, net' 0 = net ∧
      Run T.Step net' (fun d => T.arrival σ (i + d) (cuts (i + d)) (cltv (i + d))) n ∧
      ∀ d, d < n → ((T.route σ).packetAt (i + d)).encode P ∈ (net' d).wire ∧
        T.Passes (net' d) (T.arrival σ (i + d) (cuts (i + d)) (cltv (i + d))) σ (i + d) := by
  induction n generalizing i done net with
  | zero =>
    exact ⟨fun _ => net, rfl, ⟨fun d hd => absurd hd (Nat.not_lt_zero d)⟩,
      fun d hd => absurd hd (Nat.not_lt_zero d)⟩
  | succ n ih =>
    have hi : i < (T.route σ).length := by omega
    obtain ⟨net₁, done₁, hstep, hpass, hlive₁, hready₁, hnot₁⟩ :=
      hlive.arrival C hT hdistinct hi hready (hnot hi) (cuts i) (cltv i)
    obtain ⟨net', rfl, hrun, hall⟩ := ih (by omega) hlive₁ hready₁ hnot₁
    have hops : (fun d => T.arrival σ (i + d) (cuts (i + d)) (cltv (i + d))) =
        before (T.arrival σ i (cuts i) (cltv i))
          (fun d => T.arrival σ (i + 1 + d) (cuts (i + 1 + d)) (cltv (i + 1 + d))) := by
      funext d
      cases d with
      | zero => rfl
      | succ d => rw [before, Nat.add_right_comm, Nat.add_assoc]
    refine ⟨before net net', rfl, hops ▸ hrun.cons hstep, fun d hd => ?_⟩
    cases d with
    | zero => exact ⟨hlive.onWire σ i hi hready, hpass⟩
    | succ d =>
      have := hall d (by omega)
      rwa [Nat.add_right_comm, Nat.add_assoc] at this

/-! ### A network to try it on -/

/-- Two nodes. -/
def twoKeys (v : Bool) : PrivateKey openPrimitives :=
  .ofScalar _ (if v then 2 else 1) (by cases v <;> decide)

/-- A path to one and then the other. -/
def twoPath : PaymentPath := fun j => if j.val < 2 then ⟨residuePoint (j.val + 1), .empty⟩ else .unset

/-- One payment along it. -/
def twoHops : Traffic openPrimitives Bool Unit where
  key := twoKeys
  route := fun _ =>
    { path := twoPath
      node := fun i => twoKeys (i != 0)
      sessionKey := twoKeys false
      assocData := []
      pos := by decide
      nodePub := by decide }
  station := fun _ i => i != 0
  node_eq := fun _ _ _ => rfl

theorem length_twoHops : (twoHops.route ()).length = 2 := by decide

theorem calcMac_open (secret : Hash256) {msg : List UInt8} (h : msg.length ≠ 32) :
    calcMac openPrimitives (generateKey openPrimitives .mu secret) msg = secret := by
  have hlen := secret.toList_length
  apply List.Vector.eq
  show ((if msg.length = 32 then msg else (echoMac _ secret.toList).toList) ++ _).take 32 = _
  rw [if_neg h]
  show ((((if secret.toList.length = 32 then secret.toList else _) ++ _).take 32) ++ _).take 32 = _
  rw [if_pos hlen, List.take_left' hlen, List.take_left' hlen]
  rfl

theorem twoHops_secrets : ∀ i, i < 2 → ∀ v, hopSecret (twoKeys false) (fun i => twoKeys (i != 0)) i =
    generateSharedSecret openPrimitives (hopEphemeral (twoKeys false) (fun i => twoKeys (i != 0)) i)
      (twoKeys v) → v = (i != 0) := by
  decide +kernel

theorem twoHops_headerMAC {i : Nat} (hi : i < 2) :
    ((twoHops.route ()).packetAt i).headerMAC = (twoHops.route ()).secret i := by
  rw [Route.headerMAC_eq _ (length_twoHops ▸ hi)]
  exact calcMac_open _ (by rw [List.length_append, List.Vector.toList_length, routingInfoSize_eq]; omega)

theorem twoHops_sound : twoHops.Sound where
  session := fun _ => show 1 % 5 ≠ 0 by decide
  blindings := fun _ => show BlindingsNonzero (twoKeys false) (fun i => twoKeys (i != 0)) 1 by
    unfold BlindingsNonzero
    decide +kernel
  noZeroMac := fun _ i hi => by
    rw [length_twoHops] at hi
    obtain rfl : i = 0 := by omega
    rw [Route.finalPath_hop _ (Route.pos _), Route.instructions_eq]
    show ((twoHops.route ()).packetAt 1).headerMAC ≠ zeroHMAC
    rw [twoHops_headerMAC (by decide)]
    show hopSecret (twoKeys false) (fun i => twoKeys (i != 0)) 1 ≠ zeroBytes 32
    decide +kernel
  addressed := fun _ i v a hi hmac => by
    rw [length_twoHops] at hi
    refine twoHops_secrets i hi v ?_
    have hmac' : ((twoHops.route ()).packetAt i).headerMAC = calcMac _ (generateKey _ .mu _) _ := hmac
    rw [twoHops_headerMAC hi, calcMac_open _ (by
      rw [List.length_append, List.Vector.toList_length, routingInfoSize_eq]
      omega)] at hmac'
    exact hmac'

theorem twoHops_distinct : twoHops.Distinct := by
  intro _ i _ j hi hj hv _
  rw [length_twoHops] at hi hj
  have hinj : ∀ i, i < 2 → ∀ j, j < 2 → (i != 0) = (j != 0) → i = j := by decide
  exact ⟨rfl, hinj i hi j hj hv⟩

/-- The two nodes with started logs, and nothing sent. -/
def quietNet : Net openPrimitives Bool := ⟨fun _ => ⟨.started ∅ ∅, []⟩, ∅⟩

theorem quietNet_initial : Initial quietNet := ⟨fun _ => ⟨∅, ∅, rfl⟩, rfl⟩

theorem quietNet_holds (v : Bool) (h : HashPrefix) : ¬(quietNet.node v).Holds h := by
  rw [Node.holds_iff rfl]
  exact Finmap.notMem_empty

/-- The payment is sent. -/
def sentNet : Net openPrimitives Bool :=
  {quietNet with wire := insert (((twoHops.route ()).packetAt 0).encode openPrimitives) quietNet.wire}

theorem sentNet_step : twoHops.Step quietNet (.send ()) sentNet :=
  .send ((twoHops.route ()).newOnionPacket_route openCurve)

theorem not_begins_send {ν ι : Type} {σ : ι} {w : ν × List UInt8} :
    ¬(NetOp.send σ : NetOp ν ι).Begins w := fun ⟨_, h⟩ => by cases h

theorem unforged_send {P : Primitives} {ν ι : Type} (T : Traffic P ν ι) (net : Net P ν) (σ : ι) :
    T.Unforged net (.send σ) := fun _ _ _ _ hop => by cases hop

/-! ### Every run -/

end LightningOnion.Traffic
