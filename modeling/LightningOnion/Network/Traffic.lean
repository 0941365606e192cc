import LightningOnion.Route.Delivery
import LightningOnion.Router.ExactlyOnce

/-! Payments over a network of routers.

Senders put the packets they construct on the wire, and every node forwards the packets
it accepts, one by one or in transactions. Nothing else is promised: what is on the
wire may arrive never, late, often, in pieces or at another node, and anything else may
arrive as well. `Unforged` is all that is asked of it: bytes with a MAC that verifies
begin with a packet that was put on the wire. -/
namespace LightningOnion
open Lib

/-- Payments over routes of known nodes: hop `i` of payment `σ` is at `station σ i`. -/
structure Traffic (P : Primitives) (ν ι : Type) where
  key : ν → PrivateKey P
  route : ι → Route P
  station : ι → Nat → ν
  node_eq : ∀ σ i, i < (route σ).length → (route σ).node i = key (station σ i)

/-- The nodes, and all that was put on the wire. -/
structure Net (P : Primitives) (ν : Type) where
  node : ν → Node P
  wire : Set (List UInt8)

/-- A payment is sent, or something happens at a node. A packet arrives as a stream of
bytes, in whatever pieces. -/
inductive NetOp (ν ι : Type) where
  | send (σ : ι)
  | deliver (v : ν) (bytes : List UInt8) (cuts : List Nat) (assocData : List UInt8)
      (incomingCltv : UInt32)
  | beginTxn (v : ν) (id : List UInt8) (nels : Nat)
  | deliverTx (v : ν) (k : Nat) (seqNum : UInt16) (bytes : List UInt8) (cuts : List Nat)
      (assocData : List UInt8) (incomingCltv : UInt32)
  | commit (v : ν) (k : Nat) (order : List UInt16)

/-- What the node does, after it parsed the packet; bytes that do not parse are dropped. -/
def NetOp.nodeOp (P : Primitives) {ν ι : Type} : NetOp ν ι → Option (ν × NodeOp)
  | .send _ => none
  | .deliver v bytes cuts assocData cltv =>
    match OnionPacket.decode P ⟨bytes, cuts⟩ with
    | .ok (pkt, _) => some (v, .process pkt assocData cltv)
    | .error _ => none
  | .beginTxn v id nels => some (v, .beginTxn id nels)
  | .deliverTx v k seqNum bytes cuts assocData cltv =>
    match OnionPacket.decode P ⟨bytes, cuts⟩ with
    | .ok (pkt, _) => some (v, .txProcess k ⟨seqNum, pkt, assocData, cltv⟩)
    | .error _ => none
  | .commit v k order => some (v, .commit k order)

/-- The bytes that arrive. -/
def NetOp.bytes {ν ι : Type} : NetOp ν ι → List UInt8
  | .deliver _ bytes _ _ _ => bytes
  | .deliverTx _ _ _ bytes _ _ _ => bytes
  | _ => []

/-- A transaction is begun at the node under the ID. -/
def NetOp.Begins {ν ι : Type} (op : NetOp ν ι) (w : ν × List UInt8) : Prop :=
  ∃ nels, op = .beginTxn w.1 w.2 nels

theorem NetOp.begins_of_nodeOp {P : Primitives} {ν ι : Type} {op : NetOp ν ι} {v : ν} {nop : NodeOp}
    (hop : op.nodeOp P = some (v, nop)) {id : List UInt8} (hid : nop.Begins id) : op.Begins (v, id) := by
  obtain ⟨nels, rfl⟩ := hid
  cases op with
  | beginTxn =>
    cases hop
    exact ⟨nels, rfl⟩
  | send => cases hop
  | commit => cases hop
  | deliver =>
    rw [NetOp.nodeOp] at hop
    split at hop <;> cases hop
  | deliverTx =>
    rw [NetOp.nodeOp] at hop
    split at hop <;> cases hop

/-- The node's log has a batch under the ID. -/
def Net.Records {P : Primitives} {ν : Type} (net : Net P ν) (w : ν × List UInt8) : Prop :=
  (net.node w.1).log.HasBatch w.2

/-- Or one of its transactions has the ID. -/
def Net.Knows {P : Primitives} {ν : Type} (net : Net P ν) (w : ν × List UInt8) : Prop :=
  (net.node w.1).Knows w.2

/-- No transaction is begun under an ID its node knows. -/
def Net.NewIds {P : Primitives} {ν ι : Type} (net : Net P ν) (op : NetOp ν ι) : Prop :=
  ∀ w, op.Begins w → ¬net.Knows w

theorem Net.NewIds.new {P : Primitives} {ν ι : Type} {net : Net P ν} {op : NetOp ν ι}
    (hnew : net.NewIds op) {v : ν} {nop : NodeOp} (hop : op.nodeOp P = some (v, nop)) :
    nop.New (net.node v) := fun id hid => hnew (v, id) (NetOp.begins_of_nodeOp hop hid)

/-- Every transaction uses each sequence number once. -/
def Net.Fresh {P : Primitives} {ν ι : Type} (net : Net P ν) (op : NetOp ν ι) : Prop :=
  ∀ v nop, op.nodeOp P = some (v, nop) → nop.FreshIn (net.node v)

namespace Traffic
variable {P : Primitives} {ν ι : Type} (T : Traffic P ν ι)

def router (v : ν) : Router P := ⟨T.key v⟩

/-- The prefix under which hop `i` of payment `σ` is recorded. -/
def tag (σ : ι) (i : Nat) : HashPrefix := hashSharedSecret P ((T.route σ).secret i)

/-- Node `v` accepts a packet and hands it over. -/
def HandsOver (net : Net P ν) (op : NetOp ν ι) (v : ν) (x : Option UInt16) (h : HashPrefix)
    (packet : ProcessedPacket) : Prop :=
  ∃ nop, op.nodeOp P = some (v, nop) ∧ Yields (T.router v) (net.node v) nop x h packet

/-- Hop `i` of payment `σ` accepts its packet. -/
def Passes (net : Net P ν) (op : NetOp ν ι) (σ : ι) (i : Nat) : Prop :=
  ∃ x, T.HandsOver net op (T.station σ i) x (T.tag σ i) ((T.route σ).processedAt i)

/-- The packet of hop `i` arrives there, as it was put on the wire. -/
def arrival (σ : ι) (i : Nat) (cuts : List Nat) (cltv : UInt32) : NetOp ν ι :=
  .deliver (T.station σ i) (((T.route σ).packetAt i).encode P) cuts (T.route σ).assocData cltv

/-- The packets a node puts on the wire: what is left of those it hands over, unless
it is the last hop. -/
def Forwards (net : Net P ν) (op : NetOp ν ι) (bytes : List UInt8) : Prop :=
  ∃ v x h packet next, T.HandsOver net op v x h packet ∧ packet.action = .moreHops ∧
    packet.nextPacket = some next ∧ bytes = next.encode P

/-- What an operation does to the network. -/
inductive Step [DecidableEq ν] : Net P ν → NetOp ν ι → Net P ν → Prop where
  | send {net : Net P ν} {σ : ι} {path' : PaymentPath} {pkt : OnionPacket}
      (hnew : newOnionPacket P (T.route σ).path (T.route σ).sessionKey (T.route σ).assocData =
        some (path', pkt)) :
      Step net (.send σ) {net with wire := insert (pkt.encode P) net.wire}
  | garbled {net : Net P ν} {op : NetOp ν ι} (hsend : ∀ σ, op ≠ .send σ) (hop : op.nodeOp P = none) :
      Step net op net
  | node {net : Net P ν} {op : NetOp ν ι} {v : ν} {nop : NodeOp} {n' : Node P}
      (hop : op.nodeOp P = some (v, nop)) (hstep : NodeStep (T.router v) (net.node v) nop n') :
      Step net op ⟨Function.update net.node v n', net.wire ∪ {bytes | T.Forwards net op bytes}⟩

/-- No MAC is forged: what verifies begins with a packet from the wire. -/
def Unforged (net : Net P ν) (op : NetOp ν ι) : Prop :=
  ∀ v nop pkt assocData, op.nodeOp P = some (v, nop) → nop.given = some (pkt, assocData) →
    (T.router v).MacVerifies pkt assocData → ∃ bytes, bytes ∈ net.wire ∧ bytes <+: op.bytes

/-- What is assumed of the payments: that every route can be delivered, and MACs that
verify only at the node they are for. -/
structure Sound : Prop where
  session : ∀ σ, (T.route σ).sessionKey.d % P.order ≠ 0
  blindings : ∀ σ, BlindingsNonzero (T.route σ).sessionKey (T.route σ).node ((T.route σ).length - 1)
  noZeroMac : ∀ σ, (T.route σ).NoZeroMac
  addressed : ∀ σ i v assocData, i < (T.route σ).length →
    (T.router v).MacVerifies ((T.route σ).packetAt i) assocData → v = T.station σ i

/-- No two hops at one node are recorded under the same prefix. -/
def Distinct : Prop :=
  ∀ σ i τ j, i < (T.route σ).length → j < (T.route τ).length →
    T.station σ i = T.station τ j → T.tag σ i = T.tag τ j → σ = τ ∧ i = j

variable {T} {net net' : Net P ν} {op : NetOp ν ι}

/-! ### What a step does -/

section Inversion
variable [DecidableEq ν] (hstep : T.Step net op net')
include hstep

theorem Step.stepped {v : ν} {nop : NodeOp} (hop : op.nodeOp P = some (v, nop)) :
    NodeStep (T.router v) (net.node v) nop (net'.node v) := by
  cases hstep with
  | send => cases hop
  | garbled _ hnone => cases hop.symm.trans hnone
  | @node _ _ _ n' hop' hstep =>
    cases hop.symm.trans hop'
    show NodeStep (T.router v) (net.node v) nop (Function.update net.node v n' v)
    rwa [Function.update_self]

/-- At every node, nothing happens or an operation of the node. -/
theorem Step.node_cases (v : ν) : net'.node v = net.node v ∨ ∃ nop, op.nodeOp P = some (v, nop) := by
  cases hstep with
  | send => exact .inl rfl
  | garbled => exact .inl rfl
  | @node _ w nop n' hop _ =>
    by_cases hv : v = w
    · exact .inr ⟨nop, hv ▸ hop⟩
    · exact .inl (Function.update_of_ne hv _ _)

/-- What the operations of a node keep there, the network keeps. -/
theorem Step.keeps {K : Node P → Prop} {v : ν} (hK : K (net.node v))
    (hnode : ∀ nop n', op.nodeOp P = some (v, nop) → NodeStep (T.router v) (net.node v) nop n' → K n') :
    K (net'.node v) := by
  rcases hstep.node_cases v with heq | ⟨nop, hop⟩
  · rw [heq]
    exact hK
  · exact hnode nop _ hop (hstep.stepped hop)

/-- An ID gets to a node where a transaction is begun under it. -/
theorem Step.knows {w : ν × List UInt8} (hw : net'.Knows w) : net.Knows w ∨ op.Begins w := by
  rcases hstep.node_cases w.1 with heq | ⟨nop, hop⟩
  · rw [Net.Knows, heq] at hw
    exact .inl hw
  · exact ((hstep.stepped hop).knows hw).imp_right (NetOp.begins_of_nodeOp hop)

/-- The wire keeps what is on it, and gets what is sent and what is forwarded. -/
theorem Step.mem_wire {bytes : List UInt8} : bytes ∈ net'.wire ↔ bytes ∈ net.wire ∨
    (∃ σ path' pkt, op = .send σ ∧ newOnionPacket P (T.route σ).path (T.route σ).sessionKey
      (T.route σ).assocData = some (path', pkt) ∧ bytes = pkt.encode P) ∨
    T.Forwards net op bytes := by
  have hquiet : op.nodeOp P = none → ¬T.Forwards net op bytes := by
    rintro hnone ⟨v, x, h, packet, next, ⟨nop, hop, -⟩, -⟩
    cases hop.symm.trans hnone
  cases hstep with
  | @send σ path' pkt hnew =>
    have hno := hquiet rfl
    constructor
    · rintro (rfl | hmem)
      · exact .inr (.inl ⟨σ, path', pkt, rfl, hnew, rfl⟩)
      · exact .inl hmem
    · rintro (hmem | ⟨τ, path'', pkt', heq, hnew', rfl⟩ | hf)
      · exact .inr hmem
      · cases heq
        cases hnew.symm.trans hnew'
        exact .inl rfl
      · exact absurd hf hno
  | garbled hsend hnone =>
    have hno := hquiet hnone
    constructor
    · exact .inl
    · rintro (hmem | ⟨σ, -, -, heq, -⟩ | hf)
      · exact hmem
      · exact absurd heq (hsend σ)
      · exact absurd hf hno
  | node hop _ =>
    constructor
    · rintro (hmem | hf)
      · exact .inl hmem
      · exact .inr (.inr hf)
    · rintro (hmem | ⟨σ, -, -, rfl, -⟩ | hf)
      · exact .inl hmem
      · cases hop
      · exact .inr hf

end Inversion

/-! ### The packets of the payments -/

section Packets
variable {E : Type} [AddCommGroup E] (C : CurveModel P E) (hT : T.Sound) {σ : ι} {i : Nat}
  (hi : i < (T.route σ).length)
include hT hi

theorem Sound.blindingsNonzero :
    BlindingsNonzero (T.route σ).sessionKey (T.route σ).node i :=
  fun j hj => hT.blindings σ j (by omega)

include C

theorem Sound.decode_packetAt {bytes : List UInt8}
    (hbytes : ((T.route σ).packetAt i).encode P <+: bytes) (cuts : List Nat) :
    ∃ rest, OnionPacket.decode P ⟨bytes, cuts⟩ = .ok ((T.route σ).packetAt i, rest) := by
  obtain ⟨rest, rfl⟩ := hbytes
  obtain ⟨cuts', hdec⟩ := (T.route σ).decode_packetAt_append C (hT.session σ) (hT.blindingsNonzero hi)
    rest cuts
  exact ⟨_, hdec⟩

theorem Sound.nodeOp_arrival (cuts : List Nat) (cltv : UInt32) : (T.arrival σ i cuts cltv).nodeOp P =
    some (T.station σ i, .process ((T.route σ).packetAt i) (T.route σ).assocData cltv) := by
  obtain ⟨rest, hdec⟩ := hT.decode_packetAt C hi List.prefix_rfl cuts
  rw [arrival, NetOp.nodeOp, hdec]

theorem Sound.examine_packetAt :
    (T.router (T.station σ i)).examine ((T.route σ).packetAt i) (T.route σ).assocData =
      .ok (T.tag σ i, (T.route σ).processedAt i) := by
  have hrouter : T.router (T.station σ i) = (T.route σ).router i :=
    congrArg Router.mk (T.node_eq σ i hi).symm
  rw [hrouter]
  exact (T.route σ).examine_packetAt C (hT.session σ) (hT.noZeroMac σ) hi (hT.blindingsNonzero hi)

theorem Sound.examined {assocData : List UInt8} {h : HashPrefix} {packet : ProcessedPacket}
    (he : (T.router (T.station σ i)).examine ((T.route σ).packetAt i) assocData = .ok (h, packet)) :
    h = T.tag σ i ∧ packet = (T.route σ).processedAt i := by
  obtain ⟨secret, hsecret, hproc, rfl⟩ := Router.examine_eq_ok.mp he
  obtain ⟨secret', hsecret', hproc', htag⟩ :=
    Router.examine_eq_ok.mp (hT.examine_packetAt C hi)
  cases hsecret.symm.trans hsecret'
  exact ⟨htag, processOnionPacket_assocData hproc hproc'⟩

end Packets

end Traffic

end LightningOnion
