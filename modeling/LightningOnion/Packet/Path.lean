import LightningOnion.Packet.HopData

/-! Payment paths: a fixed array of hops, of which the populated front is the route. -/
namespace LightningOnion

/-- The maximum path length. -/
def numMaxHops : Nat := 20

structure OnionHop where
  /-- The node that decrypts this hop's routing information. -/
  nodePub : PublicKey
  /-- The instructions delivered to it. -/
  hopData : HopData
  deriving DecidableEq

/-- The hop isn't populated. -/
def OnionHop.isEmpty (o : OnionHop) : Bool := o.nodePub.x.isNone || o.nodePub.y.isNone

/-- A freshly declared hop. -/
def OnionHop.unset : OnionHop := ⟨⟨none, none⟩, .empty⟩

abbrev PaymentPath := Fin numMaxHops → OnionHop

/-- Counts hops up to the first empty one. -/
def routeLength : List OnionHop → Nat
  | [] => 0
  | hop :: rest => if hop.isEmpty then 0 else routeLength rest + 1

theorem routeLength_le (hops : List OnionHop) : routeLength hops ≤ hops.length := by
  induction hops with
  | nil => exact Nat.le_refl 0
  | cons hop rest ih =>
    rw [routeLength]
    split
    · exact Nat.zero_le _
    · simpa using ih

theorem routeLength_congr {a b : List OnionHop} (h : a.map (·.nodePub) = b.map (·.nodePub)) :
    routeLength a = routeLength b := by
  induction a generalizing b with
  | nil =>
    cases b with
    | nil => rfl
    | cons => cases h
  | cons x a ih =>
    cases b with
    | nil => cases h
    | cons y b =>
      obtain ⟨hhead, hrest⟩ := List.cons.inj h
      have hkey : x.nodePub = y.nodePub := hhead
      have hempty : x.isEmpty = y.isEmpty := by rw [OnionHop.isEmpty, OnionHop.isEmpty, hkey]
      rw [routeLength, routeLength, hempty, ih hrest]

theorem routeLength_append {front : List OnionHop} (hset : ∀ hop ∈ front, hop.isEmpty = false)
    (rest : List OnionHop) : routeLength (front ++ rest) = front.length + routeLength rest := by
  induction front with
  | nil => rw [List.nil_append, List.length_nil, Nat.zero_add]
  | cons hop front ih =>
    rw [List.cons_append, routeLength, hset hop (List.mem_cons_self ..), if_neg (by decide),
      ih fun hop' hmem => hset hop' (List.mem_cons_of_mem hop hmem), List.length_cons]
    omega

namespace PaymentPath

/-- The number of actual hops. -/
def trueRouteLength (p : PaymentPath) : Nat := routeLength (List.ofFn p)

/-- The keys of the actual hops, in order. -/
def nodeKeys (p : PaymentPath) : List PublicKey :=
  ((List.ofFn p).take p.trueRouteLength).map (·.nodePub)

theorem trueRouteLength_le (p : PaymentPath) : p.trueRouteLength ≤ numMaxHops := by
  have := routeLength_le (List.ofFn p)
  rwa [List.length_ofFn] at this

@[simp] theorem length_nodeKeys (p : PaymentPath) : p.nodeKeys.length = p.trueRouteLength := by
  have := p.trueRouteLength_le
  simp only [nodeKeys, List.length_map, List.length_take, List.length_ofFn]
  omega

/-- Hop `i` of the route. -/
def hop (p : PaymentPath) (i : Nat) : OnionHop := if h : i < numMaxHops then p ⟨i, h⟩ else .unset

theorem hop_of_lt (p : PaymentPath) {i : Nat} (h : i < numMaxHops) : p.hop i = p ⟨i, h⟩ := by
  rw [hop, dif_pos h]

/-- `n` times the same hop. -/
def repeated (hop : OnionHop) (n : Nat) : PaymentPath := fun j => if j.val < n then hop else .unset

theorem hop_repeated (hop : OnionHop) {n i : Nat} (hn : n ≤ numMaxHops) (hi : i < n) :
    (repeated hop n).hop i = hop := by
  rw [hop_of_lt _ (by omega), repeated, if_pos hi]

theorem trueRouteLength_eq (p : PaymentPath) {n : Nat} (hn : n ≤ numMaxHops)
    (hset : ∀ i, i < n → (p.hop i).isEmpty = false)
    (hunset : n < numMaxHops → (p.hop n).isEmpty = true) : p.trueRouteLength = n := by
  have hlen : ((List.ofFn p).take n).length = n := by
    rw [List.length_take, List.length_ofFn, Nat.min_eq_left hn]
  have hfront : ∀ hop ∈ (List.ofFn p).take n, hop.isEmpty = false := by
    intro hop hmem
    obtain ⟨i, hi, rfl⟩ := List.mem_iff_getElem.mp hmem
    rw [hlen] at hi
    have := hset i hi
    rw [p.hop_of_lt (by omega)] at this
    simpa using this
  have hrest : routeLength ((List.ofFn p).drop n) = 0 := by
    by_cases hlt : n < numMaxHops
    · have hempty := hunset hlt
      rw [p.hop_of_lt hlt] at hempty
      rw [List.drop_eq_getElem_cons (by rwa [List.length_ofFn]), routeLength, List.getElem_ofFn, if_pos hempty]
    · rw [List.drop_eq_nil_of_le (by rw [List.length_ofFn]; omega)]
      rfl
  rw [trueRouteLength, ← List.take_append_drop n (List.ofFn p), routeLength_append hfront, hlen, hrest,
    Nat.add_zero]

theorem trueRouteLength_repeated {hop : OnionHop} (hset : hop.isEmpty = false) {n : Nat}
    (hn : n ≤ numMaxHops) : (repeated hop n).trueRouteLength = n := by
  refine trueRouteLength_eq _ hn (fun i hi => ?_) fun hlt => ?_
  · rw [hop_repeated hop hn hi]
    exact hset
  · rw [hop_of_lt _ hlt, repeated, if_neg (Nat.lt_irrefl n)]
    rfl

/-- Only the keys decide how long a route is. -/
theorem trueRouteLength_congr {p q : PaymentPath} (h : ∀ j, (p j).nodePub = (q j).nodePub) :
    p.trueRouteLength = q.trueRouteLength := by
  have hkeys : (List.ofFn p).map (·.nodePub) = (List.ofFn q).map (·.nodePub) := by
    rw [List.map_ofFn, List.map_ofFn]
    exact congrArg List.ofFn (funext h)
  exact routeLength_congr hkeys

theorem nodeKeys_eq (p : PaymentPath) (key : Nat → PublicKey)
    (h : ∀ i, i < p.trueRouteLength → (p.hop i).nodePub = key i) :
    p.nodeKeys = (List.range p.trueRouteLength).map key := by
  have hle := p.trueRouteLength_le
  apply List.ext_getElem
  · simp
  · intro i hi _
    have hi' : i < p.trueRouteLength := by simpa using hi
    have := h i hi'
    rw [p.hop_of_lt (by omega)] at this
    simpa [nodeKeys] using this

end PaymentPath

end LightningOnion
