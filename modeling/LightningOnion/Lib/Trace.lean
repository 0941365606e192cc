import Mathlib.Data.Nat.Notation

/-! Runs of a step relation.

A run is a sequence of states with the actions between them. What every step keeps
holds along the run (`Run.invariant`, `Run.keeps`), also when it speaks of the events
so far (`Run.remembers`). An event that finds a mark unset and leaves it set, where no
step unsets it, happens at most once in a run, and the mark stays from then on
(`Run.once`, `Run.marked`). Where actions introduce names, no name twice and none known
at the start, a name is unknown when it is introduced (`Run.unknown_at`).

An interpreter runs a list of actions and returns a result for each (`exec`). Actions
that return something idle, and then change nothing, can be left out
(`exec_erased`).

What a history leaves behind is often the latest event of a kind (`latest`). -/
namespace LightningOnion.Lib
variable {σ ι κ : Type}

/-- A sequence with one more element in front. -/
def before {α : Type} (x : α) (f : Nat → α) : Nat → α
  | 0 => x
  | i + 1 => f i

/-- `m` steps: action `act i` leads from `state i` to `state (i + 1)`. -/
structure Run (step : σ → ι → σ → Prop) (state : Nat → σ) (act : Nat → ι) (m : Nat) : Prop where
  step_at : ∀ i, i < m → step (state i) (act i) (state (i + 1))

/-- Under an invariant, an event that finds a mark unset and leaves it set, where no step
unsets it. -/
structure Marks (step : σ → ι → σ → Prop) (I : σ → Prop) (Mark : σ → κ → Prop)
    (Event : σ → ι → κ → Prop) : Prop where
  inv : ∀ s a t, step s a t → I s → I t
  stay : ∀ s a t x, I s → step s a t → Mark s x → Mark t x
  event : ∀ s a t x, I s → step s a t → Event s a x → ¬Mark s x ∧ Mark t x

namespace Run
variable {step : σ → ι → σ → Prop} {state : Nat → σ} {act : Nat → ι} {m : Nat}
  (hrun : Run step state act m)
include hrun

/-- Along a stretch of actions that keep `K`, it holds from its beginning on. -/
theorem keeps {K : σ → Prop} {A : ι → Prop} (hkeep : ∀ s a t, A a → step s a t → K s → K t)
    {i k : Nat} (hkm : k ≤ m) (hact : ∀ j, i ≤ j → j < k → A (act j)) (hi : K (state i)) :
    ∀ j, i ≤ j → j ≤ k → K (state j) := by
  intro j hij hjk
  obtain ⟨d, rfl⟩ := Nat.exists_eq_add_of_le hij
  induction d with
  | zero => exact hi
  | succ d ih =>
    exact hkeep _ _ _ (hact (i + d) (by omega) (by omega)) (hrun.step_at (i + d) (by omega))
      (ih (by omega) (by omega))

/-- What every step keeps holds in every state of the run. -/
theorem invariant {I : σ → Prop} (hkeep : ∀ s a t, step s a t → I s → I t) (h0 : I (state 0)) {j : Nat}
    (hj : j ≤ m) : I (state j) :=
  hrun.keeps (A := fun _ => True) (fun s a t _ => hkeep s a t) (Nat.le_refl m) (fun _ _ _ => trivial) h0
    j (Nat.zero_le j) hj

theorem cons {s : σ} {a : ι} (hstep : step s a (state 0)) :
    Run step (before s state) (before a act) (m + 1) := by
  refine ⟨fun i hi => ?_⟩
  cases i with
  | zero => exact hstep
  | succ i => exact hrun.step_at i (by omega)

/-- An invariant may speak of the past: `I done s` of the events `done` so far. -/
theorem remembers {E : σ → ι → κ → Prop} {I : (κ → Prop) → σ → Prop}
    (hkeep : ∀ done s a t, step s a t → I done s → I (fun x => done x ∨ E s a x) t)
    (h0 : I (fun _ => False) (state 0)) {j : Nat} (hj : j ≤ m) :
    I (fun x => ∃ i, i < j ∧ E (state i) (act i) x) (state j) := by
  induction j with
  | zero =>
    have hnone : (fun x => ∃ i, i < 0 ∧ E (state i) (act i) x) = fun _ => False := by
      funext x
      simp
    rw [hnone]
    exact h0
  | succ j ih =>
    have hpast : (fun x => ∃ i, i < j + 1 ∧ E (state i) (act i) x) =
        fun x => (∃ i, i < j ∧ E (state i) (act i) x) ∨ E (state j) (act j) x := by
      funext x
      simp only [Nat.lt_succ_iff_lt_or_eq, or_and_right, exists_or, exists_eq_left]
    rw [hpast]
    exact hkeep _ _ _ _ (hrun.step_at j hj) (ih (by omega))

section Marks
variable {I : σ → Prop} {Mark : σ → κ → Prop} {Event : σ → ι → κ → Prop}
  (hmarks : Marks step I Mark Event) (h0 : I (state 0))
include hmarks h0

/-- After the event the mark stays. -/
theorem marked {i : Nat} {x : κ} (hi : i < m) (he : Event (state i) (act i) x) :
    ∀ k, i < k → k ≤ m → Mark (state k) x := by
  have hafter : Mark (state (i + 1)) x :=
    (hmarks.event _ _ _ x (hrun.invariant hmarks.inv h0 (by omega)) (hrun.step_at i hi) he).2
  intro k hik hkm
  have hboth := hrun.keeps (K := fun s => I s ∧ Mark s x) (A := fun _ => True)
    (fun s a t _ hs h => ⟨hmarks.inv s a t hs h.1, hmarks.stay s a t x h.1 hs h.2⟩) (Nat.le_refl m)
    (fun _ _ _ => trivial) ⟨hrun.invariant hmarks.inv h0 hi, hafter⟩ k hik hkm
  exact hboth.2

theorem once {i j : Nat} {x : κ} (hi : i < m) (hj : j < m) (hei : Event (state i) (act i) x)
    (hej : Event (state j) (act j) x) : i = j := by
  have hbefore : ∀ {i j : Nat}, i < m → j < m → Event (state i) (act i) x →
      Event (state j) (act j) x → ¬i < j := by
    intro i j hi hj hei hej hlt
    have hset := hrun.marked hmarks h0 hi hei j hlt (by omega)
    exact (hmarks.event _ _ _ x (hrun.invariant hmarks.inv h0 (by omega)) (hrun.step_at j hj) hej).1 hset
  have hij := hbefore hi hj hei hej
  have hji := hbefore hj hi hej hei
  omega

end Marks

end Run

/-- The names that `m` actions introduce: no name twice, and none that was known before. -/
structure Fresh {α : Type} (introduces : ι → α → Prop) (known : α → Prop) (act : Nat → ι)
    (m : Nat) : Prop where
  distinct : ∀ i j x, i < j → j < m → introduces (act i) x → ¬introduces (act j) x
  unknown : ∀ i x, i < m → introduces (act i) x → ¬known x

theorem fresh_of_none {α : Type} {introduces : ι → α → Prop} {known : α → Prop} {act : Nat → ι} {m : Nat}
    (hnone : ∀ i x, i < m → ¬introduces (act i) x) : Fresh introduces known act m :=
  ⟨fun _ j x _ hj _ => hnone j x hj, fun i x hi hx => absurd hx (hnone i x hi)⟩

/-- If a step makes known only the names it introduces, a name is new when it is introduced. -/
theorem Run.unknown_at {α : Type} {step : σ → ι → σ → Prop} {state : Nat → σ} {act : Nat → ι} {m : Nat}
    (hrun : Run step state act m) {Known : σ → α → Prop} {introduces : ι → α → Prop}
    (hlearn : ∀ s a t x, step s a t → Known t x → Known s x ∨ introduces a x) {known : α → Prop}
    (h0 : ∀ x, Known (state 0) x → known x) (hfresh : Fresh introduces known act m) {i : Nat}
    (hi : i < m) {x : α} (hx : introduces (act i) x) : ¬Known (state i) x := by
  have hpast : ∀ k, k ≤ m → Known (state k) x →
      Known (state 0) x ∨ ∃ j, j < k ∧ introduces (act j) x := by
    intro k
    induction k with
    | zero => exact fun _ hk => .inl hk
    | succ k ih =>
      intro hkm hk
      rcases hlearn _ _ _ x (hrun.step_at k hkm) hk with hold | hnew
      · rcases ih (by omega) hold with hstart | ⟨j, hj, hjx⟩
        · exact .inl hstart
        · exact .inr ⟨j, by omega, hjx⟩
      · exact .inr ⟨k, Nat.lt_succ_self k, hnew⟩
  intro hknown
  rcases hpast i (Nat.le_of_lt hi) hknown with hstart | ⟨j, hj, hjx⟩
  · exact hfresh.unknown i x hi hx (h0 x hstart)
  · exact hfresh.distinct j i x hj hi hjx hx

section Exec
variable {ρ : Type} (step : σ → ι → Option (σ × ρ))

/-- The actions in order: the last state, and what each of them returned. -/
def exec (s : σ) : List ι → Option (σ × List ρ)
  | [] => some (s, [])
  | a :: rest =>
    match step s a with
    | none => none
    | some (t, r) => (exec t rest).map fun (u, rs) => (u, r :: rs)

theorem exec_cons {s u : σ} {a : ι} {rest : List ι} {r : ρ} {rs : List ρ} :
    exec step s (a :: rest) = some (u, r :: rs) ↔
      ∃ t, step s a = some (t, r) ∧ exec step t rest = some (u, rs) := by
  rw [exec]
  cases step s a with
  | none => simp
  | some out =>
    obtain ⟨t, r'⟩ := out
    simp only [Option.map_eq_some_iff, Option.some.injEq, Prod.mk.injEq, Prod.exists]
    constructor
    · rintro ⟨u', rs', hexec, rfl, hr⟩
      cases hr
      exact ⟨t, ⟨rfl, rfl⟩, hexec⟩
    · rintro ⟨t', ⟨rfl, rfl⟩, hexec⟩
      exact ⟨u, rs, hexec, rfl, rfl⟩

/-- The second history is the first without some of its idle actions. -/
inductive Erased (Idle : ι → ρ → Prop) : List (ι × ρ) → List (ι × ρ) → Prop
  | nil : Erased Idle [] []
  | keep {a : ι} {r : ρ} {h h' : List (ι × ρ)} :
      Erased Idle h h' → Erased Idle ((a, r) :: h) ((a, r) :: h')
  | drop {a : ι} {r : ρ} {h h' : List (ι × ρ)} (idle : Idle a r) :
      Erased Idle h h' → Erased Idle ((a, r) :: h) h'

/-- Without them every other action returns the same, and the run ends the same. -/
theorem exec_erased {Idle : ι → ρ → Prop}
    (hidle : ∀ {s a t r}, step s a = some (t, r) → Idle a r → t = s) {h h' : List (ι × ρ)}
    (herased : Erased Idle h h') {s u : σ}
    (hexec : exec step s (h.map Prod.fst) = some (u, h.map Prod.snd)) :
    exec step s (h'.map Prod.fst) = some (u, h'.map Prod.snd) := by
  induction herased generalizing s with
  | nil => exact hexec
  | keep _ ih =>
    obtain ⟨t, hstep, hrest⟩ := (exec_cons step).mp hexec
    exact (exec_cons step).mpr ⟨t, hstep, ih hrest⟩
  | drop idle _ ih =>
    obtain ⟨t, hstep, hrest⟩ := (exec_cons step).mp hexec
    rw [hidle hstep idle] at hrest
    exact ih hrest

end Exec

/-! ### The latest event of a kind -/

/-- The latest event of a history, newest first, of which `p` holds given those before. -/
def latest {α : Type} (p : α → List α → Bool) : List α → Option α
  | [] => none
  | x :: earlier => if p x earlier then some x else latest p earlier

end LightningOnion.Lib
