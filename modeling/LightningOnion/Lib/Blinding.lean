import Mathlib.GroupTheory.OrderOfElement

/-! A chain of Diffie–Hellman exchanges over one re-blinded group element.

One party holds a scalar `x`; party `i` of the others holds `y i` and publishes
`y i • g`. The element that travels starts as `x • g`; each party derives a value
from it with its own scalar and multiplies it by a factor that depends on both,
before passing it on (`ephemeral`). The first party never sees the element
travel: it keeps the product of all factors so far, reduced by the group's order
(`scalar`), and multiplies the published elements by that. Both sides derive the
same values (`shared_eq`). -/
namespace LightningOnion.Lib.Blinding

section Order
variable {E : Type} [AddCommGroup E] {N : Nat}

theorem mod_nsmul (hcard : Nat.card E = N) (k : Nat) (Q : E) : (k % N) • Q = k • Q := by
  rw [← hcard]
  exact mod_natCard_nsmul Q k

/-- In a group of prime order, a scalar that is not a multiple of the order keeps
a nonzero element nonzero. -/
theorem nsmul_ne_zero (hp : N.Prime) (hcard : Nat.card E = N) {k : Nat} {Q : E} (hk : k % N ≠ 0)
    (hQ : Q ≠ 0) : k • Q ≠ 0 := by
  intro h
  have hdvd : addOrderOf Q ∣ N := hcard ▸ addOrderOf_dvd_natCard Q
  have hk' : addOrderOf Q ∣ k := addOrderOf_dvd_of_nsmul_eq_zero h
  rcases (Nat.dvd_prime hp).mp hdvd with h1 | hN
  · exact hQ (AddMonoid.addOrderOf_eq_one_iff.mp h1)
  · exact hk (Nat.mod_eq_zero_of_dvd (hN ▸ hk'))

end Order

variable {E S : Type} [AddCommGroup E] (N : Nat) (g : E) (derive : E → S) (factor : E → S → Nat)
  (x : Nat) (y : Nat → Nat)

/-- The travelling element as party `i` receives it. -/
def ephemeral : Nat → E
  | 0 => x • g
  | i + 1 => factor (ephemeral i) (derive (y i • ephemeral i)) • ephemeral i

/-- The first party's scalar for party `i`. -/
def scalar : Nat → Nat
  | 0 => x
  | i + 1 => scalar i * factor (scalar i • g) (derive (scalar i • (y i • g))) % N

theorem shared_comm (c k : Nat) : c • (k • g) = k • (c • g) := by
  rw [← mul_nsmul', ← mul_nsmul', Nat.mul_comm]

/-- The scalar is the travelling element's discrete logarithm. -/
theorem ephemeral_eq (hcard : Nat.card E = N) (i : Nat) :
    ephemeral g derive factor x y i = scalar N g derive factor x y i • g := by
  induction i with
  | zero => rfl
  | succ i ih =>
    have hshared := shared_comm g (scalar N g derive factor x y i) (y i)
    rw [ephemeral, scalar, mod_nsmul hcard, ih, hshared, Nat.mul_comm, mul_nsmul']

/-- **Both sides derive the same value for every party.** -/
theorem shared_eq (hcard : Nat.card E = N) (i : Nat) :
    derive (scalar N g derive factor x y i • (y i • g)) =
      derive (y i • ephemeral g derive factor x y i) := by
  rw [ephemeral_eq N g derive factor x y hcard i, shared_comm]

/-- As long as no factor is a multiple of the order, the element never vanishes. -/
theorem ephemeral_ne_zero (hp : N.Prime) (hcard : Nat.card E = N) (hg : g ≠ 0) (hx : x % N ≠ 0)
    (i : Nat) (hf : ∀ j, j < i → factor (ephemeral g derive factor x y j)
      (derive (y j • ephemeral g derive factor x y j)) % N ≠ 0) :
    ephemeral g derive factor x y i ≠ 0 := by
  induction i with
  | zero => exact nsmul_ne_zero hp hcard hx hg
  | succ i ih =>
    exact nsmul_ne_zero hp hcard (hf i (Nat.lt_succ_self i)) (ih fun j hj => hf j (by omega))

end LightningOnion.Lib.Blinding
