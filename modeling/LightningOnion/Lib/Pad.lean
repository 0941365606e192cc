import Mathlib.Data.List.Basic

/-! Pads: strings combined letter by letter with a self-inverse operation.

A stream cipher adds a keystream to a string and takes it off again by adding it
once more. Nothing else about the letters matters, so they are an arbitrary
`Alphabet`: a neutral letter and an operation that undoes itself. `pad` is the
operation on strings, cut at the shorter of the two. -/
namespace LightningOnion.Lib

/-- Letters with a neutral one and an operation that undoes itself. -/
class Alphabet (α : Type) where
  blank : α
  mix : α → α → α
  mix_comm : ∀ a b, mix a b = mix b a
  blank_mix : ∀ a, mix blank a = a
  mix_mix : ∀ a b, mix (mix a b) b = a

section
variable {α : Type} [Alphabet α]

/-- Strings combined letter by letter, as far as both reach. -/
def pad (a b : List α) : List α := List.zipWith Alphabet.mix a b

/-- The string of `n` neutral letters. -/
def blanks (n : Nat) : List α := List.replicate n Alphabet.blank

@[simp] theorem length_pad (a b : List α) : (pad a b).length = min a.length b.length := by
  simp [pad]

@[simp] theorem length_blanks (n : Nat) : (blanks n : List α).length = n := by
  simp [blanks]

theorem pad_append (a b c d : List α) (h : a.length = b.length) :
    pad (a ++ c) (b ++ d) = pad a b ++ pad c d :=
  List.zipWith_append h

theorem take_pad (n : Nat) (a b : List α) : (pad a b).take n = pad (a.take n) (b.take n) :=
  List.take_zipWith

theorem drop_pad (n : Nat) (a b : List α) : (pad a b).drop n = pad (a.drop n) (b.drop n) :=
  List.drop_zipWith

/-- Adding a keystream twice is adding it not at all. -/
theorem pad_pad (a b : List α) (h : a.length ≤ b.length) : pad (pad a b) b = a := by
  induction a generalizing b with
  | nil => simp [pad]
  | cons x a ih =>
    cases b with
    | nil => simp at h
    | cons y b =>
      have hle : a.length ≤ b.length := by simpa using h
      have hrest : pad (pad a b) b = a := ih b hle
      simp only [pad, List.zipWith_cons_cons, Alphabet.mix_mix] at hrest ⊢
      rw [hrest]

theorem blanks_pad (n : Nat) (b : List α) : pad (blanks n) b = b.take n := by
  induction n generalizing b with
  | zero => simp [pad, blanks]
  | succ n ih =>
    cases b with
    | nil => simp [pad]
    | cons y b =>
      have hrest : pad (blanks n) b = b.take n := ih b
      simp only [pad, blanks] at hrest
      simp only [pad, blanks, List.replicate_succ, List.zipWith_cons_cons, Alphabet.blank_mix,
        List.take_succ_cons, hrest]

theorem pad_comm (a b : List α) : pad a b = pad b a :=
  List.zipWith_comm_of_comm Alphabet.mix_comm

/-- Whatever the string and the target, adding both is the keystream that takes
the one to the other. -/
theorem pad_pad_left (a t : List α) (h : t.length ≤ a.length) : pad a (pad a t) = t := by
  rw [pad_comm a (pad a t), pad_comm a t]
  exact pad_pad t a h

end

end LightningOnion.Lib
