import LightningOnion.Lib.Reader

/-! Records of fixed size, read field by field.

A field that is missing altogether and a field that is cut are told apart by the reader:
end of file for the one, an unexpected one for the other. So where in a record a stream
ends shows in the error, but only up to the field: a stream that ends where a field
begins fails as an empty stream does. -/
namespace LightningOnion.Lib

variable {ε α β : Type} (err : ReadError → ε)

/-- `x` reads a record of `size` bytes whose fields begin at `starts`. -/
structure ReadsFields (starts : List Nat) (size : Nat) (x : StateT Reader (Except ε) α) : Prop where
  start_lt : ∀ s ∈ starts, s < size
  enough : ∀ data cuts, size ≤ data.length →
    ∃ a cuts', x ⟨data, cuts⟩ = .ok (a, ⟨data.drop size, cuts'⟩)
  short : ∀ data cuts, data.length < size →
    x ⟨data, cuts⟩ = .error (err (if data.length ∈ starts then .eof else .unexpectedEOF))

namespace ReadsFields
variable {err}

theorem pure (a : α) : ReadsFields err [] 0 (Pure.pure a : StateT Reader (Except ε) α) where
  start_lt := fun _ h => absurd h List.not_mem_nil
  enough := fun _ cuts _ => ⟨a, cuts, rfl⟩
  short := fun _ _ h => absurd h (Nat.not_lt_zero _)

theorem bind {starts starts' : List Nat} {size size' : Nat} {x : StateT Reader (Except ε) α}
    {f : α → StateT Reader (Except ε) β} (hx : ReadsFields err starts size x)
    (hf : ∀ a, ReadsFields err starts' size' (f a)) :
    ReadsFields err (starts ++ starts'.map (size + ·)) (size + size') (x >>= f) where
  start_lt := by
    intro s hs
    rcases List.mem_append.mp hs with hs | hs
    · exact Nat.lt_of_lt_of_le (hx.start_lt s hs) (Nat.le_add_right ..)
    · obtain ⟨s', hs', rfl⟩ := List.mem_map.mp hs
      obtain ⟨a, -, -⟩ := hx.enough (List.replicate size 0) []
        (Nat.le_of_eq List.length_replicate.symm)
      exact Nat.add_lt_add_left ((hf a).start_lt s' hs') size
  enough := by
    intro data cuts hle
    obtain ⟨a, cuts₁, h₁⟩ := hx.enough data cuts (by omega)
    obtain ⟨b, cuts₂, h₂⟩ := (hf a).enough (data.drop size) cuts₁ (by rw [List.length_drop]; omega)
    refine ⟨b, cuts₂, ?_⟩
    show (x ⟨data, cuts⟩ >>= fun p => f p.1 p.2) = _
    rw [h₁]
    show f a _ = _
    rw [h₂, List.drop_drop]
  short := by
    intro data cuts hlt
    show (x ⟨data, cuts⟩ >>= fun p => f p.1 p.2) = _
    by_cases hcut : data.length < size
    · -- The first record is cut, and no field of the second begins within it.
      have hstarts : data.length ∈ starts ++ starts'.map (size + ·) ↔ data.length ∈ starts := by
        simp only [List.mem_append, List.mem_map]
        constructor
        · rintro (h | ⟨s, -, hs⟩)
          · exact h
          · omega
        · exact Or.inl
      rw [hx.short data cuts hcut]
      simp only [hstarts]
      rfl
    · obtain ⟨a, cuts₁, h₁⟩ := hx.enough data cuts (by omega)
      have hlen : (data.drop size).length = data.length - size := List.length_drop ..
      have hstarts : data.length ∈ starts ++ starts'.map (size + ·) ↔ data.length - size ∈ starts' := by
        simp only [List.mem_append, List.mem_map]
        constructor
        · rintro (h | ⟨s, hs, heq⟩)
          · exact absurd (hx.start_lt _ h) hcut
          · rwa [← heq, Nat.add_sub_cancel_left]
        · exact fun h => .inr ⟨_, h, by omega⟩
      rw [h₁]
      show f a _ = _
      rw [(hf a).short _ _ (by rw [hlen]; omega), hlen]
      simp only [hstarts]

end ReadsFields

end LightningOnion.Lib
