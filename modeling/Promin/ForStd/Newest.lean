import Mathlib.Data.List.Sort

/-!
# The greatest `k` elements of a property

`Newest T k l`: the list `l` is, in ascending order, the greatest `k` elements
that have the property `T` (all of them when there are fewer).
-/

variable {α : Type} [LinearOrder α]

/-- `l` is the greatest `k` elements with the property `T`, ascending. -/
structure Newest (T : α → Prop) (k : Nat) (l : List α) : Prop where
  sorted : l.Pairwise (· < ·)
  mem : ∀ o ∈ l, T o
  length_le : l.length ≤ k
  rest : ∀ o, T o → o ∈ l ∨ (l.length = k ∧ ∀ p ∈ l, o < p)

namespace Newest

variable {T T' : α → Prop} {k : Nat} {l l' : List α}

/-- Of two lists of the greatest `k` elements, one contains the other. -/
private theorem subset (h : Newest T k l) (h' : Newest T k l') : ∀ o ∈ l, o ∈ l' := by
  intro o ho
  cases h'.rest o (h.mem o ho) with
  | inl hmem => exact hmem
  | inr hold =>
    -- `o` lies below all of the full list `l'`, so `l` has `o` and all of `l'`
    obtain ⟨hlen, hlt⟩ := hold
    have hsub : ∀ p ∈ l', p ∈ l := by
      intro p hp
      cases h.rest p (h'.mem p hp) with
      | inl hmem => exact hmem
      | inr hbelow => exact absurd (hbelow.2 o ho) (lt_asymm (hlt p hp))
    have hnotin : o ∉ l' := fun hmem => lt_irrefl o (hlt o hmem)
    have hnodup : (o :: l').Nodup := by
      rw [List.nodup_cons]
      exact ⟨hnotin, h'.sorted.imp fun hab => ne_of_lt hab⟩
    have hincl : o :: l' ⊆ l := by
      intro p hp
      cases hp with
      | head => exact ho
      | tail _ hp => exact hsub p hp
    have hcount : (o :: l').length ≤ l.length :=
      (List.subperm_of_subset hnodup hincl).length_le
    have hk := h.length_le
    simp only [List.length_cons] at hcount
    omega

theorem unique (h : Newest T k l) (h' : Newest T k l') : l = l' :=
  h.sorted.eq_of_mem_iff h'.sorted fun o => ⟨subset h h' o, subset h' h o⟩

theorem congr (h : Newest T k l) (hiff : ∀ o, T o ↔ T' o) : Newest T' k l where
  sorted := h.sorted
  mem o ho := (hiff o).mp (h.mem o ho)
  length_le := h.length_le
  rest o ho := h.rest o ((hiff o).mpr ho)

end Newest
