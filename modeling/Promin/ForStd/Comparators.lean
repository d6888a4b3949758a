import Mathlib.Data.List.Induction

/-!
# Comparators

Comparing sequences by the first position that differs, and picking a greatest item, under a
comparison that is oriented and transitive.
-/

namespace Comparators

open List

open Std (OrientedCmp TransCmp)

variable {α : Type}

/-- The first of `n` positions that tells the sequences apart decides. -/
def compareFirst (cmp : α → α → Ordering) (n : Nat) (f g : Nat → α) : Ordering :=
  (range n).foldl (fun found i => found.then (cmp (f i) (g i))) .eq

theorem compareFirst_succ (cmp : α → α → Ordering) (n : Nat) (f g : Nat → α) :
    compareFirst cmp (n + 1) f g = (compareFirst cmp n f g).then (cmp (f n) (g n)) := by
  simp [compareFirst, range_succ]

instance (cmp : α → α → Ordering) [TransCmp cmp] (n : Nat) :
    TransCmp (compareFirst cmp n) := by
  induction n with
  | zero => exact { eq_swap := rfl, isLE_trans := fun _ _ => rfl }
  | succ n ih =>
    have hlast : TransCmp fun f g : Nat → α => cmp (f n) (g n) :=
      { eq_swap := OrientedCmp.eq_swap, isLE_trans := TransCmp.isLE_trans }
    have heq : compareFirst cmp (n + 1) =
        compareLex (compareFirst cmp n) fun f g => cmp (f n) (g n) := by
      funext f g
      exact compareFirst_succ cmp n f g
    rw [heq]
    infer_instance

/-- Positions that do not differ may be added. -/
theorem compareFirst_of_le {cmp : α → α → Ordering} {f g : Nat → α} {m n : Nat} (hle : m ≤ n)
    (hsame : ∀ i, m ≤ i → cmp (f i) (g i) = .eq) :
    compareFirst cmp n f g = compareFirst cmp m f g := by
  induction hle with
  | refl => rfl
  | step hle ih => rw [compareFirst_succ, hsame _ hle, Ordering.then_eq, ih]

def greatest (cmp : α → α → Ordering) (items : List α) : Option α :=
  items.foldl (fun best a => match best with
    | none => some a
    | some b => if cmp a b = .gt then some a else some b) none

section Greatest

variable {cmp : α → α → Ordering} {items : List α}

theorem greatest_append (a : α) : greatest cmp (items ++ [a]) =
    match greatest cmp items with
    | none => some a
    | some b => if cmp a b = .gt then some a else some b := by
  simp [greatest]

variable [TransCmp cmp]

theorem greatest_spec (hne : items ≠ []) :
    ∃ b ∈ items, greatest cmp items = some b ∧ ∀ a ∈ items, (cmp a b).isLE := by
  induction items using reverseRecOn with
  | nil => exact absurd rfl hne
  | append_singleton items a ih =>
    have hself : cmp a a = .eq := Std.ReflCmp.compare_self
    rw [greatest_append]
    by_cases hnil : items = []
    · subst hnil
      exact ⟨a, by simp, rfl, by simp [hself]⟩
    obtain ⟨b, hmem, hbest, hle⟩ := ih hnil
    rw [hbest]
    by_cases hgt : cmp a b = .gt
    · -- What was no greater than the old item is no greater than the new one.
      have hba : (cmp b a).isLE := by
        have hswap : cmp b a = (cmp a b).swap := OrientedCmp.eq_swap
        rw [hswap, hgt]
        rfl
      refine ⟨a, by simp, by simp [hgt], fun x hx => ?_⟩
      rcases mem_append.mp hx with hx | hx
      · exact TransCmp.isLE_trans (hle x hx) hba
      · rw [mem_singleton.mp hx, hself]
        rfl
    · refine ⟨b, mem_append_left _ hmem, by simp [hgt], fun x hx => ?_⟩
      rcases mem_append.mp hx with hx | hx
      · exact hle x hx
      · rw [mem_singleton.mp hx]
        exact Ordering.ne_gt_iff_isLE.mp hgt

theorem greatest_perm {items' : List α} (hperm : items.Perm items') {b b' : α}
    (hb : greatest cmp items = some b) (hb' : greatest cmp items' = some b') :
    cmp b b' = .eq := by
  have hne : items ≠ [] := by
    rintro rfl
    cases hb
  have hne' : items' ≠ [] := fun hnil => hne (perm_nil.mp (hnil ▸ hperm))
  obtain ⟨c, hmem, hc, hle⟩ := (greatest_spec hne : ∃ b ∈ items, greatest cmp items = some b ∧ _)
  obtain ⟨c', hmem', hc', hle'⟩ :=
    (greatest_spec hne' : ∃ b ∈ items', greatest cmp items' = some b ∧ _)
  cases hb.symm.trans hc
  cases hb'.symm.trans hc'
  exact OrientedCmp.isLE_antisymm (hle' b (hperm.mem_iff.mp hmem))
    (hle b' (hperm.mem_iff.mpr hmem'))

end Greatest

end Comparators
