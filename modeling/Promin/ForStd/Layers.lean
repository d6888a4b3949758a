import Mathlib.Order.Nat

/-!
# Layers of a search

The distance between two points of a relation is the least number of steps from
one to the other. A breadth-first search goes from the points at one distance to
those at the next.
-/

namespace Layers

variable {α : Type} {step : α → α → Prop} {a b c : α}

inductive Walk (step : α → α → Prop) (a : α) : Nat → α → Prop
  | start : Walk step a 0 a
  | snoc {k : Nat} {b c : α} : Walk step a k b → step b c → Walk step a (k + 1) c

def AtDistance (step : α → α → Prop) (a : α) (k : Nat) (b : α) : Prop :=
  Walk step a k b ∧ ∀ j < k, ¬ Walk step a j b

def Within (step : α → α → Prop) (a : α) (k : Nat) (b : α) : Prop :=
  ∃ j ≤ k, AtDistance step a j b

theorem Walk.within {k : Nat} (h : Walk step a k b) : Within step a k b := by
  induction k using Nat.strong_induction_on with
  | _ k ih =>
    by_cases hleast : ∀ j < k, ¬ Walk step a j b
    · exact ⟨k, Nat.le_refl k, h, hleast⟩
    · push Not at hleast
      obtain ⟨j, hj, hwalk⟩ := hleast
      obtain ⟨i, hi, hdist⟩ := ih j hj hwalk
      exact ⟨i, by omega, hdist⟩

theorem Within.walk {k : Nat} (h : Within step a k b) : ∃ j ≤ k, Walk step a j b := by
  obtain ⟨j, hj, hdist⟩ := h
  exact ⟨j, hj, hdist.1⟩

theorem AtDistance.unique {j k : Nat} (hj : AtDistance step a j b) (hk : AtDistance step a k b) :
    j = k := by
  rcases Nat.lt_trichotomy j k with hlt | heq | hlt
  · exact absurd hj.1 (hk.2 j hlt)
  · exact heq
  · exact absurd hk.1 (hj.2 k hlt)

@[simp] theorem atDistance_zero_iff : AtDistance step a 0 b ↔ b = a := by
  refine ⟨fun h => ?_, fun h => ⟨h ▸ .start, fun j hj => absurd hj (Nat.not_lt_zero j)⟩⟩
  cases h.1
  rfl

theorem within_zero_iff : Within step a 0 b ↔ b = a := by
  refine ⟨fun ⟨j, hj, h⟩ => ?_, fun h => ⟨0, Nat.le_refl 0, atDistance_zero_iff.mpr h⟩⟩
  obtain rfl : j = 0 := by omega
  exact atDistance_zero_iff.mp h

theorem within_succ_iff {k : Nat} :
    Within step a (k + 1) b ↔ Within step a k b ∨ AtDistance step a (k + 1) b := by
  constructor
  · rintro ⟨j, hj, h⟩
    rcases Nat.lt_or_eq_of_le hj with hlt | rfl
    · exact .inl ⟨j, by omega, h⟩
    · exact .inr h
  · rintro (⟨j, hj, h⟩ | h)
    · exact ⟨j, by omega, h⟩
    · exact ⟨k + 1, Nat.le_refl _, h⟩

theorem AtDistance.pred {k : Nat} (h : AtDistance step a (k + 1) c) :
    ∃ b, AtDistance step a k b ∧ step b c := by
  obtain ⟨hwalk, hleast⟩ := h
  cases hwalk with
  | @snoc _ b _ hb hstep =>
    refine ⟨b, ⟨hb, fun j hj hshort => ?_⟩, hstep⟩
    exact hleast (j + 1) (by omega) (.snoc hshort hstep)

theorem atDistance_succ_iff {k : Nat} : AtDistance step a (k + 1) c ↔
    ¬ Within step a k c ∧ ∃ b, AtDistance step a k b ∧ step b c := by
  constructor
  · intro h
    refine ⟨fun hwithin => ?_, h.pred⟩
    obtain ⟨j, hj, hwalk⟩ := hwithin.walk
    exact h.2 j (by omega) hwalk
  · rintro ⟨hnew, b, hb, hstep⟩
    refine ⟨.snoc hb.1 hstep, fun j hj hwalk => hnew ?_⟩
    obtain ⟨i, hi, hdist⟩ := hwalk.within
    exact ⟨i, by omega, hdist⟩

theorem within_of_empty {k : Nat} (hempty : ∀ b, ¬ AtDistance step a (k + 1) b) {n : Nat}
    (h : Within step a (k + n) b) : Within step a k b := by
  induction n generalizing b with
  | zero => exact h
  | succ n ih =>
    obtain hwithin | hdist := within_succ_iff.mp h
    · exact ih hwithin
    · obtain ⟨c, hc, -⟩ := hdist.pred
      obtain ⟨j, hj, hnear⟩ := ih ⟨k + n, Nat.le_refl _, hc⟩
      -- the step before is at distance `k + n`, so `n` is zero
      have hlast : j = k + n := hnear.unique hc
      obtain rfl : n = 0 := by omega
      exact absurd hdist (hempty b)

end Layers
