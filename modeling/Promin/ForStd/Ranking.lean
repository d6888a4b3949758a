import Mathlib.Tactic.Linarith
import Mathlib.Tactic.Ring
import Promin.ForStd.Grouping

/-!
# Ranking

Positions in a sorted list, and the division of a list into numbered buckets.
-/

namespace Ranking

open List Bool

/-! ## Sorted lists -/

section Sorted

variable {α : Type} {less : α → α → Bool} {P : α → Prop} {l : List α} {x : α}

structure TotalOn (less : α → α → Bool) (P : α → Prop) : Prop where
  irrefl : ∀ {a}, P a → less a a = false
  trans : ∀ {a b c}, P a → P b → P c → less a b = true → less b c = true → less a c = true
  total : ∀ {a b}, P a → P b → a ≠ b → less a b = true ∨ less b a = true

theorem TotalOn.asymm (h : TotalOn less P) {a b : α} (ha : P a) (hb : P b)
    (hab : less a b = true) : less b a = false := by
  cases hba : less b a with
  | false => rfl
  | true => exact absurd (h.trans ha hb ha hab hba) (by rw [h.irrefl ha]; exact false_ne_true)

end Sorted

/-! ## Buckets -/

variable {n k : Nat}

end Ranking
