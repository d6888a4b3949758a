import Mathlib.Data.List.Basic
import Mathlib.Data.List.ProdSigma

/-!
# Nested-loop joins

The joins of two lists by a relation between their items, as nested loops. A row
of a join is a pair of related items, or an item of one side that is related to
none of the other.
-/

namespace NestedLoop

open List

variable {α β : Type}

inductive JoinedRow (α β : Type) where
  | both (a : α) (b : β)
  | left (a : α)
  | right (b : β)

def JoinedRow.isBoth : JoinedRow α β → Bool
  | .both _ _ => true
  | _ => false

section Joins

variable (m : α → β → Bool) (left : List α) (right : List β)

def inner : List (JoinedRow α β) :=
  left.flatMap fun a => (right.filter (m a)).map (.both a)

def leftOuter : List (JoinedRow α β) :=
  left.flatMap fun a =>
    if right.filter (m a) = [] then [.left a] else (right.filter (m a)).map (.both a)

def rightOuter : List (JoinedRow α β) :=
  right.flatMap fun b =>
    if left.filter (m · b) = [] then [.right b] else (left.filter (m · b)).map (.both · b)

/-- The right items that no left one is related to. -/
def unmatched : List β := right.filter fun b => !left.any (m · b)

def full : List (JoinedRow α β) := leftOuter m left right ++ (unmatched m left right).map .right

def semi : List (JoinedRow α β) := (left.filter fun a => right.any (m a)).map .left

def anti : List (JoinedRow α β) := (left.filter fun a => !right.any (m a)).map .left

end Joins

/-! ## Counting pairs -/

theorem countP_eq_countP_iff {p q : α → Bool} {l : List α}
    (himp : ∀ x ∈ l, q x = true → p x = true) :
    l.countP p = l.countP q ↔ ∀ x ∈ l, p x = true → q x = true := by
  induction l with
  | nil => simp
  | cons x l ih =>
    have hrest := ih fun y hy => himp y (mem_cons_of_mem _ hy)
    have hle : l.countP q ≤ l.countP p :=
      countP_mono_left fun y hy => himp y (mem_cons_of_mem _ hy)
    have hx := himp x mem_cons_self
    rw [countP_cons, countP_cons, forall_mem_cons, ← hrest]
    cases hp : p x <;> cases hq : q x
    · simp
    · exact absurd (hx hq) (by rw [hp]; exact Bool.false_ne_true)
    · simp
      omega
    · simp

variable {m : α → β → Bool} {left : List α} {right : List β}

theorem countP_isBoth_flatMap {γ δ : Type} (m : γ → δ → Bool) (items : List γ) (others : List δ)
    (rows : γ → List (JoinedRow α β))
    (hrows : ∀ c, (rows c).countP JoinedRow.isBoth = others.countP (m c)) :
    (items.flatMap rows).countP JoinedRow.isBoth =
      (items ×ˢ others).countP fun p => m p.1 p.2 := by
  induction items with
  | nil => rfl
  | cons c items ih =>
    rw [flatMap_cons, countP_append, ih, hrows, product_cons, countP_append,
      countP_map]
    rfl

theorem countP_isBoth_inner : (inner m left right).countP JoinedRow.isBoth =
    (left ×ˢ right).countP fun p => m p.1 p.2 := by
  apply countP_isBoth_flatMap
  intro a
  rw [countP_map, countP_eq_length_filter (p := m a)]
  exact countP_eq_length.mpr fun _ _ => rfl

theorem length_inner :
    (inner m left right).length = (left ×ˢ right).countP fun p => m p.1 p.2 := by
  rw [← countP_isBoth_inner, eq_comm, countP_eq_length]
  intro row hrow
  obtain ⟨a, -, hrow⟩ := mem_flatMap.mp hrow
  obtain ⟨b, -, rfl⟩ := mem_map.mp hrow
  rfl

theorem countP_isBoth_leftOuter : (leftOuter m left right).countP JoinedRow.isBoth =
    (left ×ˢ right).countP fun p => m p.1 p.2 := by
  apply countP_isBoth_flatMap
  intro a
  rw [countP_eq_length_filter (p := m a)]
  split
  · rename_i hnone
    rw [hnone]
    rfl
  · rw [countP_map]
    exact countP_eq_length.mpr fun _ _ => rfl

theorem countP_isBoth_rightOuter : (rightOuter m left right).countP JoinedRow.isBoth =
    (right ×ˢ left).countP fun p => m p.2 p.1 := by
  apply countP_isBoth_flatMap (fun b a => m a b)
  intro b
  rw [countP_eq_length_filter (p := fun a => m a b)]
  split
  · rename_i hnone
    rw [hnone]
    rfl
  · rw [countP_map]
    exact countP_eq_length.mpr fun _ _ => rfl

/-! ## Relations that agree -/

variable {m' : α → β → Bool}

section

variable (h : ∀ a ∈ left, ∀ b ∈ right, m a b = m' a b)
include h

theorem filter_right_congr {a : α} (ha : a ∈ left) :
    right.filter (m a) = right.filter (m' a) :=
  filter_congr fun b hb => h a ha b hb

theorem inner_congr :
    inner m left right = inner m' left right :=
  flatMap_congr fun a ha => by rw [filter_right_congr h ha]

theorem leftOuter_congr :
    leftOuter m left right = leftOuter m' left right :=
  flatMap_congr fun a ha => by rw [filter_right_congr h ha]

theorem rightOuter_congr :
    rightOuter m left right = rightOuter m' left right :=
  flatMap_congr fun b hb => by
    rw [filter_congr (l := left) fun a ha => h a ha b hb]

theorem unmatched_congr :
    unmatched m left right = unmatched m' left right := by
  apply filter_congr
  intro b hb
  congr 1
  rw [Bool.eq_iff_iff, any_eq_true, any_eq_true]
  exact exists_congr fun a => and_congr_right fun ha => by rw [h a ha b hb]

end

end NestedLoop
