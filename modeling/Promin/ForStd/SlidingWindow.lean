import Mathlib.Data.List.Basic

/-!
# Sliding windows

A limiter keeps the items that a window can still reach, and takes in one more
while there are fewer than `max` of them. No window ever holds more than `max`
(`Capped.append`), also where later items are taken in with longer windows.
-/

namespace SlidingWindow

open List

variable {α : Type} {time : α → Int} {w now : Int} {max : Nat} {items rows : List α}

/-- No window of length `w` holds more than `max` of the items. -/
def Capped (time : α → Int) (w : Int) (max : Nat) (items : List α) : Prop :=
  ∀ t, items.countP (fun x => decide (t < time x ∧ time x ≤ t + w)) ≤ max

/-- The rows have every item that a window which ends from `now` on can reach. -/
structure Reaches (time : α → Int) (w now : Int) (items rows : List α) : Prop where
  past : ∀ x ∈ items, time x ≤ now
  recent : (items.filter fun x => decide (now - w < time x)) <+ rows

theorem Capped.sublist {items' : List α} (h : Capped time w max items) (hsub : items' <+ items) :
    Capped time w max items' :=
  fun t => Nat.le_trans hsub.countP_le (h t)

theorem Reaches.nil : Reaches time w now [] rows :=
  ⟨forall_mem_nil _, nil_sublist _⟩

theorem Reaches.later (h : Reaches time w now items rows) {now' : Int} (hle : now ≤ now') :
    Reaches time w now' items rows where
  past x hx := Int.le_trans (h.past x hx) hle
  recent := by
    refine Sublist.trans (monotone_filter_right _ fun x hx => ?_) h.recent
    simp only [decide_eq_true_eq] at hx ⊢
    omega

theorem Reaches.filter (h : Reaches time w now items rows) (keep : α → Bool) :
    Reaches time w now (items.filter keep) (rows.filter keep) where
  past x hx := h.past x (mem_of_mem_filter hx)
  recent := by
    rw [filter_comm]
    exact h.recent.filter keep

/-- Rows are dropped that no window from now on can reach. -/
theorem Reaches.sweep (h : Reaches time w now items rows) {keep : α → Bool}
    (hkeep : ∀ x ∈ rows, keep x = false → time x ≤ now - w) :
    Reaches time w now items (rows.filter keep) where
  past := h.past
  recent := by
    have hkept := h.recent.filter keep
    rw [filter_eq_self.mpr fun x hx => ?_] at hkept
    · exact hkept
    · have hrecent := of_mem_filter hx
      rw [decide_eq_true_eq] at hrecent
      cases hdrop : keep x with
      | true => rfl
      | false =>
        have hreach := hkeep x (h.recent.subset hx) hdrop
        omega

theorem Reaches.append (h : Reaches time w now items rows) {x : α} (hx : time x = now) :
    Reaches time w now (items ++ [x]) (rows ++ [x]) where
  past y hy := by
    cases mem_append.mp hy with
    | inl hitem => exact h.past y hitem
    | inr hlast => exact Int.le_of_eq (mem_singleton.mp hlast ▸ hx)
  recent := by
    rw [filter_append]
    exact h.recent.append filter_sublist

/-- An item taken in while fewer than `max` rows are kept. -/
theorem Capped.append (h : Capped time w max items) (hrows : Reaches time w now items rows)
    (hroom : rows.length < max) {x : α} (hx : time x = now) :
    Capped time w max (items ++ [x]) := by
  intro t
  rw [countP_append, countP_singleton]
  by_cases hin : t < time x ∧ time x ≤ t + w
  · -- the window reaches `now`, so its items are among the rows
    have hrecent : items.countP (fun y => decide (t < time y ∧ time y ≤ t + w)) ≤
        items.countP fun y => decide (now - w < time y) := by
      refine countP_mono_left fun y _ hy => ?_
      simp only [decide_eq_true_eq] at hy ⊢
      omega
    have hkept := hrows.recent.length_le
    rw [← countP_eq_length_filter] at hkept
    rw [if_pos (decide_eq_true hin)]
    omega
  · rw [if_neg fun hx => hin (of_decide_eq_true hx)]
    exact h t

end SlidingWindow
