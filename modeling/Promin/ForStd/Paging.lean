import Mathlib.Order.Lattice
import Mathlib.Order.Defs.LinearOrder
import Mathlib.Data.List.Basic

/-!
# Paging by the last key

A listing sorted by a key is read page by page: a page starts after the cursor,
ends after `limit` items, and its cursor is the key of its last item.
-/

namespace Paging

open List

variable {α κ : Type} [LinearOrder κ] (key : α → κ)

def afterCursor (cursor : Option κ) (items : List α) : List α :=
  match cursor with
  | none => items
  | some c => items.filter fun a => decide (c < key a)

def page (limit : Option Nat) (cursor : Option κ) (items : List α) : List α × Option κ :=
  let rest := afterCursor key cursor items
  match limit with
  | none => (rest, none)
  | some n => (rest.take n, if n < rest.length then (rest.take n).getLast?.map key else none)

/-- All items from the cursor on, read page by page; `none` when there were more than
    `fuel` pages. -/
def readPages (read : Option κ → List α × Option κ) : (fuel : Nat) → Option κ → Option (List α)
  | 0, _ => none
  | fuel + 1, cursor =>
    match read cursor with
    | (items, none) => some items
    | (items, some next) => (readPages read fuel (some next)).map (items ++ ·)

variable {key} {items : List α}

theorem pairwise_afterCursor (hsorted : items.Pairwise (key · < key ·))
    (cursor : Option κ) : (afterCursor key cursor items).Pairwise (key · < key ·) := by
  cases cursor with
  | none => exact hsorted
  | some c => exact hsorted.filter _

theorem afterCursor_afterCursor {cursor : Option κ} {c : κ} (hle : ∀ c' ∈ cursor, c' ≤ c) :
    afterCursor key (some c) (afterCursor key cursor items) = afterCursor key (some c) items := by
  cases cursor with
  | none => rfl
  | some c' =>
    have hc : c' ≤ c := hle c' rfl
    simp only [afterCursor, filter_filter]
    congr 1
    funext a
    by_cases ha : c < key a
    · simp [ha, lt_of_le_of_lt hc ha]
    · simp [ha]

theorem afterCursor_last {front back : List α} {last : α}
    (hsorted : (front ++ last :: back).Pairwise (key · < key ·)) :
    afterCursor key (some (key last)) (front ++ last :: back) = back := by
  rw [pairwise_append, pairwise_cons] at hsorted
  obtain ⟨-, ⟨hback, -⟩, hfront⟩ := hsorted
  have hnone : front.filter (fun a => decide (key last < key a)) = [] := by
    rw [filter_eq_nil_iff]
    intro a ha
    have hlt := hfront a ha last mem_cons_self
    simp [not_lt_of_gt hlt]
  have hall : back.filter (fun a => decide (key last < key a)) = back := by
    rw [filter_eq_self]
    intro a ha
    simp [hback a ha]
  simp [afterCursor, filter_append, hnone, hall]

theorem mem_afterCursor {cursor : Option κ} {a : α} :
    a ∈ afterCursor key cursor items ↔ a ∈ items ∧ ∀ c ∈ cursor, c < key a := by
  cases cursor <;> simp [afterCursor]

/-- After a page follows what the page left. -/
theorem afterCursor_getLast (hsorted : items.Pairwise (key · < key ·)) {cursor : Option κ}
    {n : Nat} {last : α} (hlast : ((afterCursor key cursor items).take n).getLast? = some last) :
    afterCursor key (some (key last)) items = (afterCursor key cursor items).drop n := by
  obtain ⟨front, htake⟩ := getLast?_eq_some_iff.mp hlast
  have hsplit : afterCursor key cursor items =
      front ++ last :: (afterCursor key cursor items).drop n := by
    rw [← singleton_append, ← append_assoc, ← htake, take_append_drop]
  have hmem : last ∈ afterCursor key cursor items := by
    rw [hsplit]
    simp
  have hrest := pairwise_afterCursor hsorted cursor
  rw [hsplit] at hrest
  rw [← afterCursor_afterCursor fun c hc => le_of_lt ((mem_afterCursor.mp hmem).2 c hc)]
  conv_lhs => rw [hsplit]
  exact afterCursor_last hrest

theorem page_cut (hsorted : items.Pairwise (key · < key ·))
    {cursor : Option κ} {n : Nat} (hpos : 0 < n)
    (hmore : n < (afterCursor key cursor items).length) :
    ∃ last, page key (some n) cursor items =
        ((afterCursor key cursor items).take n, some (key last)) ∧
      afterCursor key (some (key last)) items = (afterCursor key cursor items).drop n := by
  cases hlast : ((afterCursor key cursor items).take n).getLast? with
  | none =>
    rw [getLast?_eq_none_iff, take_eq_nil_iff] at hlast
    rcases hlast with hzero | hnil
    · omega
    · simp [hnil] at hmore
  | some last => exact ⟨last, by simp [page, hmore, hlast], afterCursor_getLast hsorted hlast⟩

/-- An item of an ordered listing is on its first page, or that page is full and ends before
    the item. -/
theorem mem_take_or {r : α → α → Prop} (hsorted : items.Pairwise r) {n : Nat}
    (hpos : 0 < n) {x : α} (hx : x ∈ items) :
    x ∈ items.take n ∨
      ((items.take n).length = n ∧ ∃ last ∈ (items.take n).getLast?, r last x) := by
  rw [← take_append_drop n items, pairwise_append] at hsorted
  rw [← take_append_drop n items, mem_append] at hx
  refine hx.imp_right fun hx => ?_
  have hlong : n < items.length := by
    have hdrop := length_pos_of_mem hx
    rw [length_drop] at hdrop
    omega
  have hfull : (items.take n).length = n := length_take_of_le (by omega)
  refine ⟨hfull, ?_⟩
  cases hlast : (items.take n).getLast? with
  | none =>
    rw [getLast?_eq_none_iff.mp hlast] at hfull
    simp at hfull
    omega
  | some last => exact ⟨last, rfl, hsorted.2.2 last (mem_of_getLast? hlast) x hx⟩

theorem readPages_eq (hsorted : items.Pairwise (key · < key ·))
    {limit : Option Nat} (hlimit : ∀ n ∈ limit, 0 < n) {fuel : Nat} {cursor : Option κ}
    (hfuel : (afterCursor key cursor items).length < fuel) :
    readPages (fun cursor => page key limit cursor items) fuel cursor =
      some (afterCursor key cursor items) := by
  induction fuel generalizing cursor with
  | zero => omega
  | succ fuel ih =>
    cases limit with
    | none => rfl
    | some n =>
      have hpos : 0 < n := hlimit n rfl
      by_cases hmore : n < (afterCursor key cursor items).length
      · obtain ⟨last, hpage, hnext⟩ := page_cut hsorted hpos hmore
        have hshort : ((afterCursor key cursor items).drop n).length < fuel := by
          rw [length_drop]
          omega
        rw [← hnext] at hshort
        simp only [readPages, hpage]
        rw [ih hshort, hnext]
        simp
      · have htake : (afterCursor key cursor items).take n = afterCursor key cursor items :=
          take_of_length_le (by omega)
        simp [readPages, page, hmore, htake]

/-! ## Paging over a listing that changes -/

section

variable {σ γ : Type} (next : α → γ) (limit : Nat) (read : σ → Option γ → List α)

/-- Reads page after page, each in the state of its time and after the last item of the one
    before, up to a short page; whether there was one is told beside the items. -/
def readOn : List σ → Option γ → List α × Bool
  | [], _ => ([], false)
  | s :: later, cursor =>
    let rows := read s cursor
    match rows.getLast? with
    | none => (rows, true)
    | some last =>
      if rows.length < limit then (rows, true)
      else
        let rest := readOn later (some (next last))
        (rows ++ rest.1, rest.2)

structure Lists (key : α → κ) (items : σ → List α) (s : σ) : Prop where
  sorted : (items s).Pairwise (key · < key ·)
  reads : ∀ last : Option α, read s (last.map next) =
    (afterCursor key (last.map key) (items s)).take limit

variable {next limit read} {items : σ → List α}

private theorem readOn_from (hpos : 0 < limit) {states : List σ}
    (h : ∀ s ∈ states, Lists next limit read key items s) (last : Option α) :
    (readOn next limit read states (last.map next)).1.Pairwise (key · < key ·) ∧
    (∀ a ∈ (readOn next limit read states (last.map next)).1,
      (∃ s ∈ states, a ∈ items s) ∧ ∀ c ∈ last.map key, c < key a) ∧
    ((readOn next limit read states (last.map next)).2 = true → ∀ k,
      (∀ s ∈ states, ∃ a ∈ items s, key a = k) → (∀ c ∈ last.map key, c < k) →
        ∃ a ∈ (readOn next limit read states (last.map next)).1, key a = k) := by
  induction states generalizing last with
  | nil => simp [readOn]
  | cons s later ih =>
    obtain ⟨hsorted, hreads⟩ := h s mem_cons_self
    have hrest := pairwise_afterCursor hsorted (last.map key)
    have hmem : ∀ a ∈ read s (last.map next), a ∈ items s ∧ ∀ c ∈ last.map key, c < key a := by
      intro a ha
      rw [hreads] at ha
      exact mem_afterCursor.mp (mem_of_mem_take ha)
    have hrows : (read s (last.map next)).Pairwise (key · < key ·) := by
      rw [hreads]
      exact hrest.take
    -- What the page leaves out comes after its last item, and the page is full.
    have hfound : ∀ k, (∃ a ∈ items s, key a = k) → (∀ c ∈ last.map key, c < k) →
        (∃ a ∈ read s (last.map next), key a = k) ∨ ((read s (last.map next)).length = limit ∧
          ∃ l ∈ (read s (last.map next)).getLast?, key l < k) := by
      rintro k ⟨a, ha, rfl⟩ hafter
      have hcases := mem_take_or hrest hpos (mem_afterCursor.mpr ⟨ha, hafter⟩)
      rw [← hreads] at hcases
      exact hcases.imp_left fun hpage => ⟨a, hpage, rfl⟩
    have hstop : ∀ k, ¬ (read s (last.map next)).length = limit →
        (∀ s' ∈ s :: later, ∃ a ∈ items s', key a = k) → (∀ c ∈ last.map key, c < k) →
        ∃ a ∈ read s (last.map next), key a = k := fun k hshort hall hafter =>
      (hfound k (hall s mem_cons_self) hafter).resolve_right fun hfull => hshort hfull.1
    have hlength : (read s (last.map next)).length ≤ limit := by
      rw [hreads]
      exact length_take_le _ _
    simp only [readOn]
    cases hlast : (read s (last.map next)).getLast? with
    | none =>
      have hnil := getLast?_eq_none_iff.mp hlast
      refine ⟨hrows, fun a ha => ⟨⟨s, mem_cons_self, (hmem a ha).1⟩, (hmem a ha).2⟩,
        fun _ k => hstop k ?_⟩
      rw [hnil, length_nil]
      omega
    | some l =>
      simp only
      split
      · rename_i hshort
        exact ⟨hrows, fun a ha => ⟨⟨s, mem_cons_self, (hmem a ha).1⟩, (hmem a ha).2⟩,
          fun _ k => hstop k (by omega)⟩
      · obtain ⟨hpair, hsound, hcomplete⟩ :=
          ih (fun s' hs' => h s' (mem_cons_of_mem _ hs')) (some l)
        have hl : l ∈ read s (last.map next) := mem_of_getLast? hlast
        have htop : ∀ a ∈ read s (last.map next), key a ≤ key l := by
          intro a ha
          obtain ⟨front, hfront⟩ := getLast?_eq_some_iff.mp hlast
          rw [hfront] at ha hrows
          rcases mem_append.mp ha with ha | ha
          · exact le_of_lt ((pairwise_append.mp hrows).2.2 a ha l mem_cons_self)
          · rw [mem_singleton.mp ha]
        refine ⟨pairwise_append.mpr ⟨hrows, hpair, fun a ha b hb =>
          lt_of_le_of_lt (htop a ha) ((hsound b hb).2 (key l) rfl)⟩, ?_, ?_⟩
        · intro a ha
          rcases mem_append.mp ha with ha | ha
          · exact ⟨⟨s, mem_cons_self, (hmem a ha).1⟩, (hmem a ha).2⟩
          · obtain ⟨⟨s', hs', ha'⟩, hlater⟩ := hsound a ha
            exact ⟨⟨s', mem_cons_of_mem _ hs', ha'⟩, fun c hc =>
              lt_trans ((hmem l hl).2 c hc) (hlater (key l) rfl)⟩
        · intro hdone k hall hafter
          rcases hfound k (hall s mem_cons_self) hafter with ⟨a, ha, hk⟩ | ⟨-, l', hl', hlt⟩
          · exact ⟨a, mem_append_left _ ha, hk⟩
          · rw [hlast] at hl'
            cases hl'
            obtain ⟨a, ha, hk⟩ := hcomplete hdone k
              (fun s' hs' => hall s' (mem_cons_of_mem _ hs')) fun c hc => by
                cases hc
                exact hlt
            exact ⟨a, mem_append_right _ ha, hk⟩

/-- What is read is in order, was listed when it was read, and holds, once there was a short
    page, all that was listed all along. -/
theorem readOn_spec (hpos : 0 < limit) {states : List σ}
    (h : ∀ s ∈ states, Lists next limit read key items s) :
    (readOn next limit read states none).1.Pairwise (key · < key ·) ∧
    (∀ a ∈ (readOn next limit read states none).1, ∃ s ∈ states, a ∈ items s) ∧
    ((readOn next limit read states none).2 = true → ∀ k,
      (∀ s ∈ states, ∃ a ∈ items s, key a = k) →
        ∃ a ∈ (readOn next limit read states none).1, key a = k) := by
  obtain ⟨hpair, hsound, hcomplete⟩ := readOn_from hpos h none
  exact ⟨hpair, fun a ha => (hsound a ha).1, fun hdone k hall => hcomplete hdone k hall nofun⟩

private theorem readOn_replicate_from (hpos : 0 < limit) {s : σ}
    (h : Lists next limit read key items s) (n : Nat) (last : Option α)
    (hn : (afterCursor key (last.map key) (items s)).length < n) :
    readOn next limit read (List.replicate n s) (last.map next) =
      (afterCursor key (last.map key) (items s), true) := by
  induction n generalizing last with
  | zero => omega
  | succ n ih =>
    obtain ⟨hsorted, hreads⟩ := h
    have hrest := pairwise_afterCursor hsorted (last.map key)
    simp only [replicate_succ, readOn, hreads]
    cases hlast : ((afterCursor key (last.map key) (items s)).take limit).getLast? with
    | none =>
      simp only
      rw [getLast?_eq_none_iff, take_eq_nil_iff] at hlast
      simp [hlast.resolve_left (by omega)]
    | some l =>
      simp only
      split
      · rename_i hshort
        rw [length_take] at hshort
        rw [take_of_length_le (by omega)]
      · -- The page is full, and what the listing holds after its last item is left to read.
        have hnext := afterCursor_getLast hsorted hlast
        have hlen : (afterCursor key (last.map key) (items s)).length ≠ 0 := by
          intro hzero
          simp [length_eq_zero_iff.mp hzero] at hlast
        have hread := ih (some l) (by simp only [Option.map_some, hnext, length_drop]; omega)
        simp only [Option.map_some, hnext] at hread
        simp only [hread, take_append_drop]

theorem readOn_replicate (hpos : 0 < limit) {s : σ} (h : Lists next limit read key items s)
    {n : Nat} (hn : (items s).length < n) :
    readOn next limit read (List.replicate n s) none = (items s, true) :=
  readOn_replicate_from hpos h n none hn

end

end Paging
