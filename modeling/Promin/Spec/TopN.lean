import Promin.Data.ArrayExecutor
import Promin.Data.JsonCells

/-!
# The top-N shortcut

On keys that `<` orders (`SortableKeys`) every comparator of the executor is the same one,
so `topN` with a buffer for at least one row gives the first rows of the sorted input.
-/

namespace Promin.Data

open List StableSort

section TopN

variable {κ : Type} [JsCells κ]

open JsCells

/-- The sort keys are weakly ordered by `<`. -/
structure OrderedKeys (keys : List κ) : Prop where
  asymm : ∀ a ∈ keys, ∀ b ∈ keys, less a b = true → less b a = false
  between : ∀ a ∈ keys, ∀ b ∈ keys, ∀ c ∈ keys, less a c = true →
    less a b = true ∨ less b c = true

structure SortableKeys (keys : List κ) : Prop extends OrderedKeys keys where
  subtraction : keys.head?.any isNumber = true →
    ∀ a ∈ keys, ∀ b ∈ keys, isPositive (arith .sub a b) = less b a

variable {column : String} {order : SortOrder} {rows : List (Row κ)} {n : Nat}

def standsBehind (order : SortOrder) (column : String) (a b : Row κ) : Bool :=
  beats order column b a

/-- The cells a Sort compares. -/
def sortKeysOf (column : String) (rows : List (Row κ)) : List κ :=
  rows.map fun row => cell row column

theorem mem_sortKeysOf {row : Row κ} (h : row ∈ rows) :
    cell row column ∈ sortKeysOf column rows :=
  mem_map_of_mem h

namespace OrderedKeys

section

variable (h : OrderedKeys (sortKeysOf column rows))
include h

theorem consistent :
    StableSort.Consistent (standsBehind order column) (· ∈ rows) where
  asymm := by
    intro a b ha hb hab
    cases order with
    | asc => exact h.asymm _ (mem_sortKeysOf hb) _ (mem_sortKeysOf ha) hab
    | desc => exact h.asymm _ (mem_sortKeysOf ha) _ (mem_sortKeysOf hb) hab
  between := by
    intro a b c ha hb hc hac
    cases order with
    | asc =>
      have hcut := h.between _ (mem_sortKeysOf hc) _ (mem_sortKeysOf hb) _ (mem_sortKeysOf ha) hac
      exact hcut.symm
    | desc => exact h.between _ (mem_sortKeysOf ha) _ (mem_sortKeysOf hb) _ (mem_sortKeysOf hc) hac

theorem afterByComparing_eq {a b : Row κ} (ha : a ∈ rows) (hb : b ∈ rows) :
    afterByComparing order column a b = standsBehind order column a b := by
  have hka : cell a column ∈ sortKeysOf column rows := mem_sortKeysOf ha
  have hkb : cell b column ∈ sortKeysOf column rows := mem_sortKeysOf hb
  have hab := h.asymm _ hka _ hkb
  have hba := h.asymm _ hkb _ hka
  cases order with
  | asc => cases hless : less (cell b column) (cell a column) <;>
      simp [afterByComparing, standsBehind, beats, hless, hba]
  | desc => cases hless : less (cell a column) (cell b column) <;>
      simp [afterByComparing, standsBehind, beats, hless, hab]

theorem afterForTopN_eq {a b : Row κ} (ha : a ∈ rows) (hb : b ∈ rows) :
    afterForTopN order column a b = standsBehind order column a b := by
  have hka : cell a column ∈ sortKeysOf column rows := mem_sortKeysOf ha
  have hab := h.asymm _ hka _ (mem_sortKeysOf hb)
  cases hless : less (cell a column) (cell b column) with
  | true =>
    have hnot := hab hless
    cases order <;> simp [afterForTopN, standsBehind, beats, hless, hnot]
  | false => cases order <;> simp [afterForTopN, standsBehind, beats, hless]

end

theorem consistent_afterBySpecs {specs : List SortSpec}
    (h : ∀ spec ∈ specs, OrderedKeys (sortKeysOf spec.column rows)) :
    StableSort.Consistent (afterBySpecs specs) (· ∈ rows) := by
  induction specs with
  | nil =>
    constructor
    · intro a b _ _ hab
      exact nomatch hab
    · intro a b c _ _ _ hac
      exact nomatch hac
  | cons spec specs ih =>
    obtain ⟨hspec, hrest⟩ := forall_mem_cons.mp h
    have hfirst : StableSort.Consistent (standsBehind spec.order spec.column) (· ∈ rows) :=
      hspec.consistent
    apply (hfirst.lex (ih hrest)).congr
    intro a b ha hb
    have hab := hspec.asymm _ (mem_sortKeysOf ha) _ (mem_sortKeysOf hb)
    cases hless : less (cell a spec.column) (cell b spec.column) with
    | true =>
      have hnot := hab hless
      cases horder : spec.order <;> simp [afterBySpecs, standsBehind, beats, hless, hnot, horder]
    | false =>
      cases hless' : less (cell b spec.column) (cell a spec.column) <;>
        cases horder : spec.order <;>
          simp [afterBySpecs, standsBehind, beats, hless, hless', horder]

end OrderedKeys

namespace SortableKeys

theorem afterBySubtraction_eq (h : SortableKeys (sortKeysOf column rows))
    (hnumber : (sortKeysOf column rows).head?.any isNumber = true) {a b : Row κ}
    (ha : a ∈ rows) (hb : b ∈ rows) :
    afterBySubtraction order column a b = standsBehind order column a b := by
  cases order with
  | asc => exact h.subtraction hnumber _ (mem_sortKeysOf ha) _ (mem_sortKeysOf hb)
  | desc => exact h.subtraction hnumber _ (mem_sortKeysOf hb) _ (mem_sortKeysOf ha)

theorem sortRows_eq (h : SortableKeys (sortKeysOf column rows)) :
    sortRows (.single column order) rows = sort (standsBehind order column) rows := by
  cases rows with
  | nil => rfl
  | cons first rest =>
    simp only [sortRows]
    split
    · rename_i hnumber
      apply sort_congr
      intro a ha b hb
      exact h.afterBySubtraction_eq (by simpa [sortKeysOf] using hnumber) ha hb
    · apply sort_congr
      intro a ha b hb
      exact h.toOrderedKeys.afterByComparing_eq ha hb

end SortableKeys

/-! ## The buffer -/

omit [JsCells κ] in
theorem length_insertTop_le (after : Row κ → Row κ → Bool) (top : List (Row κ)) (row : Row κ) :
    (insertTop after n top row).length ≤ n :=
  length_take_le _ _

theorem topNStep_eq {top : List (Row κ)} (hn : 0 < n) (htop : top.length ≤ n) (row : Row κ) :
    topNStep n column order top row =
      .ok (insertTop (standsBehind order column) n top row) := by
  unfold topNStep
  split
  · rename_i hlt
    have hall : (insertRow order column row top).length ≤ n := by
      simp [insertRow, insertBack]
      omega
    show _ = Except.ok ((insertRow order column row top).take n)
    rw [take_of_length_le hall]
  · obtain ⟨last, rfl⟩ : ∃ last, n = last + 1 := ⟨n - 1, by omega⟩
    have hlength : top.length = last + 1 := by omega
    -- The worst row is the last of the buffer.
    have hne : top ≠ [] := by
      intro h
      simp [h] at hlength
    obtain ⟨kept, worst, rfl⟩ : ∃ kept worst, top = kept ++ [worst] :=
      ⟨top.dropLast, top.getLast hne, (dropLast_append_getLast hne).symm⟩
    have hkept : kept.length = last := by simpa using hlength
    have hworst : (kept ++ [worst])[last]? = some worst := by
      rw [← hkept, getElem?_append_right (Nat.le_refl _)]
      simp
    have hinsert : insertBack (standsBehind order column) row (kept ++ [worst]) =
        if standsBehind order column worst row then
          insertBack (standsBehind order column) row kept ++ [worst]
        else kept ++ [worst] ++ [row] :=
      insertBack_snoc
    have hbehind : standsBehind order column worst row = beats order column row worst := rfl
    rw [insertTop, hinsert, hbehind]
    simp only [hworst]
    cases beats order column row worst with
    | true =>
      have hinserted : (insertBack (standsBehind order column) row kept).length =
          last + 1 := by
        simp [insertBack, hkept]
      have htaken : (kept ++ [worst]).take last = kept := by
        rw [← hkept, take_left]
      simp only [↓reduceIte, htaken]
      rw [take_append_of_le_length (by omega), take_of_length_le (by omega)]
      rfl
    | false =>
      simp only [Bool.false_eq_true, ↓reduceIte]
      rw [take_append_of_le_length (by simp [hkept]), take_of_length_le (by simp [hkept])]

theorem foldlM_topNStep (hn : 0 < n) (rows : List (Row κ)) {top : List (Row κ)}
    (htop : top.length ≤ n) :
    rows.foldlM (topNStep n column order) top =
      .ok (rows.foldl (insertTop (standsBehind order column) n) top) := by
  induction rows generalizing top with
  | nil => rfl
  | cons row rest ih =>
    rw [foldlM_cons, topNStep_eq hn htop, foldl_cons]
    exact ih (length_insertTop_le _ _ _)

theorem topN_eq_take (h : SortableKeys (sortKeysOf column rows)) (hn : 0 < n ∨ rows = []) :
    topN rows n column order = .ok ((sortRows (.single column order) rows).take n) := by
  rw [h.sortRows_eq, topN]
  split
  · rename_i hle
    have hsort : sort (afterForTopN order column) rows =
        sort (standsBehind order column) rows :=
      sort_congr fun a ha b hb => h.toOrderedKeys.afterForTopN_eq ha hb
    rw [hsort, take_of_length_le (by simpa using hle)]
  · rename_i hnot
    have hpos : 0 < n := by
      cases hn with
      | inl hpos => exact hpos
      | inr hnil => simp [hnil] at hnot
    rw [foldlM_topNStep hpos rows (by simp),
      foldl_insertTop h.toOrderedKeys.consistent fun _ hr => hr]

theorem topN_zero (hrows : rows ≠ []) :
    topN rows 0 column order = .error (.readOfUndefined column) := by
  cases rows with
  | nil => exact absurd rfl hrows
  | cons first rest =>
    rw [topN, if_neg (by simp), foldlM_cons]
    rfl

/-! ## Limits on sorts -/

open LogicalPlan

/-- Numbers compare as their difference does with zero. -/
def SubtractsNumbers (κ : Type) [JsCells κ] : Prop :=
  ∀ a b : κ, isNumber a = true → isNumber b = true → isPositive (arith .sub a b) = less b a

theorem OrderedKeys.sortable {keys : List κ} (h : OrderedKeys keys) (hnumbers : SubtractsNumbers κ)
    (halike : ∀ a ∈ keys, ∀ b ∈ keys, isNumber a = isNumber b) : SortableKeys keys := by
  refine { h with subtraction := ?_ }
  intro hhead a ha b hb
  -- The executor looks at the first key only: it speaks for all of them.
  obtain ⟨first, hfirst, hnumber⟩ : ∃ first, keys.head? = some first ∧ isNumber first = true := by
    simpa [Option.any_eq_true] using hhead
  have hmem : first ∈ keys := mem_of_mem_head? hfirst
  have hall : ∀ k ∈ keys, isNumber k = true := by
    intro k hk
    rw [← halike first hmem k hk]
    exact hnumber
  exact hnumbers a b (hall a ha) (hall b hb)

/-- A limit on a sort by one column gives the first rows of the sort, without throwing, unless
it wants none of the rows there are. -/
theorem limitOverSort_firstRows {mode : ExecMode} {x : LogicalPlan κ}
    (hx : executePlan mode x = .ok rows) (hnumbers : SubtractsNumbers κ)
    (hkeys : OrderedKeys (sortKeysOf column rows))
    (halike : ∀ a ∈ sortKeysOf column rows, ∀ b ∈ sortKeysOf column rows,
      isNumber a = isNumber b) :
    (∃ sorted, executePlan mode (sort (.single column order) x) = .ok sorted ∧
        executePlan mode (limit n (sort (.single column order) x)) = .ok (sorted.take n)) ↔
      0 < n ∨ rows = [] := by
  have hsort : executePlan mode (sort (.single column order) x) =
      .ok (sortRows (.single column order) rows) := by
    rw [executePlan_unary rfl, hx]
    rfl
  have hlimit : executePlan mode (limit n (sort (.single column order) x)) =
      topN rows n column order := by
    rw [executePlan_topN, hx]
    rfl
  rw [hsort, hlimit]
  constructor
  · rintro ⟨sorted, -, htop⟩
    by_cases hn : 0 < n
    · exact .inl hn
    · have hzero : n = 0 := by omega
      right
      by_contra hrows
      rw [hzero, topN_zero hrows] at htop
      exact nomatch htop
  · intro hn
    exact ⟨_, rfl, topN_eq_take (hkeys.sortable hnumbers halike) hn⟩

end TopN

open LogicalPlan

/-! ## Numbers in JSON cells -/

theorem subtractsNumbers_jsValue : SubtractsNumbers JsValue := by
  intro a b ha hb
  obtain ⟨x, rfl⟩ : ∃ x, a = .num x := by
    cases a with
    | num x => exact ⟨x, rfl⟩
    | _ => exact nomatch ha
  obtain ⟨y, rfl⟩ : ∃ y, b = .num y := by
    cases b with
    | num y => exact ⟨y, rfl⟩
    | _ => exact nomatch hb
  show decide (0 < x - y) = decide (y < x)
  rw [decide_eq_decide]
  omega

def numberedSource (numbers : List Int) : LogicalPlan JsValue :=
  .source { data := numbers.map fun n => JsMap.empty.set "a" (.num n), unloaded := by simp }

/-- The rows of two. -/
theorem limitOverSort_firstRows_two :
    (∃ sorted, executePlan .executeSync (sort (.single "a" .asc) (numberedSource [2, 1])) =
        .ok sorted ∧
      executePlan .executeSync (limit 1 (sort (.single "a" .asc) (numberedSource [2, 1]))) =
        .ok (sorted.take 1)) :=
  (limitOverSort_firstRows rfl subtractsNumbers_jsValue ⟨by decide, by decide⟩ (by decide)).mpr
    (.inl (by decide))

/-- A limit of no rows on a sort of two throws. -/
theorem limitOverSort_noRows_counterexample :
    ¬ ∀ n : Nat, ∃ sorted,
      executePlan .executeSync (sort (.single "a" .asc) (numberedSource [2, 1])) = .ok sorted ∧
        executePlan .executeSync (limit n (sort (.single "a" .asc) (numberedSource [2, 1]))) =
          .ok (sorted.take n) := by
  intro h
  obtain ⟨sorted, -, hlimit⟩ := h 0
  have hrows : executePlan .executeSync (numberedSource [2, 1]) =
      .ok [JsMap.empty.set "a" (.num 2), JsMap.empty.set "a" (.num 1)] := rfl
  rw [executePlan_topN, hrows] at hlimit
  have hthrows :
      topN [JsMap.empty.set "a" (.num 2), JsMap.empty.set "a" (JsValue.num 1)] 0 "a" .asc =
      .error (.readOfUndefined "a") := topN_zero (cons_ne_nil _ _)
  simp only [Except.bind, hthrows] at hlimit
  exact nomatch hlimit

end Promin.Data
