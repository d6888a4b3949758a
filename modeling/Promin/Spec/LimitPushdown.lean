import Promin.Spec.PlanSteps
import Promin.Spec.TopN

/-!
# Limits and selections moved down a plan

The rules `pushLimitDown`, `limitIntoSource` and `columnPruning`.
-/

namespace Promin.Data

section Limits

variable {κ : Type} [JsCells κ] {mode : ExecMode} {above : Option (UnaryNode κ)}
  {p p' : LogicalPlan κ}

open LogicalPlan List SourcePlan

/-! ## The conditions -/

/-- Does the truth of a function depend on the given columns only? -/
def ReadsOnly (columns : List String) (fn : Row κ → κ) : Prop :=
  ∀ row row' : Row κ, (∀ c ∈ columns, cell row c = cell row' c) →
    JsCells.truthy (fn row) = JsCells.truthy (fn row')

/-- Where the limit comes to stand on a sort by one column: the sort has keys in order, and
the limit keeps a row unless there are none. -/
def LimitSafe (mode : ExecMode) : LogicalPlan κ → Prop
  | .unary (.limit n) (.unary _ (.unary (.sort (.single column _)) input)) =>
    ∀ rows, executePlan mode input = .ok rows →
      SortableKeys (sortKeysOf column rows) ∧ (0 < n ∨ rows = [])
  | _ => True

def PruneSafe : LogicalPlan κ → Prop
  | .unary (.select _) (.unary (.filter fn (some expr)) _) => ReadsOnly expr.collectColumns fn
  | _ => True

/-- One application of the three rules that meets its condition. -/
inductive LimitStep (mode : ExecMode) (_above : Option (UnaryNode κ)) (p p' : LogicalPlan κ) : Prop
  | pushLimitDown : pushLimitDown p = some p' → LimitSafe mode p → LimitStep mode _above p p'
  | limitIntoSource : limitIntoSource p = some p' → LimitStep mode _above p p'
  | columnPruning : columnPruning p = some p' → PruneSafe p → LimitStep mode _above p p'

theorem readsOnly_of_evaluates {fn : Row κ → κ} {expr : ExprAst κ}
    (hexpr : expr.isCompilable = true) (hfn : ∀ row, Evaluates row expr (fn row)) :
    ReadsOnly expr.collectColumns fn := by
  intro row row' hagree
  rw [evaluates_unique hexpr (evaluates_of_agree hagree (hfn row)) (hfn row')]

/-! ## Moving a limit -/

theorem pushLimitDown_eq_some (h : pushLimitDown p = some p') :
    ∃ n node input f, p = limit n (.unary node input) ∧ p' = .unary node (limit n input) ∧
      (∀ rows, executeNode node rows = rows.map f) ∧
      node.isSort = false ∧ node.isLimit = false := by
  unfold pushLimitDown at h
  split at h
  · rename_i n node input
    cases node with
    | select columns =>
      cases h
      exact ⟨n, _, input, selectRow columns, rfl, rfl, fun _ => rfl, rfl, rfl⟩
    | drop columns =>
      cases h
      exact ⟨n, _, input, dropRow columns, rfl, rfl, fun _ => rfl, rfl, rfl⟩
    | rename mapping =>
      cases h
      exact ⟨n, _, input, renameRow mapping, rfl, rfl, fun _ => rfl, rfl, rfl⟩
    | withColumn name fn expr =>
      cases h
      exact ⟨n, _, input, fun row => withColumnRow name (fn row) row, rfl, rfl, fun _ => rfl,
        rfl, rfl⟩
    | map fn =>
      cases h
      exact ⟨n, _, input, fn, rfl, rfl, fun _ => rfl, rfl, rfl⟩
    | _ => exact nomatch h
  · exact nomatch h

theorem executePlan_pushLimitDown (h : pushLimitDown p = some p') (hsafe : LimitSafe mode p) :
    executePlan mode p' = executePlan mode p := by
  obtain ⟨n, node, input, f, rfl, rfl, hmap, hsort, hlimit⟩ := pushLimitDown_eq_some h
  have hnode := topNInput_of_not_limit hlimit
  have houter : topNInput (.limit n) (.unary node input) = none :=
    notSorted_unary hsort input _
  rw [executePlan_unary houter, executePlan_unary (hnode _), executePlan_unary (hnode _)]
  cases htop : topNInput (.limit n) input with
  | none =>
    rw [executePlan_unary htop]
    cases executePlan mode input with
    | error e => rfl
    | ok rows => simp [Except.map, hmap, map_take]
  | some t =>
    obtain ⟨m, column, order, x⟩ := t
    obtain ⟨hm, rfl⟩ := topNInput_eq_some htop
    cases hm
    have hinner : topNInput (.sort (.single column order)) x = none := rfl
    rw [executePlan_topN, executePlan_unary hinner]
    cases hx : executePlan mode x with
    | error e => rfl
    | ok rows =>
      obtain ⟨hkeys, hn⟩ := hsafe rows hx
      simp [Except.map, Except.bind, topN_eq_take hkeys hn, hmap, map_take]

theorem limit_zero_on_sort {node : UnaryNode κ} {column : String} {order : SortOrder}
    {input : LogicalPlan κ} {row : Row κ} {rows : List (Row κ)}
    (hnode : node.isLimit = false) (hsort : node.isSort = false)
    (hrows : executePlan mode input = .ok (row :: rows)) :
    executePlan mode (limit 0 (.unary node (sort (.single column order) input))) = .ok [] ∧
      executePlan mode (.unary node (limit 0 (sort (.single column order) input))) =
        .error (.readOfUndefined column) := by
  have houter : topNInput (.limit 0) (.unary node (sort (.single column order) input)) = none :=
    notSorted_unary hsort _ _
  have hinner : topNInput (.sort (.single column order)) input = none := rfl
  constructor
  · rw [executePlan_unary houter, executePlan_unary (topNInput_of_not_limit hnode _),
      executePlan_unary hinner, hrows]
    simp [Except.map]
  · rw [executePlan_unary (topNInput_of_not_limit hnode _), executePlan_topN, hrows]
    show Except.map _ (topN (row :: rows) 0 column order) = _
    rw [topN_zero (cons_ne_nil _ _)]
    rfl

theorem executePlan_limitIntoSource (h : limitIntoSource p = some p') :
    executePlan mode p' = executePlan mode p := by
  unfold limitIntoSource at h
  split at h
  · rename_i n src
    have hrows : executePlan mode (limit n (.source src)) = .ok ((src.rows mode).take n) := by
      rw [executePlan_unary rfl, executePlan_source]
      rfl
    split at h
    · exact nomatch h
    · rename_i hloaded
      -- What is at hand is all there is: a source with a loader has been left alone.
      have hload : src.load = none := by
        cases hload : src.load with
        | none => rfl
        | some rows =>
          have hdata := src.unloaded (by simp [hload])
          simp [hload, hdata] at hloaded
      have hdata : src.rows mode = src.data := by
        cases mode with
        | executeSync => rfl
        | execute => by_cases hnil : src.data = [] <;> simp [rows, hload, hnil]
      rw [hrows, hdata]
      split at h
      · rename_i hle
        cases h
        rw [executePlan_source, hdata, take_of_length_le hle]
      · cases h
        rw [executePlan_source]
        congr 1
        cases mode with
        | executeSync => rfl
        | execute =>
          by_cases hnil : src.data.take n = []
          · simp [rows, sliced, hnil, hload]
          · simp [rows, sliced, hnil]
  · exact nomatch h

/-! ## Moving a selection -/

theorem truthy_selectRow {columns wider : List String} {fn : Row κ → κ} (h : ReadsOnly columns fn)
    (hsub : ∀ c ∈ columns, c ∈ wider) (row : Row κ) :
    JsCells.truthy (fn (selectRow wider row)) = JsCells.truthy (fn row) :=
  h _ _ fun c hc => cell_selectRow_of_mem row (hsub c hc)

omit [JsCells κ] in
theorem columnPruning_eq_some (h : columnPruning p = some p') :
    ∃ columns fn expr input, p = select columns (filter fn (some expr) input) ∧
      ((∀ c ∈ expr.collectColumns, c ∈ columns) ∧
          p' = filter fn (some expr) (select columns input) ∨
        p' = select columns (filter fn (some expr)
          (select (columns ++ expr.collectColumns).eraseDups input))) := by
  unfold columnPruning at h
  split at h
  · rename_i columns fn expr input
    refine ⟨columns, fn, expr, input, rfl, ?_⟩
    simp only at h
    cases hall : expr.collectColumns.all columns.contains with
    | true =>
      simp only [hall, ↓reduceIte, Option.some.injEq] at h
      exact .inl ⟨by simpa using hall, h.symm⟩
    | false =>
      simp only [hall, Bool.false_eq_true, ↓reduceIte, Option.ite_none_right_eq_some,
        Option.some.injEq] at h
      exact .inr h.2.symm
  · cases h

theorem executePlan_columnPruning (h : columnPruning p = some p') (hsafe : PruneSafe p) :
    executePlan mode p' = executePlan mode p := by
  obtain ⟨columns, fn, expr, input, rfl, hcases⟩ := columnPruning_eq_some h
  have hreads : ReadsOnly expr.collectColumns fn := hsafe
  have hselect : ∀ (cs : List String) (q : LogicalPlan κ),
      executePlan mode (select cs q) = (executePlan mode q).map fun rows =>
        rows.map (selectRow cs) := fun cs q => executePlan_unary rfl
  have hfilter : ∀ q : LogicalPlan κ, executePlan mode (filter fn (some expr) q) =
      (executePlan mode q).map fun rows => rows.filter fun row => JsCells.truthy (fn row) :=
    fun q => executePlan_unary rfl
  rcases hcases with ⟨hkeep, rfl⟩ | rfl
  · rw [hfilter, hselect, hselect, hfilter]
    cases executePlan mode input with
    | error e => rfl
    | ok rows =>
      simp [Except.map, filter_map, Function.comp_def, truthy_selectRow hreads hkeep]
  · rw [hselect, hfilter, hselect, hselect, hfilter]
    have hkeep : ∀ c ∈ expr.collectColumns, c ∈ (columns ++ expr.collectColumns).eraseDups := by
      intro c hc
      simp [hc]
    have hwider : ∀ c ∈ columns, c ∈ (columns ++ expr.collectColumns).eraseDups := by
      intro c hc
      simp [hc]
    cases executePlan mode input with
    | error e => rfl
    | ok rows => simp [Except.map, filter_map, Function.comp_def,
        truthy_selectRow hreads hkeep, selectRow_selectRow hwider]

omit [JsCells κ] in
theorem notSorted_limitIntoSource (h : limitIntoSource p = some p') :
    NotSorted p ∧ NotSorted p' := by
  unfold limitIntoSource at h
  split at h
  · split at h
    · exact nomatch h
    · split at h
      · cases h
        exact ⟨notSorted_unary rfl _, notSorted_source _⟩
      · cases h
        exact ⟨notSorted_unary rfl _, notSorted_source _⟩
  · exact nomatch h

omit [JsCells κ] in
theorem notSorted_columnPruning (h : columnPruning p = some p') : NotSorted p ∧ NotSorted p' := by
  obtain ⟨columns, fn, expr, input, rfl, hcases⟩ := columnPruning_eq_some h
  rcases hcases with ⟨-, rfl⟩ | rfl
  · exact ⟨notSorted_unary rfl _, notSorted_unary rfl _⟩
  · exact ⟨notSorted_unary rfl _, notSorted_unary rfl _⟩

theorem LimitStep.sameUnder (h : LimitStep mode above p p') : SameUnder mode above p p' := by
  cases h with
  | pushLimitDown hrule hsafe =>
    have hrows := executePlan_pushLimitDown hrule hsafe
    obtain ⟨n, node, input, f, rfl, rfl, -, hsort, -⟩ := pushLimitDown_eq_some hrule
    exact .of_notSorted hrows (notSorted_unary rfl _) (notSorted_unary hsort _)
  | limitIntoSource hrule =>
    obtain ⟨hp, hp'⟩ := notSorted_limitIntoSource hrule
    exact .of_notSorted (executePlan_limitIntoSource hrule) hp hp'
  | columnPruning hrule hsafe =>
    obtain ⟨hp, hp'⟩ := notSorted_columnPruning hrule
    exact .of_notSorted (executePlan_columnPruning hrule hsafe) hp hp'

/-- Rewriting with the three rules, each application meeting its condition, anywhere in the
plan and in any order, computes the same rows. -/
theorem limits_and_selections_preserve
    (h : Relation.ReflTransGen (Inside (LimitStep mode) none) p p') :
    executePlan mode p' = executePlan mode p :=
  sameUnder_steps LimitStep.sameUnder h

end Limits

def rowOfA (a : Int) : Row JsValue := JsMap.empty.set "a" (.num a)

def sourceOf (rows : List (Row JsValue)) : LogicalPlan JsValue :=
  .source { data := rows, unloaded := by simp }

def limitedSelection (n : Nat) : LogicalPlan JsValue :=
  .limit n (.select ["a"] (.sort (.single "a" .asc) (sourceOf [rowOfA 2, rowOfA 1])))

def limitedSort (n : Nat) : LogicalPlan JsValue :=
  .select ["a"] (.limit n (.sort (.single "a" .asc) (sourceOf [rowOfA 2, rowOfA 1])))

theorem limits_and_selections_preserve_limitedSelection :
    executePlan .executeSync (limitedSort 1) = executePlan .executeSync (limitedSelection 1) := by
  apply limits_and_selections_preserve
  apply Relation.ReflTransGen.single
  apply Inside.here
  apply LimitStep.pushLimitDown rfl
  intro rows hrows
  cases hrows
  exact ⟨⟨⟨by decide, by decide⟩, by decide⟩, .inl (by decide)⟩

def limitRules {κ : Type} : List (Rule κ) :=
  [fun p => .ok (pushLimitDown p), fun p => .ok (limitIntoSource p), fun p => .ok (columnPruning p)]

/-- Moving a limit of no rows onto a sort makes the plan throw. -/
theorem limit_zero_counterexample : ¬ ∀ p p' : LogicalPlan JsValue, RuleSteps limitRules none p p' →
    executePlan .executeSync p' = executePlan .executeSync p := by
  intro h
  have hstep : RuleSteps limitRules none (limitedSelection 0) (limitedSort 0) :=
    .single (.here ⟨_, List.mem_cons_self, rfl⟩)
  have hrows : executePlan .executeSync (sourceOf [rowOfA 2, rowOfA 1]) =
      .ok [rowOfA 2, rowOfA 1] := rfl
  have hselect : (UnaryNode.select ["a"] : UnaryNode JsValue).isLimit = false := rfl
  have hzero : executePlan .executeSync (limitedSelection 0) = .ok [] ∧
      executePlan .executeSync (limitedSort 0) = .error (.readOfUndefined "a") :=
    limit_zero_on_sort hselect rfl hrows
  have heq := h _ _ hstep
  rw [hzero.1, hzero.2] at heq
  exact nomatch heq

end Promin.Data
