import Promin.Spec.LimitPushdown

/-!
# Filters moved down a plan

The rules `combineAdjacentFilters` and `pushFilterDown`. A filter commutes with
a sort whose keys are in order, and with a node that drops or adds columns it
does not read.
-/

namespace Promin.Data

section Filters

variable {κ : Type} [JsCells κ] {mode : ExecMode} {above : Option (UnaryNode κ)}
  {p p' : LogicalPlan κ}

open LogicalPlan List

/-! ## Sorting what a filter leaves -/

def SortSafe (keys : SortKeys) (rows kept : List (Row κ)) : Prop :=
  match keys with
  | .single column _ =>
    SortableKeys (sortKeysOf column rows) ∧ SortableKeys (sortKeysOf column kept)
  | .specs columns => ∀ spec ∈ columns, OrderedKeys (sortKeysOf spec.column rows)

theorem sortRows_filter {keys : SortKeys} {rows : List (Row κ)} {keep : Row κ → Bool}
    (h : SortSafe keys rows (rows.filter keep)) :
    sortRows keys (rows.filter keep) = (sortRows keys rows).filter keep := by
  cases keys with
  | single column order =>
    rw [h.1.sortRows_eq, h.2.sortRows_eq]
    exact StableSort.sort_filter h.1.toOrderedKeys.consistent (fun _ hr => hr) keep
  | specs columns =>
    exact StableSort.sort_filter (OrderedKeys.consistent_afterBySpecs h) (fun _ hr => hr) keep

/-! ## The conditions -/

def keptRows (fn : Row κ → κ) (rows : List (Row κ)) : List (Row κ) :=
  rows.filter fun row => JsCells.truthy (fn row)

/-- Where the rows stay the same. A filter reads no dropped or added column; below a sort, the
keys are in order, and a limit of no rows right above finds none. -/
def PushSafe (mode : ExecMode) (above : Option (UnaryNode κ)) : LogicalPlan κ → Prop
  | .unary (.filter fn (some expr)) (.unary (.drop _) _) => ReadsOnly expr.collectColumns fn
  | .unary (.filter fn (some expr)) (.unary (.withColumn _ _ _) _) =>
    ReadsOnly expr.collectColumns fn
  | .unary (.filter fn (some _)) (.unary (.sort keys) input) =>
    ∀ rows, executePlan mode input = .ok rows → SortSafe keys rows (keptRows fn rows) ∧
      (above = some (.limit 0) → (∃ column order, keys = .single column order) →
        keptRows fn rows = [])
  | _ => True

/-- Where the tree stays in step: on the rows of `S`, every column the tree shows has, under its
old name, the value it has in the renamed row. -/
def ShowsOldNames (S : Row κ → Prop) : LogicalPlan κ → Prop
  | .unary (.filter _ (some expr)) (.unary (.rename mapping) _) =>
    ∀ row, S row → ∀ c ∈ expr.collectColumns,
      cell (renameRow mapping row) c = cell row (((inverseMapping mapping).get c).getD c)
  | _ => True

/-- One application of the two rules that meets the conditions. -/
inductive FilterStep (mode : ExecMode) (S : Row κ → Prop) (above : Option (UnaryNode κ))
    (p p' : LogicalPlan κ) : Prop
  | combine : combineAdjacentFilters p = some p' → FilterStep mode S above p p'
  | push : pushFilterDown p = some p' → PushSafe mode above p → ShowsOldNames S p →
    FilterStep mode S above p p'

/-! ## What the rules do -/

/-- The node a filter is moved below, and what it looks like there. -/
inductive PushesBelow (fn : Row κ → κ) (expr : ExprAst κ) : LogicalPlan κ → LogicalPlan κ → Prop
  | drop (columns input) : (∀ c ∈ expr.collectColumns, c ∉ columns) →
    PushesBelow fn expr (drop columns input) (drop columns (filter fn (some expr) input))
  | rename (mapping input) : PushesBelow fn expr (rename mapping input)
      (rename mapping (filter (fun row => fn (renameRow mapping row))
        (some (expr.renameColumns (inverseMapping mapping))) input))
  | sort (keys input) :
    PushesBelow fn expr (sort keys input) (sort keys (filter fn (some expr) input))
  | withColumn (name wcFn wcExpr input) : name ∉ expr.collectColumns →
    PushesBelow fn expr (withColumn name wcFn wcExpr input)
      (withColumn name wcFn wcExpr (filter fn (some expr) input))

omit [JsCells κ] in
theorem pushFilterDown_eq_some (h : pushFilterDown p = some p') :
    ∃ fn expr child, p = filter fn (some expr) child ∧ PushesBelow fn expr child p' := by
  unfold pushFilterDown at h
  split at h
  · rename_i fn expr child
    refine ⟨fn, expr, child, rfl, ?_⟩
    split at h
    · rename_i columns input
      split at h
      · exact nomatch h
      · rename_i hany
        cases h
        exact .drop columns input (by simpa using hany)
    · cases h
      exact .rename _ _
    · cases h
      exact .sort _ _
    · rename_i name wcFn wcExpr input
      split at h
      · exact nomatch h
      · rename_i hcontains
        cases h
        exact .withColumn name wcFn wcExpr input (by simpa using hcontains)
    · exact nomatch h
  · exact nomatch h

theorem combineAdjacentFilters_eq_some (h : combineAdjacentFilters p = some p') :
    ∃ outerFn outerExpr innerFn innerExpr input,
      p = filter outerFn outerExpr (filter innerFn innerExpr input) ∧
      p' = filter (combinedFn innerFn outerFn)
        (outerExpr.bind fun outer => innerExpr.map fun inner => andExpr inner outer) input := by
  unfold combineAdjacentFilters at h
  split at h
  · rename_i outerFn outerExpr innerFn innerExpr input
    refine ⟨outerFn, outerExpr, innerFn, innerExpr, input, rfl, ?_⟩
    cases outerExpr <;> cases innerExpr <;> simpa using h.symm
  · exact nomatch h

/-! ## The rows -/

theorem executePlan_filter (fn : Row κ → κ) (expr : Option (ExprAst κ)) (input : LogicalPlan κ) :
    executePlan mode (filter fn expr input) = (executePlan mode input).map (keptRows fn) :=
  executePlan_unary rfl

theorem executePlan_filter_map {node : UnaryNode κ} {f : Row κ → Row κ} {fn fn' : Row κ → κ}
    {expr expr' : Option (ExprAst κ)} {input : LogicalPlan κ} (hnode : node.isLimit = false)
    (hmap : ∀ rows, executeNode node rows = rows.map f)
    (hfn : ∀ row, JsCells.truthy (fn (f row)) = JsCells.truthy (fn' row)) :
    executePlan mode (.unary node (filter fn' expr' input)) =
      executePlan mode (filter fn expr (.unary node input)) := by
  rw [executePlan_filter, executePlan_unary (topNInput_of_not_limit hnode _),
    executePlan_unary (topNInput_of_not_limit hnode _), executePlan_filter]
  cases executePlan mode input with
  | error e => rfl
  | ok rows => simp [Except.map, hmap, keptRows, filter_map, Function.comp_def, hfn]

theorem executePlan_combineAdjacentFilters (h : combineAdjacentFilters p = some p') :
    executePlan mode p' = executePlan mode p := by
  obtain ⟨outerFn, outerExpr, innerFn, innerExpr, input, rfl, rfl⟩ :=
    combineAdjacentFilters_eq_some h
  rw [executePlan_filter, executePlan_filter, executePlan_filter]
  have hboth : ∀ row, JsCells.truthy (combinedFn innerFn outerFn row) =
      (JsCells.truthy (outerFn row) && JsCells.truthy (innerFn row)) := by
    intro row
    cases hinner : JsCells.truthy (innerFn row) <;> simp [combinedFn, BinaryOp.apply, hinner]
  cases executePlan mode input with
  | error e => rfl
  | ok rows => simp [Except.map, keptRows, filter_filter, hboth]

theorem sameUnder_filter_sort {fn : Row κ → κ} {expr : ExprAst κ} {keys : SortKeys}
    {input : LogicalPlan κ}
    (hsafe : PushSafe mode above (filter fn (some expr) (sort keys input))) :
    SameUnder mode above (filter fn (some expr) (sort keys input))
      (sort keys (filter fn (some expr) input)) := by
  have hsort : ∀ q : LogicalPlan κ, executePlan mode (sort keys q) =
      (executePlan mode q).map (sortRows keys) := fun q => executePlan_unary rfl
  have hrows : executePlan mode (sort keys (filter fn (some expr) input)) =
      executePlan mode (filter fn (some expr) (sort keys input)) := by
    rw [hsort, executePlan_filter, executePlan_filter, hsort]
    cases hinput : executePlan mode input with
    | error e => rfl
    | ok rows =>
      show Except.ok (sortRows keys (keptRows fn rows)) =
        Except.ok (keptRows fn (sortRows keys rows))
      rw [keptRows, sortRows_filter (hsafe rows hinput).1, keptRows]
  refine ⟨hrows, fun node hnode => ?_⟩
  have hbefore : topNInput node (filter fn (some expr) (sort keys input)) = none :=
    notSorted_unary rfl _ node
  cases htop : topNInput node (sort keys (filter fn (some expr) input)) with
  | none => exact executePlan_unary_congr hbefore htop hrows
  | some t =>
    -- The limit above takes its shortcut once the sort is below it.
    obtain ⟨n, column, order, x⟩ := t
    obtain ⟨rfl, heq⟩ := topNInput_eq_some htop
    cases heq
    rw [executePlan_topN, executePlan_unary hbefore, ← hrows, hsort, executePlan_filter]
    cases hinput : executePlan mode input with
    | error e => rfl
    | ok rows =>
      obtain ⟨⟨-, hkeys⟩, hzero⟩ := hsafe rows hinput
      have hn : 0 < n ∨ keptRows fn rows = [] := by
        cases n with
        | zero => exact .inr (hzero hnode ⟨column, order, rfl⟩)
        | succ n => exact .inl (Nat.succ_pos n)
      show topN (keptRows fn rows) n column order = _
      rw [topN_eq_take hkeys hn]
      rfl

theorem FilterStep.sameUnder {S : Row κ → Prop} (h : FilterStep mode S above p p') :
    SameUnder mode above p p' := by
  cases h with
  | combine hrule =>
    have hrows : executePlan mode _ = executePlan mode _ := executePlan_combineAdjacentFilters hrule
    obtain ⟨_, _, _, _, _, rfl, rfl⟩ := combineAdjacentFilters_eq_some hrule
    exact .of_notSorted hrows (notSorted_unary rfl _) (notSorted_unary rfl _)
  | push hrule hsafe =>
    obtain ⟨fn, expr, child, rfl, hbelow⟩ := pushFilterDown_eq_some hrule
    cases hbelow with
    | drop columns input hcols =>
      have hreads : ReadsOnly expr.collectColumns fn := hsafe
      apply SameUnder.of_notSorted _ (notSorted_unary rfl _) (notSorted_unary rfl _)
      apply executePlan_filter_map rfl (fun _ => rfl)
      exact fun row => hreads _ _ fun c hc => cell_dropRow row (hcols c hc)
    | rename mapping input =>
      apply SameUnder.of_notSorted _ (notSorted_unary rfl _) (notSorted_unary rfl _)
      exact executePlan_filter_map rfl (fun _ => rfl) fun row => rfl
    | sort keys input => exact sameUnder_filter_sort hsafe
    | withColumn name wcFn wcExpr input hname =>
      have hreads : ReadsOnly expr.collectColumns fn := hsafe
      apply SameUnder.of_notSorted _ (notSorted_unary rfl _) (notSorted_unary rfl _)
      apply executePlan_filter_map rfl (f := fun row => withColumnRow name (wcFn row) row)
        fun _ => rfl
      intro row
      apply hreads
      intro c hc
      exact cell_withColumnRow_ne _ row fun heq => hname (heq ▸ hc)

/-! ## The trees -/

def nodeFilters : UnaryNode κ → List ((Row κ → κ) × ExprAst κ)
  | .filter fn (some expr) => [(fn, expr)]
  | _ => []

mutual

def filtersOf : LogicalPlan κ → List ((Row κ → κ) × ExprAst κ)
  | .source _ => []
  | .unary node input => nodeFilters node ++ filtersOf input
  | .join left right _ _ => filtersOf left ++ filtersOf right
  | .union left right => filtersOf left ++ filtersOf right
  | .concat inputs => filtersOfAll inputs

def filtersOfAll : List (LogicalPlan κ) → List ((Row κ → κ) × ExprAst κ)
  | [] => []
  | input :: inputs => filtersOf input ++ filtersOfAll inputs

end

/-- On the rows of `S`, the function of every filter computes its tree. -/
def FiltersDenote (S : Row κ → Prop) (p : LogicalPlan κ) : Prop :=
  ∀ f ∈ filtersOf p, ∀ row, S row → Evaluates row f.2 (f.1 row)

omit [JsCells κ] in
theorem filtersOfAll_append (before after : List (LogicalPlan κ)) :
    filtersOfAll (before ++ after) = filtersOfAll before ++ filtersOfAll after := by
  induction before with
  | nil => rfl
  | cons p before ih => simp only [cons_append, filtersOfAll, ih, append_assoc]

variable {S : Row κ → Prop}

theorem FilterStep.denotes (h : FilterStep mode S above p p')
    (hp : FiltersDenote (fun _ => True) p) : FiltersDenote S p' := by
  cases h with
  | combine hrule =>
    obtain ⟨outerFn, outerExpr, innerFn, innerExpr, input, rfl, rfl⟩ :=
      combineAdjacentFilters_eq_some hrule
    intro f hf row hrow
    cases outerExpr with
    | none => exact hp f (by simpa [filtersOf, nodeFilters] using .inr hf) row trivial
    | some outer =>
      cases innerExpr with
      | none => exact hp f (by simpa [filtersOf, nodeFilters] using .inr hf) row trivial
      | some inner =>
        simp only [filtersOf, nodeFilters, Option.bind_some, Option.map_some, mem_append,
          List.mem_singleton] at hf
        rcases hf with rfl | hf
        · have hinner := hp (innerFn, inner) (by simp [filtersOf, nodeFilters]) row trivial
          have houter := hp (outerFn, outer) (by simp [filtersOf, nodeFilters]) row trivial
          simp only [andExpr, Evaluates]
          exact ⟨_, _, hinner, houter, rfl⟩
        · exact hp f (by simp [filtersOf, hf]) row trivial
  | push hrule hsafe hnames =>
    obtain ⟨fn, expr, child, rfl, hbelow⟩ := pushFilterDown_eq_some hrule
    have hfilter : ∀ row, Evaluates row expr (fn row) := fun row =>
      hp (fn, expr) (by simp [filtersOf, nodeFilters]) row trivial
    intro f hf row hrow
    cases hbelow with
    | drop columns input _ | sort keys input | withColumn name wcFn wcExpr input _ =>
      simp only [filtersOf, nodeFilters, nil_append, mem_append, List.mem_singleton] at hf
      rcases hf with rfl | hf
      · exact hfilter row
      · exact hp f (by simp [filtersOf, hf]) row trivial
    | rename mapping input =>
      simp only [filtersOf, nodeFilters, nil_append, mem_append, List.mem_singleton] at hf
      rcases hf with rfl | hf
      · exact evaluates_renameColumns (hnames row hrow) (hfilter (renameRow mapping row))
      · exact hp f (by simp [filtersOf, hf]) row trivial

theorem filtersDenote_inside (h : Inside (FilterStep mode S) above p p')
    (hp : FiltersDenote (fun _ => True) p) : FiltersDenote S p' := by
  induction h with
  | here hstep => exact hstep.denotes hp
  | unary node _ ih =>
    intro f hf row hrow
    simp only [filtersOf, mem_append] at hf
    cases hf with
    | inl hnode => exact hp f (by simp [filtersOf, hnode]) row trivial
    | inr hbelow => exact ih (fun g hg => hp g (by simp [filtersOf, hg])) f hbelow row hrow
  | joinLeft right on type _ ih | unionLeft right _ ih =>
    intro f hf row hrow
    simp only [filtersOf, mem_append] at hf
    cases hf with
    | inl hleft => exact ih (fun g hg => hp g (by simp [filtersOf, hg])) f hleft row hrow
    | inr hright => exact hp f (by simp [filtersOf, hright]) row trivial
  | joinRight left on type _ ih | unionRight left _ ih =>
    intro f hf row hrow
    simp only [filtersOf, mem_append] at hf
    cases hf with
    | inl hleft => exact hp f (by simp [filtersOf, hleft]) row trivial
    | inr hright => exact ih (fun g hg => hp g (by simp [filtersOf, hg])) f hright row hrow
  | concat before after _ ih =>
    intro f hf row hrow
    simp only [filtersOf, filtersOfAll_append, filtersOfAll, mem_append] at hf
    rcases hf with hbefore | hthis | hafter
    · exact hp f (by simp [filtersOf, filtersOfAll_append, hbefore]) row trivial
    · refine ih (fun g hg => hp g ?_) f hthis row hrow
      simp [filtersOf, filtersOfAll_append, filtersOfAll, hg]
    · exact hp f (by simp [filtersOf, filtersOfAll_append, filtersOfAll, hafter]) row trivial

/-- Moving a filter down, or merging two, computes the same rows, and the functions of the
filters compute their trees on the rows of `S`. -/
theorem filter_moves_preserve (hp : FiltersDenote (fun _ => True) p)
    (h : Inside (FilterStep mode S) none p p') :
    executePlan mode p' = executePlan mode p ∧ FiltersDenote S p' :=
  ⟨(sameUnder_inside FilterStep.sameUnder h).rows, filtersDenote_inside h hp⟩

end Filters

def rowOfAB (a b : Int) : Row JsValue := (rowOfA a).set "b" (.num b)

def filterAboveDrop (e : Expr JsValue) : LogicalPlan JsValue :=
  .filter e.fn (some e.ast) (.drop ["b"] (sourceOf [rowOfAB 1 2]))

def filterBelowDrop (e : Expr JsValue) : LogicalPlan JsValue :=
  .drop ["b"] (.filter e.fn (some e.ast) (sourceOf [rowOfAB 1 2]))

theorem filtersDenote_filterAboveDrop {e : Expr JsValue} (he : e.Built) (S : Row JsValue → Prop) :
    FiltersDenote S (filterAboveDrop e) := by
  intro f hf row _
  simp only [filterAboveDrop, sourceOf, filtersOf, nodeFilters, List.append_nil,
    List.mem_singleton] at hf
  rw [hf]
  exact he.evaluates row

theorem filter_moves_preserve_filterAboveDrop :
    let e : Expr JsValue := .unary .isNotNull (.col "a")
    executePlan .executeSync (filterBelowDrop e) = executePlan .executeSync (filterAboveDrop e) ∧
      FiltersDenote (fun _ => True) (filterBelowDrop e) := by
  intro e
  have he : e.Built := .unary _ (.col _)
  apply filter_moves_preserve (filtersDenote_filterAboveDrop he _)
  apply Inside.here
  have hreads : ReadsOnly e.ast.collectColumns e.fn := readsOnly_of_evaluates rfl he.evaluates
  exact .push rfl hreads trivial

def filterRules {κ : Type} [JsCells κ] : List (Rule κ) :=
  [fun p => .ok (combineAdjacentFilters p), fun p => .ok (pushFilterDown p)]

/-- An opaque filter that reads a dropped column is moved below the drop. -/
theorem dropped_column_counterexample : ¬ ∀ p p' : LogicalPlan JsValue,
    FiltersDenote (fun _ => True) p → Inside (Fires filterRules) none p p' →
      executePlan .executeSync p' = executePlan .executeSync p ∧
        FiltersDenote (fun _ => True) p' := by
  intro h
  let e : Expr JsValue := .ofFn fun row => JsCells.ofBool (JsCells.nullish (cell row "b"))
  have hstep : Inside (Fires filterRules) none (filterAboveDrop e) (filterBelowDrop e) :=
    .here ⟨_, List.mem_cons_of_mem _ List.mem_cons_self, rfl⟩
  have hrows := (h _ _ (filtersDenote_filterAboveDrop (.ofFn _) _) hstep).1
  change Except.ok [] = Except.ok [rowOfA 1] at hrows
  exact nomatch hrows

end Promin.Data

/-!
## Columns computed once

The rule `collapseDuplicateWithColumn` reads a column computed further down in
place of computing an expression again.
-/

namespace Promin.Data

section Collapse

variable {κ : Type} [JsCells κ] {mode : ExecMode} {above : Option (UnaryNode κ)}
  {p p' : LogicalPlan κ} {name key found : String} {expr : ExprAst κ}

open LogicalPlan

/-- Along the chain down to the column found: that column is computed from the same tree and is
not one the tree reads, and no column set after it is, nor is the column itself set again. -/
def AliasSafe (name : String) (expr : ExprAst κ) (found : String) : LogicalPlan κ → Prop
  | .unary (.withColumn innerName innerFn innerExpr) input =>
    innerName ∉ expr.collectColumns ∧
      if innerName ≠ name ∧ innerExpr.map ExprAst.astKey = some expr.astKey then
        innerExpr = some expr ∧ ∀ row, Evaluates row expr (innerFn row)
      else innerName ≠ found ∧ AliasSafe name expr found input
  | _ => True

def CollapseSafe : LogicalPlan κ → Prop
  | .unary (.withColumn name fn (some expr)) input =>
    expr.isCompilable = true ∧ (∀ row, Evaluates row expr (fn row)) ∧
      ∀ found, aliasIn name expr.astKey input = some found → AliasSafe name expr found input
  | _ => True

/-- One application of the rule that meets the condition. -/
def CollapseStep (_above : Option (UnaryNode κ)) (p p' : LogicalPlan κ) : Prop :=
  collapseDuplicateWithColumn p = some p' ∧ CollapseSafe p

/-! ## What the column holds -/

def ColumnHolds (mode : ExecMode) (expr : ExprAst κ) (column : String) (p : LogicalPlan κ) : Prop :=
  ∀ rows, executePlan mode p = .ok rows → ∀ row ∈ rows, Evaluates row expr (cell row column)

theorem executePlan_withColumn (fn : Row κ → κ) (wcExpr : Option (ExprAst κ))
    (input : LogicalPlan κ) :
    executePlan mode (withColumn name fn wcExpr input) =
      (executePlan mode input).map fun rows => rows.map
        fun row => withColumnRow name (fn row) row :=
  executePlan_unary rfl

theorem mem_rows_withColumn {fn : Row κ → κ} {wcExpr : Option (ExprAst κ)} {input : LogicalPlan κ}
    {rows : List (Row κ)} (h : executePlan mode (withColumn name fn wcExpr input) = .ok rows)
    {row : Row κ} (hrow : row ∈ rows) :
    ∃ before below, executePlan mode input = .ok before ∧ below ∈ before ∧
      row = withColumnRow name (fn below) below := by
  rw [executePlan_withColumn] at h
  cases hinput : executePlan mode input with
  | error e =>
    rw [hinput] at h
    exact nomatch h
  | ok before =>
    rw [hinput] at h
    cases h
    obtain ⟨below, hbelow, rfl⟩ := List.mem_map.mp hrow
    exact ⟨before, below, rfl, hbelow, rfl⟩

theorem evaluates_withColumnRow {value v : κ} {row : Row κ} (hname : name ∉ expr.collectColumns)
    (h : Evaluates row expr v) : Evaluates (withColumnRow name value row) expr v := by
  apply evaluates_of_agree _ h
  intro c hc
  have hne : c ≠ name := fun heq => hname (heq ▸ hc)
  exact (cell_withColumnRow_ne value row hne).symm

theorem holds_of_aliasSafe : ∀ {input : LogicalPlan κ},
    aliasIn name expr.astKey input = some found → AliasSafe name expr found input →
      ColumnHolds mode expr found input := by
  intro input
  induction input using LogicalPlan.inductionOn with
  | source | join | union | concat => exact fun h => by cases h
  | unary node input ih =>
    cases node with
    | withColumn innerName innerFn innerExpr =>
      intro hfound hsafe rows hrows row hrow
      obtain ⟨before, below, hbefore, hbelow, rfl⟩ := mem_rows_withColumn hrows hrow
      obtain ⟨hreads, hchain⟩ := hsafe
      simp only [aliasIn] at hfound
      by_cases hkey : innerName ≠ name ∧ innerExpr.map ExprAst.astKey = some expr.astKey
      · rw [if_pos hkey] at hfound hchain
        cases hfound
        rw [withColumnRow, cell_set_self]
        exact evaluates_withColumnRow hreads (hchain.2 below)
      · rw [if_neg hkey] at hfound hchain
        have hbelow := ih hfound hchain.2 before hbefore below hbelow
        rw [cell_withColumnRow_ne _ below (Ne.symm hchain.1)]
        exact evaluates_withColumnRow hreads hbelow
    | _ => exact fun h => by cases h

/-! ## The rule -/

theorem executePlan_alias_iff {fn : Row κ → κ} {expr' : Option (ExprAst κ)}
    {input : LogicalPlan κ} {rows : List (Row κ)} (hinput : executePlan mode input = .ok rows) :
    executePlan mode (withColumn name (fun row => cell row found) (some (.col found)) input) =
        executePlan mode (withColumn name fn expr' input) ↔
      ∀ row ∈ rows, cell row found = fn row := by
  rw [executePlan_withColumn, executePlan_withColumn, hinput]
  have hmap : rows.map (fun row => withColumnRow name (cell row found) row) =
      rows.map (fun row => withColumnRow name (fn row) row) ↔
        ∀ row ∈ rows, cell row found = fn row := by
    rw [List.map_inj_left]
    constructor
    · intro h row hrow
      have hcell := congrArg (fun r => cell r name) (h row hrow)
      simpa [withColumnRow] using hcell
    · intro h row hrow
      rw [h row hrow]
  rw [← hmap]
  show Except.ok _ = Except.ok _ ↔ _
  rw [Except.ok.injEq]

theorem collapseDuplicateWithColumn_eq_some (h : collapseDuplicateWithColumn p = some p') :
    ∃ name fn expr input found, p = withColumn name fn (some expr) input ∧
      aliasIn name expr.astKey input = some found ∧
      p' = withColumn name (fun row => cell row found) (some (.col found)) input := by
  unfold collapseDuplicateWithColumn at h
  split at h
  · rename_i name fn expr input
    obtain ⟨found, hfound, rfl⟩ := Option.map_eq_some_iff.mp h
    exact ⟨name, fn, expr, input, found, rfl, hfound, rfl⟩
  · exact nomatch h

theorem CollapseStep.sameUnder (h : CollapseStep above p p') : SameUnder mode above p p' := by
  obtain ⟨hrule, hsafe⟩ := h
  obtain ⟨name, fn, expr, input, found, rfl, hfound, rfl⟩ :=
    collapseDuplicateWithColumn_eq_some hrule
  apply SameUnder.of_notSorted _ (notSorted_unary rfl _) (notSorted_unary rfl _)
  obtain ⟨hexpr, hfn, hchain⟩ := hsafe
  cases hinput : executePlan mode input with
  | error e => rw [executePlan_withColumn, executePlan_withColumn, hinput]; rfl
  | ok rows =>
    rw [executePlan_alias_iff hinput]
    intro row hrow
    have hholds := holds_of_aliasSafe hfound (hchain found hfound) rows hinput row hrow
    exact evaluates_unique hexpr hholds (hfn row)

/-- Reading columns in place of computing them again computes the same rows. -/
theorem collapsed_columns_preserve (h : Relation.ReflTransGen (Inside CollapseStep none) p p') :
    executePlan mode p' = executePlan mode p :=
  sameUnder_steps CollapseStep.sameUnder h

end Collapse

/-- `a + 1`. -/
def nextOfA : Expr JsValue := .binary (.arith .add) (.col "a") (.lit (.num 1))

theorem nextOfA_built : nextOfA.Built := .binary _ (.col _) (.lit _)

/-- `a + 1` computed into `x`, a column set to 5, and `a + 1` computed into `y`. -/
def computedTwice (between : String) : LogicalPlan JsValue :=
  .withColumn "y" nextOfA.fn (some nextOfA.ast)
    (.withColumn between (fun _ => .num 5) (some (.lit (.num 5)))
      (.withColumn "x" nextOfA.fn (some nextOfA.ast) (sourceOf [rowOfA 1])))

/-- The same with `x` read into `y`. -/
def computedOnce (between : String) : LogicalPlan JsValue :=
  .withColumn "y" (fun row => cell row "x") (some (.col "x"))
    (.withColumn between (fun _ => .num 5) (some (.lit (.num 5)))
      (.withColumn "x" nextOfA.fn (some nextOfA.ast) (sourceOf [rowOfA 1])))

theorem collapsed_columns_preserve_computedTwice :
    executePlan .executeSync (computedOnce "b") = executePlan .executeSync (computedTwice "b") := by
  have hsafe : AliasSafe "y" nextOfA.ast "x"
      (.withColumn "b" (fun _ => .num 5) (some (.lit (.num 5)))
        (.withColumn "x" nextOfA.fn (some nextOfA.ast) (sourceOf [rowOfA 1]))) := by
    refine ⟨by decide, ?_⟩
    rw [if_neg (by decide)]
    refine ⟨by decide, by decide, ?_⟩
    rw [if_pos (by decide)]
    exact ⟨rfl, nextOfA_built.evaluates⟩
  have hfound : ∀ found, aliasIn "y" nextOfA.ast.astKey
      (.withColumn "b" (fun _ => .num 5) (some (.lit (.num 5)))
        (.withColumn "x" nextOfA.fn (some nextOfA.ast) (sourceOf [rowOfA 1]))) = some found →
      found = "x" := by
    intro found h
    simp only [aliasIn] at h
    rw [if_neg (by decide), if_pos (by decide)] at h
    exact (Option.some.inj h).symm
  apply collapsed_columns_preserve
  refine .single (.here ⟨rfl, rfl, nextOfA_built.evaluates, ?_⟩)
  intro found h
  rw [hfound found h]
  exact hsafe

/-- A column the expression reads is set again between the two. -/
theorem redefined_column_counterexample : ¬ ∀ p p' : LogicalPlan JsValue,
    collapseDuplicateWithColumn p = some p' →
      executePlan .executeSync p' = executePlan .executeSync p := by
  intro h
  have heq := h (computedTwice "a") (computedOnce "a") rfl
  have hcells := congrArg (fun r : Except ExecError (List (Row JsValue)) =>
    r.toOption.map fun rows => rows.map fun row => cell row "y") heq
  exact absurd hcells (by decide)

end Promin.Data
