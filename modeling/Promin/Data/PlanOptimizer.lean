import Promin.Data.ArrayExecutor

/-!
# The plan rewriter

A rule looks at the top of a plan and answers with another plan or not at all.
`splitFilterAtJoin` compiles predicates, which can throw, so a rule's answer is
an `Except`.
-/

namespace Promin.Data

section Rules

variable {κ : Type} [JsCells κ]

open LogicalPlan JsCells

/-- A rewrite rule: the plan it answers with, if any, or what it throws. -/
abbrev Rule (κ : Type) := LogicalPlan κ → Except String (Option (LogicalPlan κ))

/-! ## Rules for filters -/

def combinedFn (inner outer : Row κ → κ) (row : Row κ) : κ :=
  BinaryOp.and.apply (inner row) (outer row)

/-- The conjunction of two trees. -/
def andExpr (a b : ExprAst κ) : ExprAst κ := .binary .and a b

def combineAdjacentFilters : LogicalPlan κ → Option (LogicalPlan κ)
  | .unary (.filter outerFn outerExpr) (.unary (.filter innerFn innerExpr) input) =>
    match outerExpr, innerExpr with
    | some outer, some inner =>
      some (filter (combinedFn innerFn outerFn) (some (andExpr inner outer)) input)
    | _, _ => some (filter (combinedFn innerFn outerFn) none input)
  | _ => none

/-- From the new name of a column to its old one; the last entry of a name counts. -/
def inverseMapping (mapping : JsMap String String) : JsMap String String :=
  JsMap.collect (fun e => some (e.2, e.1)) (enumerate mapping)

def pushFilterDown : LogicalPlan κ → Option (LogicalPlan κ)
  | .unary (.filter fn (some expr)) child =>
    match child with
    | .unary (.drop columns) input =>
      if expr.collectColumns.any columns.contains then none
      else some (drop columns (filter fn (some expr) input))
    | .unary (.rename mapping) input =>
      some (rename mapping (filter (fun row => fn (renameRow mapping row))
        (some (expr.renameColumns (inverseMapping mapping))) input))
    | .unary (.sort keys) input => some (sort keys (filter fn (some expr) input))
    | .unary (.withColumn name wcFn wcExpr) input =>
      if expr.collectColumns.contains name then none
      else some (withColumn name wcFn wcExpr (filter fn (some expr) input))
    | _ => none
  | _ => none

/-! ## Rules for limits -/

def pushLimitDown : LogicalPlan κ → Option (LogicalPlan κ)
  | .unary (.limit n) (.unary node input) =>
    match node with
    | .select _ | .drop _ | .rename _ | .withColumn _ _ _ | .map _ =>
      some (.unary node (limit n input))
    | _ => none
  | _ => none

/-- A source with its rows cut off after the first `n`. -/
def SourcePlan.sliced (source : SourcePlan κ) (n : Nat) : SourcePlan κ :=
  { source with
    data := source.data.take n
    unloaded := by
      intro h
      rw [source.unloaded h, List.take_nil] }

def limitIntoSource : LogicalPlan κ → Option (LogicalPlan κ)
  | .unary (.limit n) (.source src) =>
    if src.load.isSome && src.data.isEmpty then none
    else if src.data.length ≤ n then some (.source src)
    else some (.source (src.sliced n))
  | _ => none

/-! ## Column pruning -/

def countSourceColumns : LogicalPlan κ → Option Nat
  | .source src => src.data.head?.map JsMap.size
  | _ => none

/-- Move a selection below a filter, if need be widened by the columns of the filter and
with the narrow one kept above. -/
def columnPruning : LogicalPlan κ → Option (LogicalPlan κ)
  | .unary (.select columns) (.unary (.filter fn (some expr)) input) =>
    let filterCols := expr.collectColumns
    if filterCols.all columns.contains then some (filter fn (some expr) (select columns input))
    else
      let union := (columns ++ filterCols).eraseDups
      let narrower : Bool := match countSourceColumns input with
        | none => true
        | some count => decide (union.length < count)
      if narrower then some (select columns (filter fn (some expr) (select union input)))
      else none
  | _ => none

/-! ## Splitting a filter at a join -/

def inferColumns : LogicalPlan κ → Option (List String)
  | .source src => src.data.head?.map fun row => (enumerate row).map Prod.fst
  | .unary node input =>
    match node with
    | .select columns => some columns
    | .drop columns => (inferColumns input).map fun cols => cols.filter fun c => !columns.contains c
    | .rename mapping =>
      (inferColumns input).map fun cols => cols.map fun c => (mapping.get c).getD c
    | .withColumn name _ _ => (inferColumns input).map fun cols => cols ++ [name]
    | .filter _ _ | .sort _ | .limit _ | .offset _ | .distinct _ _ | .slice _ _ | .reverse =>
      inferColumns input
    | .map _ | .rows _ => none
  | _ => none

/-- The conjuncts of a tree. -/
def splitAnd : ExprAst κ → List (ExprAst κ)
  | .binary .and left right => splitAnd left ++ splitAnd right
  | ast => [ast]

/-- The conjunction of trees, the first at the bottom left. -/
def andAll : ExprAst κ → List (ExprAst κ) → ExprAst κ
  | first, rest => rest.foldl andExpr first

def wrapFilter (input : LogicalPlan κ) : List (ExprAst κ) → Except String (LogicalPlan κ)
  | [] => .ok input
  | first :: rest => do
    let expr := andAll first rest
    let fn ← expr.astToFn
    return filter fn (some expr) input

/-- Move each conjunct whose columns are all on one side of a join, and not all on the
other, to that side. -/
def splitFilterAtJoin : LogicalPlan κ → Except String (Option (LogicalPlan κ))
  | .unary (.filter _ (some expr)) (.join left right on type) =>
    match inferColumns left, inferColumns right with
    | some leftCols, some rightCols =>
      let inLeft := fun c : ExprAst κ => c.collectColumns.all leftCols.contains
      let inRight := fun c : ExprAst κ => c.collectColumns.all rightCols.contains
      let forLeft := (splitAnd expr).filter fun c => inLeft c && !inRight c
      let forRight := (splitAnd expr).filter fun c => inRight c && !inLeft c
      let stay := (splitAnd expr).filter fun c => inLeft c == inRight c
      if forLeft.isEmpty && forRight.isEmpty then .ok none
      else do
        let leftInput ← wrapFilter left forLeft
        let rightInput ← wrapFilter right forRight
        let plan ← wrapFilter (.join leftInput rightInput on type) stay
        return some plan
    | _, _ => .ok none
  | _ => .ok none

/-! ## Repeated columns -/

/-- The nearest column below, other than `name`, whose expression has the key, in a chain of
computed columns. -/
def aliasIn (name key : String) : LogicalPlan κ → Option String
  | .unary (.withColumn innerName _ innerExpr) input =>
    if innerName ≠ name ∧ innerExpr.map ExprAst.astKey = some key then some innerName
    else aliasIn name key input
  | _ => none

/-- Read a column computed before in place of computing it again. -/
def collapseDuplicateWithColumn : LogicalPlan κ → Option (LogicalPlan κ)
  | .unary (.withColumn name _ (some expr)) input =>
    (aliasIn name expr.astKey input).map fun inner =>
      withColumn name (fun row => cell row inner) (some (.col inner)) input
  | _ => none

/-! ## The engine -/

/-- The rules in the order they are tried. -/
def planRules : List (Rule κ) :=
  [fun p => .ok (combineAdjacentFilters p), fun p => .ok (pushFilterDown p), splitFilterAtJoin,
    fun p => .ok (pushLimitDown p), fun p => .ok (limitIntoSource p),
    fun p => .ok (columnPruning p), fun p => .ok (collapseDuplicateWithColumn p)]

def applyRules : List (Rule κ) → LogicalPlan κ → Except String (LogicalPlan κ)
  | [], plan => .ok plan
  | rule :: rules, plan => do
    match ← rule plan with
    | some rewritten => return rewritten
    | none => applyRules rules plan

mutual

/-- One round, bottom up. -/
def rewrite (rules : List (Rule κ)) : LogicalPlan κ → Except String (LogicalPlan κ)
  | .source src => applyRules rules (.source src)
  | .unary node input => do applyRules rules (.unary node (← rewrite rules input))
  | .join left right on type => do
    applyRules rules (.join (← rewrite rules left) (← rewrite rules right) on type)
  | .union left right => do
    applyRules rules (.union (← rewrite rules left) (← rewrite rules right))
  | .concat inputs => do applyRules rules (.concat (← rewriteAll rules inputs))

def rewriteAll (rules : List (Rule κ)) : List (LogicalPlan κ) → Except String (List (LogicalPlan κ))
  | [] => .ok []
  | input :: inputs => do return (← rewrite rules input) :: (← rewriteAll rules inputs)

end

def rewriteRounds (rules : List (Rule κ)) : Nat → LogicalPlan κ → Except String (LogicalPlan κ)
  | 0, plan => .ok plan
  | n + 1, plan => do rewriteRounds rules n (← rewrite rules plan)

def maxIterations : Nat := 16

/-- Rounds of the rules until none changes the plan. -/
def optimizePlan (rules : List (Rule κ)) (plan : LogicalPlan κ) : Except String (LogicalPlan κ) :=
  rewriteRounds rules maxIterations plan

end Rules

end Promin.Data
