import Promin.Data.Expr

/-!
# The array executor

`executePlan` runs a plan on arrays, children first.
-/

/-!
## Logical plans

A `DataFrame` records its operations as a plan. The nodes with one input are
`unary`: a `UnaryNode` says what the node does, the plan below it comes as an
argument.
-/

namespace Promin.Data

inductive SortOrder where
  | asc | desc
  deriving DecidableEq

structure SortSpec where
  column : String
  order : SortOrder

inductive SortKeys where
  | single (column : String) (order : SortOrder)
  | specs (columns : List SortSpec)

/-- Which of several equal rows a distinct keeps. -/
inductive Keep where
  | first | last

inductive JoinType where
  | inner | left | right | full | semi | anti
  deriving DecidableEq

inductive JoinOn where
  | column (name : String)
  | columns (names : List String)

/-- A source: rows at hand, or a loader or a stream that will give them. -/
structure SourcePlan (κ : Type) where
  data : List (Row κ)
  load : Option (List (Row κ)) := none
  stream : Option (List (Row κ)) := none
  /-- A source with a loader is created without rows. -/
  unloaded : load.isSome = true → data = []

/-- The nodes with one input. -/
inductive UnaryNode (κ : Type) where
  | filter (fn : Row κ → κ) (expr : Option (ExprAst κ))
  | map (fn : Row κ → Row κ)
  | select (columns : List String)
  | drop (columns : List String)
  | rename (mapping : JsMap String String)
  | withColumn (name : String) (fn : Row κ → κ) (expr : Option (ExprAst κ))
  | sort (keys : SortKeys)
  | limit (n : Nat)
  | offset (n : Int)
  | slice (start : Int) (stop : Option Int)
  | distinct (column : Option String) (keep : Keep)
  | reverse
  | rows (run : List (Row κ) → List (Row κ))

/-- A query, from its sources up. -/
inductive LogicalPlan (κ : Type) where
  | source (source : SourcePlan κ)
  | unary (node : UnaryNode κ) (input : LogicalPlan κ)
  | join (left right : LogicalPlan κ) (on : JoinOn) (type : JoinType)
  | union (left right : LogicalPlan κ)
  | concat (inputs : List (LogicalPlan κ))

namespace LogicalPlan

variable {κ : Type}

abbrev filter (fn : Row κ → κ) (expr : Option (ExprAst κ)) : LogicalPlan κ → LogicalPlan κ :=
  unary (.filter fn expr)

abbrev select (columns : List String) : LogicalPlan κ → LogicalPlan κ := unary (.select columns)

abbrev drop (columns : List String) : LogicalPlan κ → LogicalPlan κ := unary (.drop columns)

abbrev rename (mapping : JsMap String String) : LogicalPlan κ → LogicalPlan κ :=
  unary (.rename mapping)

abbrev withColumn (name : String) (fn : Row κ → κ) (expr : Option (ExprAst κ)) :
    LogicalPlan κ → LogicalPlan κ :=
  unary (.withColumn name fn expr)

abbrev sort (keys : SortKeys) : LogicalPlan κ → LogicalPlan κ := unary (.sort keys)

abbrev limit (n : Nat) : LogicalPlan κ → LogicalPlan κ := unary (.limit n)

end LogicalPlan

end Promin.Data

namespace Promin.Data

inductive ExecError where
  | readOfUndefined (property : String)

section Values

variable {κ : Type} [JsCells κ]

open JsCells StableSort

/-! ## Comparators

A comparator is given by when it puts its first argument behind the second. -/

variable (order : SortOrder)

def afterBySubtraction (column : String) (a b : Row κ) : Bool :=
  match order with
  | .asc => isPositive (arith .sub (cell a column) (cell b column))
  | .desc => isPositive (arith .sub (cell b column) (cell a column))

def afterByComparing (column : String) (a b : Row κ) : Bool :=
  match order with
  | .asc => !less (cell a column) (cell b column) && less (cell b column) (cell a column)
  | .desc => !less (cell b column) (cell a column) && less (cell a column) (cell b column)

def afterBySpecs : List SortSpec → Row κ → Row κ → Bool
  | [], _, _ => false
  | spec :: specs, a, b =>
    if less (cell a spec.column) (cell b spec.column) then decide (spec.order = .desc)
    else if less (cell b spec.column) (cell a spec.column) then decide (spec.order = .asc)
    else afterBySpecs specs a b

def afterForTopN (column : String) (a b : Row κ) : Bool :=
  if less (cell a column) (cell b column) then decide (order = .desc)
  else less (cell b column) (cell a column) && decide (order = .asc)

def beats (column : String) (row held : Row κ) : Bool :=
  match order with
  | .asc => less (cell row column) (cell held column)
  | .desc => less (cell held column) (cell row column)

/-- The `Sort` node. By one column, it subtracts keys when the first one is a number. -/
def sortRows (keys : SortKeys) (rows : List (Row κ)) : List (Row κ) :=
  match keys with
  | .specs columns => sort (afterBySpecs columns) rows
  | .single column order =>
    match rows with
    | [] => rows
    | first :: _ =>
      if isNumber (cell first column) then sort (afterBySubtraction order column) rows
      else sort (afterByComparing order column) rows

def insertRow (column : String) (row : Row κ) (top : List (Row κ)) : List (Row κ) :=
  insertBack (fun held row => beats order column row held) row top

/-- One row of the scan: into a buffer that is not full, or in place of the worst. -/
def topNStep (n : Nat) (column : String) (order : SortOrder) (top : List (Row κ)) (row : Row κ) :
    Except ExecError (List (Row κ)) :=
  if top.length < n then .ok (insertRow order column row top)
  else
    -- With `n = 0` the worst row is looked for at index `-1`.
    match n with
    | 0 => .error (.readOfUndefined column)
    | last + 1 =>
      match top[last]? with
      | none => .error (.readOfUndefined column)
      | some worst =>
        if beats order column row worst then .ok (insertRow order column row (top.take last))
        else .ok top

def topN (rows : List (Row κ)) (n : Nat) (column : String) (order : SortOrder) :
    Except ExecError (List (Row κ)) :=
  if rows.length ≤ n then .ok (sort (afterForTopN order column) rows)
  else rows.foldlM (topNStep n column order) []

/-! ## Distinct and joins -/

def distinctBy {α β : Type} (same : β → β → Bool) (key : α → β) (items : List α) : List α :=
  (items.foldl (fun (acc : List β × List α) item =>
    if acc.1.any fun k => same k (key item) then acc
    else (acc.1 ++ [key item], acc.2 ++ [item])) ([], [])).2

/-- `JSON.stringify(row)`. -/
def rowText (row : Row κ) : String := JsCells.stringify (enumerate row)

/-- The `Distinct` node. -/
def distinctRows (column : Option String) (keep : Keep) (rows : List (Row κ)) : List (Row κ) :=
  match column.filter (· ≠ "") with
  | none => distinctBy (· == ·) rowText rows
  | some column =>
    match keep with
    | .first => distinctBy sameValueZero (fun row => cell row column) rows
    | .last => (distinctBy sameValueZero (fun row => cell row column) rows.reverse).reverse

def getJoinKey (row : Row κ) : JoinOn → String
  | .column name => text (cell row name)
  | .columns names => String.intercalate "\x00" (names.map fun name => text (cell row name))

def indexRows (on : JoinOn) (rows : List (Row κ)) : JsMap String (List (Row κ × Nat)) :=
  rows.zipIdx.foldl (fun index r => index.push (getJoinKey r.1 on) r) JsMap.empty

def joinMatches (on : JoinOn) (index : JsMap String (List (Row κ × Nat))) (row : Row κ) :
    List (Row κ × Nat) :=
  (index.get (getJoinKey row on)).getD []

/-- The rows of a join.  A full join marks the matched right rows by their positions, where the
code takes `right.indexOf`: `executeJoinObjects` does so, on objects. -/
def executeJoin (left right : List (Row κ)) (on : JoinOn) (type : JoinType) : List (Row κ) :=
  let rightIndex := indexRows on right
  match type with
  | .inner => left.flatMap fun l => (joinMatches on rightIndex l).map fun r => mergeRow l r.1
  | .left => left.flatMap fun l =>
    match rightIndex.get (getJoinKey l on) with
    | some found => found.map fun r => mergeRow l r.1
    | none => [l]
  | .right =>
    let leftIndex := indexRows on left
    right.flatMap fun r =>
      match leftIndex.get (getJoinKey r on) with
      | some found => found.map fun l => mergeRow l.1 r
      | none => [r]
  | .full =>
    let matchedRight := left.flatMap fun l => (joinMatches on rightIndex l).map Prod.snd
    (left.flatMap fun l =>
      match rightIndex.get (getJoinKey l on) with
      | some found => found.map fun r => mergeRow l r.1
      | none => [l]) ++
      (right.zipIdx.filter fun r => !matchedRight.contains r.2).map Prod.fst
  | .semi => left.filter fun l => rightIndex.has (getJoinKey l on)
  | .anti => left.filter fun l => !rightIndex.has (getJoinKey l on)

/-! ## Plans -/

/-- `rows.slice(start, stop)`: a negative bound counts from the end. -/
def sliceRows {α : Type} (start : Int) (stop : Option Int) (rows : List α) : List α :=
  let position : Int → Nat := fun i => (if i < 0 then i + rows.length else i).toNat
  let last := match stop with
    | some i => position i
    | none => rows.length
  (rows.take last).drop (position start)

def executeNode (node : UnaryNode κ) (rows : List (Row κ)) : List (Row κ) :=
  match node with
  | .filter fn _ => rows.filter fun row => JsCells.truthy (fn row)
  | .map fn => rows.map fn
  | .select columns => rows.map (selectRow columns)
  | .drop columns => rows.map (dropRow columns)
  | .rename mapping => rows.map (renameRow mapping)
  | .withColumn name fn _ => rows.map fun row => withColumnRow name (fn row) row
  | .sort keys => sortRows keys rows
  | .limit n => rows.take n
  | .offset n => sliceRows n none rows
  | .slice start stop => sliceRows start stop rows
  | .distinct column keep => distinctRows column keep rows
  | .reverse => rows.reverse
  | .rows run => run rows

@[simp] theorem executeNode_limit (n : Nat) (rows : List (Row κ)) :
    executeNode (.limit n) rows = rows.take n := rfl

@[simp] theorem executeNode_sort (keys : SortKeys) (rows : List (Row κ)) :
    executeNode (.sort keys) rows = sortRows keys rows := rfl

@[simp] theorem executeNode_filter (fn : Row κ → κ) (expr : Option (ExprAst κ))
    (rows : List (Row κ)) :
    executeNode (.filter fn expr) rows = rows.filter fun row => JsCells.truthy (fn row) := rfl

/-- `execute` first loads the sources that have a loader and no rows, `executeSync` does not. -/
inductive ExecMode where
  | execute | executeSync

/-- The rows a source has in either mode. -/
def SourcePlan.rows (source : SourcePlan κ) : ExecMode → List (Row κ)
  | .executeSync => source.data
  | .execute => if source.data = [] then source.load.getD [] else source.data

mutual

/-- The rows of a plan, bottom up. -/
def executePlan (mode : ExecMode) : LogicalPlan κ → Except ExecError (List (Row κ))
  | .source source => .ok (source.rows mode)
  | .unary (.limit n) (.unary (.sort (.single column order)) input) => do
    let rows ← executePlan mode input
    topN rows n column order
  | .unary node input => do
    let rows ← executePlan mode input
    return executeNode node rows
  | .join left right on type => do
    let left ← executePlan mode left
    let right ← executePlan mode right
    return executeJoin left right on type
  | .union left right => do
    let left ← executePlan mode left
    let right ← executePlan mode right
    return distinctBy (· == ·) rowText (left ++ right)
  | .concat inputs => executeAll mode inputs

def executeAll (mode : ExecMode) : List (LogicalPlan κ) → Except ExecError (List (Row κ))
  | [] => .ok []
  | input :: inputs => do
    let rows ← executePlan mode input
    let rest ← executeAll mode inputs
    return rows ++ rest

end

/-! ## Resolving sources -/

def SourcePlan.resolved (source : SourcePlan κ) : SourcePlan κ :=
  if source.data = [] then
    match source.load with
    | some rows => { source with data := rows, load := none, unloaded := nofun }
    | none => source
  else source

mutual

def resolveAsyncSources : LogicalPlan κ → LogicalPlan κ
  | .source source => .source source.resolved
  | .unary node input => .unary node (resolveAsyncSources input)
  | .join left right on type => .join (resolveAsyncSources left) (resolveAsyncSources right) on type
  | .union left right => .union (resolveAsyncSources left) (resolveAsyncSources right)
  | .concat inputs => .concat (resolveAll inputs)

def resolveAll : List (LogicalPlan κ) → List (LogicalPlan κ)
  | [] => []
  | input :: inputs => resolveAsyncSources input :: resolveAll inputs

end

/-! ## Equations of the executor -/

variable {mode : ExecMode}

/-- A Limit right above a single-column Sort, whatever kind of plan they stand in. -/
def topNOf {P : Type} : UnaryNode κ → Option (UnaryNode κ × P) →
    Option (Nat × String × SortOrder × P)
  | .limit n, some (.sort (.single column order), input) => some (n, column, order, input)
  | _, _ => none

omit [JsCells κ] in
theorem topNOf_eq_some {P : Type} {node : UnaryNode κ} {below : Option (UnaryNode κ × P)} {n : Nat}
    {column : String} {order : SortOrder} {x : P}
    (h : topNOf node below = some (n, column, order, x)) :
    node = .limit n ∧ below = some (.sort (.single column order), x) := by
  unfold topNOf at h
  split at h
  · cases h
    exact ⟨rfl, rfl⟩
  · cases h

def LogicalPlan.asUnary : LogicalPlan κ → Option (UnaryNode κ × LogicalPlan κ)
  | .unary node input => some (node, input)
  | _ => none

def topNInput (node : UnaryNode κ) (input : LogicalPlan κ) :
    Option (Nat × String × SortOrder × LogicalPlan κ) :=
  topNOf node input.asUnary

theorem executePlan_topN (n : Nat) (column : String) (order : SortOrder) (input : LogicalPlan κ) :
    executePlan mode (.limit n (.sort (.single column order) input)) =
      (executePlan mode input).bind fun rows => topN rows n column order := by
  rw [executePlan]
  rfl

variable {node : UnaryNode κ} {input : LogicalPlan κ}

theorem executePlan_unary (h : topNInput node input = none) :
    executePlan mode (.unary node input) = (executePlan mode input).map (executeNode node) := by
  rw [executePlan]
  · cases executePlan mode input <;> rfl
  · rintro n column order x rfl rfl
    cases h

theorem executePlan_join (left right : LogicalPlan κ) (on : JoinOn) (type : JoinType) :
    executePlan mode (.join left right on type) =
      (executePlan mode left).bind fun l => (executePlan mode right).map fun r =>
        executeJoin l r on type := by
  rw [executePlan]
  cases executePlan mode left <;> cases executePlan mode right <;> rfl

theorem executePlan_union (left right : LogicalPlan κ) :
    executePlan mode (.union left right) =
      (executePlan mode left).bind fun l => (executePlan mode right).map fun r =>
        distinctBy (· == ·) rowText (l ++ r) := by
  rw [executePlan]
  cases executePlan mode left <;> cases executePlan mode right <;> rfl

theorem executeAll_cons (input : LogicalPlan κ) (inputs : List (LogicalPlan κ)) :
    executeAll mode (input :: inputs) =
      (executePlan mode input).bind fun rows => (executeAll mode inputs).map (rows ++ ·) := by
  rw [executeAll]
  cases executePlan mode input <;> cases executeAll mode inputs <;> rfl

@[simp] theorem executePlan_source (source : SourcePlan κ) :
    executePlan mode (.source source) = .ok (source.rows mode) := by
  rw [executePlan]

@[simp] theorem executePlan_concat (inputs : List (LogicalPlan κ)) :
    executePlan mode (.concat inputs) = executeAll mode inputs := by
  rw [executePlan]

theorem executePlan_unary_congr {input' : LogicalPlan κ}
    (h : topNInput node input = none) (h' : topNInput node input' = none)
    (hrows : executePlan mode input' = executePlan mode input) :
    executePlan mode (.unary node input') = executePlan mode (.unary node input) := by
  rw [executePlan_unary h, executePlan_unary h', hrows]

@[elab_as_elim]
theorem LogicalPlan.inductionOn {κ : Type} {motive : LogicalPlan κ → Prop} (plan : LogicalPlan κ)
    (source : ∀ source, motive (.source source))
    (unary : ∀ node input, motive input → motive (.unary node input))
    (join : ∀ left right on type, motive left → motive right → motive (.join left right on type))
    (union : ∀ left right, motive left → motive right → motive (.union left right))
    (concat : ∀ inputs, (∀ p ∈ inputs, motive p) → motive (.concat inputs)) : motive plan :=
  @LogicalPlan.rec κ motive (fun inputs => ∀ p ∈ inputs, motive p) source unary join union concat
    (fun _ h => nomatch h)
    (fun _ _ hhead htail => List.forall_mem_cons.mpr ⟨hhead, htail⟩)
    plan

omit [JsCells κ] in
theorem topNInput_eq_some {n : Nat} {column : String}
    {order : SortOrder} {x : LogicalPlan κ}
    (h : topNInput node input = some (n, column, order, x)) :
    node = .limit n ∧ input = .sort (.single column order) x := by
  obtain ⟨hnode, hbelow⟩ := topNOf_eq_some h
  refine ⟨hnode, ?_⟩
  cases input with
  | unary node' input => rw [LogicalPlan.asUnary] at hbelow; cases hbelow; rfl
  | source | join | union | concat => cases hbelow

/-- `execute` is `executeSync` on the plan with its sources loaded. -/
theorem executePlan_resolveAsyncSources (plan : LogicalPlan κ) :
    executePlan .executeSync (resolveAsyncSources plan) = executePlan .execute plan := by
  refine executePlan.induct
    (fun plan => executePlan .executeSync (resolveAsyncSources plan) = executePlan .execute plan)
    (fun inputs => executeAll .executeSync (resolveAll inputs) = executeAll .execute inputs)
    (fun source => ?_) (fun n column order input ih => ?_) (fun node input hother ih => ?_)
    (fun left right on type ihl ihr => ?_) (fun left right ihl ihr => ?_) (fun inputs ih => ?_)
    ?_ (fun input inputs ih ihrest => ?_) plan
  · rw [resolveAsyncSources, executePlan_source, executePlan_source]
    unfold SourcePlan.resolved SourcePlan.rows
    cases hload : source.load <;> by_cases hdata : source.data = [] <;> simp [hdata]
  · rw [resolveAsyncSources, resolveAsyncSources, executePlan_topN, executePlan_topN, ih]
  · rw [resolveAsyncSources, executePlan, executePlan, ih]
    · exact hother
    · intro n column order x hnode hinput
      cases input with
      | unary node' x' =>
        rw [resolveAsyncSources] at hinput
        cases hinput
        exact hother n column order x' hnode rfl
      | _ =>
        rw [resolveAsyncSources] at hinput
        cases hinput
  · rw [resolveAsyncSources, executePlan_join, executePlan_join, ihl, ihr]
  · rw [resolveAsyncSources, executePlan_union, executePlan_union, ihl, ihr]
  · rw [resolveAsyncSources, executePlan_concat, executePlan_concat, ih]
  · rw [resolveAll, executeAll, executeAll]
  · rw [resolveAll, executeAll_cons, executeAll_cons, ih, ihrest]
end Values

end Promin.Data
