import Promin.Data.Row

/-!
# Column expressions

An `Expr` carries two things: a function of the row, which the array executor
calls, and a tree (`ExprAst`), which the optimizer and the SQL compiler read.
-/

namespace Promin.Data

open List

/-- The operators of two operands. -/
inductive BinaryOp where
  | arith (op : ArithOp)
  | gt | gte | lt | lte | eq | neq | and | or

/-- The operators of one operand. -/
inductive UnaryOp where
  | not | isNull | isNotNull | neg

/-- The tree of an expression. -/
inductive ExprAst (κ : Type) where
  | col (name : String)
  | lit (value : κ)
  | binary (op : BinaryOp) (left right : ExprAst κ)
  | unary (op : UnaryOp) (operand : ExprAst κ)
  | call (name : CallName) (args : List (ExprAst κ))
  | between (operand : ExprAst κ) (low high : κ)
  | isIn (operand : ExprAst κ) (values : List κ)
  | case (branches : List (ExprAst κ × ExprAst κ)) (otherwise : ExprAst κ)
  | cast (operand : ExprAst κ) (target : CastType)
  | field (operand : ExprAst κ) (name : String)
  | listOp (operand : ExprAst κ) (op : ListOp) (args : List κ)
  | fn (description : String)

namespace ExprAst

variable {κ : Type}

/-- The `type` tag of a node. -/
def type : ExprAst κ → String
  | col _ => "col"
  | lit _ => "lit"
  | binary _ _ _ => "binary"
  | unary _ _ => "unary"
  | call _ _ => "call"
  | between _ _ _ => "between"
  | isIn _ _ => "in"
  | case _ _ => "case"
  | cast _ _ => "cast"
  | field _ _ => "field"
  | listOp _ _ _ => "listOp"
  | fn _ => "fn"

@[elab_as_elim]
theorem inductionOn {motive : ExprAst κ → Prop} (ast : ExprAst κ)
    (col : ∀ name, motive (col name)) (lit : ∀ value, motive (lit value))
    (binary : ∀ op left right, motive left → motive right → motive (binary op left right))
    (unary : ∀ op operand, motive operand → motive (unary op operand))
    (call : ∀ name args, (∀ a ∈ args, motive a) → motive (call name args))
    (between : ∀ operand low high, motive operand → motive (between operand low high))
    (isIn : ∀ operand values, motive operand → motive (isIn operand values))
    (case : ∀ branches otherwise, (∀ b ∈ branches, motive b.1 ∧ motive b.2) →
      motive otherwise → motive (case branches otherwise))
    (cast : ∀ operand target, motive operand → motive (cast operand target))
    (field : ∀ operand name, motive operand → motive (field operand name))
    (listOp : ∀ operand op args, motive operand → motive (listOp operand op args))
    (fn : ∀ description, motive (fn description)) : motive ast :=
  @ExprAst.rec κ motive (fun args => ∀ a ∈ args, motive a)
    (fun branches => ∀ b ∈ branches, motive b.1 ∧ motive b.2)
    (fun b => motive b.1 ∧ motive b.2)
    col lit binary unary call between isIn case cast field listOp fn
    (fun _ h => nomatch h)
    (fun _ _ hhead htail => forall_mem_cons.mpr ⟨hhead, htail⟩)
    (fun _ h => nomatch h)
    (fun _ _ hhead htail => forall_mem_cons.mpr ⟨hhead, htail⟩)
    (fun _ _ hcondition hvalue => ⟨hcondition, hvalue⟩)
    ast

/-! ## What the optimizer reads off a tree -/

mutual

/-- Is the tree free of opaque nodes? -/
def isCompilable : ExprAst κ → Bool
  | fn _ => false
  | col _ | lit _ => true
  | binary _ left right => left.isCompilable && right.isCompilable
  | unary _ operand | between operand _ _ | isIn operand _ | cast operand _ | field operand _
  | listOp operand _ _ => operand.isCompilable
  | call _ args => allCompilable args
  | case branches otherwise => branchesCompilable branches && otherwise.isCompilable

def allCompilable : List (ExprAst κ) → Bool
  | [] => true
  | arg :: args => arg.isCompilable && allCompilable args

def branchesCompilable : List (ExprAst κ × ExprAst κ) → Bool
  | [] => true
  | (condition, value) :: rest =>
    condition.isCompilable && value.isCompilable && branchesCompilable rest

end

mutual

/-- The columns the tree shows, opaque nodes showing none. -/
def collectColumns : ExprAst κ → List String
  | col name => [name]
  | lit _ | fn _ => []
  | binary _ left right => left.collectColumns ++ right.collectColumns
  | unary _ operand | between operand _ _ | isIn operand _ | cast operand _ | field operand _
  | listOp operand _ _ => operand.collectColumns
  | call _ args => collectAll args
  | case branches otherwise => collectBranches branches ++ otherwise.collectColumns

def collectAll : List (ExprAst κ) → List String
  | [] => []
  | arg :: args => arg.collectColumns ++ collectAll args

def collectBranches : List (ExprAst κ × ExprAst κ) → List String
  | [] => []
  | (condition, value) :: rest =>
    condition.collectColumns ++ value.collectColumns ++ collectBranches rest

end

mutual

def renameColumns (inverse : JsMap String String) : ExprAst κ → ExprAst κ
  | col name => col ((inverse.get name).getD name)
  | lit value => lit value
  | fn description => fn description
  | binary op left right => binary op (renameColumns inverse left) (renameColumns inverse right)
  | unary op operand => unary op (renameColumns inverse operand)
  | between operand low high => between (renameColumns inverse operand) low high
  | isIn operand values => isIn (renameColumns inverse operand) values
  | cast operand target => cast (renameColumns inverse operand) target
  | field operand name => field (renameColumns inverse operand) name
  | listOp operand op args => listOp (renameColumns inverse operand) op args
  | call name args => call name (renameAll inverse args)
  | case branches otherwise =>
    case (renameBranches inverse branches) (renameColumns inverse otherwise)

def renameAll (inverse : JsMap String String) : List (ExprAst κ) → List (ExprAst κ)
  | [] => []
  | arg :: args => renameColumns inverse arg :: renameAll inverse args

def renameBranches (inverse : JsMap String String) :
    List (ExprAst κ × ExprAst κ) → List (ExprAst κ × ExprAst κ)
  | [] => []
  | (condition, value) :: rest =>
    (renameColumns inverse condition, renameColumns inverse value) :: renameBranches inverse rest

end

theorem allCompilable_eq (args : List (ExprAst κ)) :
    allCompilable args = args.all isCompilable := by
  induction args with
  | nil => rfl
  | cons arg args ih => simp [allCompilable, ih]

theorem branchesCompilable_eq (branches : List (ExprAst κ × ExprAst κ)) :
    branchesCompilable branches = branches.all fun b => b.1.isCompilable && b.2.isCompilable := by
  induction branches with
  | nil => rfl
  | cons b rest ih => simp [branchesCompilable, ih]

theorem collectAll_eq (args : List (ExprAst κ)) :
    collectAll args = args.flatMap collectColumns := by
  induction args with
  | nil => rfl
  | cons arg args ih => simp [collectAll, ih]

theorem collectBranches_eq (branches : List (ExprAst κ × ExprAst κ)) :
    collectBranches branches =
      branches.flatMap fun b => b.1.collectColumns ++ b.2.collectColumns := by
  induction branches with
  | nil => rfl
  | cons b rest ih => simp [collectBranches, ih]

theorem renameAll_eq (inverse : JsMap String String) (args : List (ExprAst κ)) :
    renameAll inverse args = args.map (renameColumns inverse) := by
  induction args with
  | nil => rfl
  | cons arg args ih => simp [renameAll, ih]

theorem renameBranches_eq (inverse : JsMap String String)
    (branches : List (ExprAst κ × ExprAst κ)) :
    renameBranches inverse branches =
      branches.map fun b => (renameColumns inverse b.1, renameColumns inverse b.2) := by
  induction branches with
  | nil => rfl
  | cons b rest ih => simp [renameBranches, ih]

theorem renameColumns_empty (ast : ExprAst κ) : ast.renameColumns JsMap.empty = ast := by
  induction ast using inductionOn with
  | col | lit | fn => simp [renameColumns]
  | binary _ _ _ ihl ihr => simp [renameColumns, ihl, ihr]
  | unary _ _ ih | between _ _ _ ih | isIn _ _ ih | cast _ _ ih | field _ _ ih | listOp _ _ _ ih =>
    simp [renameColumns, ih]
  | call name args ih =>
    rw [renameColumns, renameAll_eq, map_congr_left ih, map_id']
  | case branches otherwise ih iho =>
    have hbranches : branches.map (fun b => (renameColumns JsMap.empty b.1,
        renameColumns JsMap.empty b.2)) = branches.map id :=
      map_congr_left fun b hb => Prod.ext (ih b hb).1 (ih b hb).2
    rw [renameColumns, renameBranches_eq, hbranches, map_id, iho]

end ExprAst

/-! ## What the nodes compute -/

section Values

variable {κ : Type} [JsCells κ]

open JsCells

/-- The value of an operator of two operands. -/
def BinaryOp.apply : BinaryOp → κ → κ → κ
  | .arith op, a, b => JsCells.arith op a b
  | .gt, a, b => ofBool (less b a)
  | .gte, a, b => ofBool (lessEq b a)
  | .lt, a, b => ofBool (less a b)
  | .lte, a, b => ofBool (lessEq a b)
  | .eq, a, b => ofBool (strictEq a b)
  | .neq, a, b => ofBool (!strictEq a b)
  | .and, a, b => if JsCells.truthy a then b else a
  | .or, a, b => if JsCells.truthy a then a else b

/-- The value of an operator of one operand. -/
def UnaryOp.apply : UnaryOp → κ → κ
  | .not, v => ofBool (!JsCells.truthy v)
  | .isNull, v => ofBool (nullish v)
  | .isNotNull, v => ofBool (!nullish v)
  | .neg, v => JsCells.neg v

def isBetween (low high v : κ) : κ :=
  if lessEq low v then ofBool (lessEq v high) else ofBool false

def isMember (values : List κ) (v : κ) : κ := ofBool (values.any fun w => sameValueZero w v)

/-- `v != null ? v[name] : undefined`. -/
def fieldOf (name : String) (v : κ) : κ :=
  if nullish v then JsCells.undefined else member v name

/-- An array operation; `undefined` where the value is no array. -/
def listValue (op : ListOp) (args : List κ) (v : κ) : κ :=
  match items v with
  | some arr => JsCells.listOp op args arr
  | none => JsCells.undefined

def choose (otherwise : κ) : List (κ × κ) → κ
  | [] => otherwise
  | (condition, value) :: rest => if JsCells.truthy condition then value else choose otherwise rest

/-! ## Values of a tree -/

mutual

def Evaluates (row : Row κ) : ExprAst κ → κ → Prop
  | .col name, v => v = cell row name
  | .lit value, v => v = value
  | .binary op left right, v =>
    ∃ a b, Evaluates row left a ∧ Evaluates row right b ∧ v = op.apply a b
  | .unary op operand, v => ∃ a, Evaluates row operand a ∧ v = op.apply a
  | .call name args, v => ∃ vs, EvaluatesAll row args vs ∧ v = JsCells.call name vs
  | .between operand low high, v => ∃ a, Evaluates row operand a ∧ v = isBetween low high a
  | .isIn operand values, v => ∃ a, Evaluates row operand a ∧ v = isMember values a
  | .case branches otherwise, v =>
    ∃ vs d, EvaluatesBranches row branches vs ∧ Evaluates row otherwise d ∧ v = choose d vs
  | .cast operand target, v => ∃ a, Evaluates row operand a ∧ v = JsCells.cast target a
  | .field operand name, v => ∃ a, Evaluates row operand a ∧ v = fieldOf name a
  | .listOp operand op args, v => ∃ a, Evaluates row operand a ∧ v = listValue op args a
  | .fn _, _ => True

def EvaluatesAll (row : Row κ) : List (ExprAst κ) → List κ → Prop
  | [], [] => True
  | arg :: args, v :: vs => Evaluates row arg v ∧ EvaluatesAll row args vs
  | _, _ => False

def EvaluatesBranches (row : Row κ) : List (ExprAst κ × ExprAst κ) → List (κ × κ) → Prop
  | [], [] => True
  | (condition, value) :: rest, (c, v) :: vs =>
    Evaluates row condition c ∧ Evaluates row value v ∧ EvaluatesBranches row rest vs
  | _, _ => False

end

variable {row row' : Row κ}

theorem evaluatesAll_iff {args : List (ExprAst κ)} {vs : List κ} :
    EvaluatesAll row args vs ↔ List.Forall₂ (Evaluates row) args vs := by
  induction args generalizing vs with
  | nil => cases vs <;> simp [EvaluatesAll]
  | cons arg args ih => cases vs <;> simp [EvaluatesAll, ih]

theorem evaluatesBranches_iff {branches : List (ExprAst κ × ExprAst κ)} {vs : List (κ × κ)} :
    EvaluatesBranches row branches vs ↔
      List.Forall₂ (fun b v => Evaluates row b.1 v.1 ∧ Evaluates row b.2 v.2) branches vs := by
  induction branches generalizing vs with
  | nil => cases vs <;> simp [EvaluatesBranches]
  | cons b rest ih => cases vs <;> simp [EvaluatesBranches, ih, and_assoc]

private theorem forall₂_imp_of_mem {α β γ : Type} {R : α → β → Prop} {S : γ → β → Prop}
    {f : α → γ} {as : List α} {bs : List β} (h : ∀ a ∈ as, ∀ b, R a b → S (f a) b)
    (hR : List.Forall₂ R as bs) : List.Forall₂ S (as.map f) bs := by
  induction hR with
  | nil => exact List.Forall₂.nil
  | cons hab _ ih =>
    obtain ⟨hhead, htail⟩ := forall_mem_cons.mp h
    exact List.Forall₂.cons (hhead _ hab) (ih htail)

private theorem unique_of_forall₂ {α β : Type} {R : α → β → Prop} {as : List α} {bs cs : List β}
    (h : ∀ a ∈ as, ∀ b c, R a b → R a c → b = c) (hb : List.Forall₂ R as bs)
    (hc : List.Forall₂ R as cs) : bs = cs := by
  induction hb generalizing cs with
  | nil =>
    cases hc
    rfl
  | cons hab _ ih =>
    cases hc with
    | cons hac hrest =>
      obtain ⟨hhead, htail⟩ := forall_mem_cons.mp h
      rw [hhead _ _ hab hac, ih htail hrest]

variable {ast : ExprAst κ}

theorem evaluates_renameColumns {inverse : JsMap String String} {v : κ}
    (hcols : ∀ c ∈ ast.collectColumns, cell row c = cell row' ((inverse.get c).getD c))
    (hv : Evaluates row ast v) : Evaluates row' (ast.renameColumns inverse) v := by
  induction ast using ExprAst.inductionOn generalizing v with
  | col name =>
    simp only [Evaluates, ExprAst.renameColumns] at hv ⊢
    rw [hv]
    exact hcols name (by simp [ExprAst.collectColumns])
  | lit value => simpa only [Evaluates, ExprAst.renameColumns] using hv
  | fn description => simp only [Evaluates, ExprAst.renameColumns]
  | binary op left right ihl ihr =>
    simp only [ExprAst.collectColumns, mem_append] at hcols
    simp only [Evaluates, ExprAst.renameColumns] at hv ⊢
    obtain ⟨a, b, ha, hb, rfl⟩ := hv
    exact ⟨a, b, ihl (fun c hc => hcols c (.inl hc)) ha,
      ihr (fun c hc => hcols c (.inr hc)) hb, rfl⟩
  | unary _ _ ih | between _ _ _ ih | isIn _ _ ih | cast _ _ ih | field _ _ ih | listOp _ _ _ ih =>
    simp only [ExprAst.collectColumns] at hcols
    simp only [Evaluates, ExprAst.renameColumns] at hv ⊢
    obtain ⟨a, ha, rfl⟩ := hv
    exact ⟨a, ih hcols ha, rfl⟩
  | call name args ih =>
    rw [ExprAst.collectColumns, ExprAst.collectAll_eq] at hcols
    simp only [Evaluates, ExprAst.renameColumns, evaluatesAll_iff, ExprAst.renameAll_eq] at hv ⊢
    obtain ⟨vs, hvs, rfl⟩ := hv
    refine ⟨vs, forall₂_imp_of_mem ?_ hvs, rfl⟩
    intro arg harg w hw
    exact ih arg harg (fun c hc => hcols c (mem_flatMap.mpr ⟨arg, harg, hc⟩)) hw
  | case branches otherwise ih iho =>
    simp only [ExprAst.collectColumns, ExprAst.collectBranches_eq, mem_append,
      mem_flatMap] at hcols
    simp only [Evaluates, ExprAst.renameColumns, evaluatesBranches_iff,
      ExprAst.renameBranches_eq] at hv ⊢
    obtain ⟨vs, d, hvs, hd, rfl⟩ := hv
    refine ⟨vs, d, forall₂_imp_of_mem ?_ hvs, iho (fun c hc => hcols c (.inr hc)) hd, rfl⟩
    intro b hb w hw
    exact ⟨(ih b hb).1 (fun c hc => hcols c (.inl ⟨b, hb, .inl hc⟩)) hw.1,
      (ih b hb).2 (fun c hc => hcols c (.inl ⟨b, hb, .inr hc⟩)) hw.2⟩

theorem evaluates_of_agree {v : κ}
    (hcols : ∀ c ∈ ast.collectColumns, cell row c = cell row' c) (hv : Evaluates row ast v) :
    Evaluates row' ast v := by
  have hrenamed : Evaluates row' (ast.renameColumns JsMap.empty) v :=
    evaluates_renameColumns (by simpa using hcols) hv
  rwa [ExprAst.renameColumns_empty] at hrenamed

theorem evaluates_unique (hast : ast.isCompilable = true) {v w : κ}
    (hv : Evaluates row ast v) (hw : Evaluates row ast w) : v = w := by
  induction ast using ExprAst.inductionOn generalizing v w with
  | col | lit =>
    simp only [Evaluates] at hv hw
    rw [hv, hw]
  | fn description => simp [ExprAst.isCompilable] at hast
  | binary op left right ihl ihr =>
    simp only [ExprAst.isCompilable, Bool.and_eq_true] at hast
    simp only [Evaluates] at hv hw
    obtain ⟨a, b, ha, hb, rfl⟩ := hv
    obtain ⟨a', b', ha', hb', rfl⟩ := hw
    rw [ihl hast.1 ha ha', ihr hast.2 hb hb']
  | unary _ _ ih | between _ _ _ ih | isIn _ _ ih | cast _ _ ih | field _ _ ih | listOp _ _ _ ih =>
    simp only [ExprAst.isCompilable] at hast
    simp only [Evaluates] at hv hw
    obtain ⟨a, ha, rfl⟩ := hv
    obtain ⟨b, hb, rfl⟩ := hw
    rw [ih hast ha hb]
  | call name args ih =>
    simp only [ExprAst.isCompilable, ExprAst.allCompilable_eq, all_eq_true] at hast
    simp only [Evaluates, evaluatesAll_iff] at hv hw
    obtain ⟨vs, hvs, rfl⟩ := hv
    obtain ⟨ws, hws, rfl⟩ := hw
    congr 1
    exact unique_of_forall₂ (fun arg harg v w => ih arg harg (hast arg harg)) hvs hws
  | case branches otherwise ih iho =>
    simp only [ExprAst.isCompilable, ExprAst.branchesCompilable_eq, Bool.and_eq_true,
      all_eq_true] at hast
    simp only [Evaluates, evaluatesBranches_iff] at hv hw
    obtain ⟨vs, d, hvs, hd, rfl⟩ := hv
    obtain ⟨ws, d', hws, hd', rfl⟩ := hw
    have hbranches : vs = ws := by
      apply unique_of_forall₂ _ hvs hws
      intro b hb v w hv hw
      exact Prod.ext ((ih b hb).1 (hast.1 b hb).1 hv.1 hw.1) ((ih b hb).2 (hast.1 b hb).2 hv.2 hw.2)
    rw [hbranches, iho hast.2 hd hd']

def ArithOp.symbol : ArithOp → String
  | .add => "+"
  | .sub => "-"
  | .mul => "*"
  | .div => "/"
  | .mod => "%"

def BinaryOp.symbol : BinaryOp → String
  | .arith op => op.symbol
  | .gt => ">"
  | .gte => ">="
  | .lt => "<"
  | .lte => "<="
  | .eq => "="
  | .neq => "!="
  | .and => "AND"
  | .or => "OR"

def UnaryOp.symbol : UnaryOp → String
  | .not => "NOT"
  | .isNull => "IS NULL"
  | .isNotNull => "IS NOT NULL"
  | .neg => "-"

def CallName.symbol : CallName → String
  | .lower => "LOWER"
  | .upper => "UPPER"
  | .contains => "CONTAINS"
  | .startsWith => "STARTS_WITH"
  | .endsWith => "ENDS_WITH"

def CastType.symbol : CastType → String
  | .double => "DOUBLE"
  | .varchar => "VARCHAR"
  | .boolean => "BOOLEAN"

def ListOp.symbol : ListOp → String
  | .length => "length"
  | .get => "get"
  | .contains => "contains"
  | .unique => "unique"
  | .sort => "sort"
  | .join => "join"
  | .sum => "sum"
  | .mean => "mean"
  | .min => "min"
  | .max => "max"

/-- `JSON.stringify(values)`: what has no text of its own prints as `null`. -/
def jsonArray (values : List κ) : String :=
  "[" ++ ",".intercalate (values.map fun v => if json v = "undefined" then "null" else json v) ++
    "]"

namespace ExprAst

mutual

def astKey : ExprAst κ → String
  | col name => "col:" ++ name
  | lit value => "lit:" ++ json value
  | binary op left right => "bin:" ++ op.symbol ++ "(" ++ left.astKey ++ "," ++ right.astKey ++ ")"
  | unary op operand => "un:" ++ op.symbol ++ "(" ++ operand.astKey ++ ")"
  | call name args => "call:" ++ name.symbol ++ "(" ++ ",".intercalate (argKeys args) ++ ")"
  | between operand low high =>
    "btw:(" ++ operand.astKey ++ "," ++ text low ++ "," ++ text high ++ ")"
  | isIn operand values => "in:(" ++ operand.astKey ++ "," ++ jsonArray values ++ ")"
  | cast operand target => "cast:" ++ target.symbol ++ "(" ++ operand.astKey ++ ")"
  | case branches otherwise =>
    "case:[" ++ ";".intercalate (branchKeys branches) ++ "]else(" ++ otherwise.astKey ++ ")"
  | field operand name => "field:" ++ name ++ "(" ++ operand.astKey ++ ")"
  | listOp operand op args =>
    "listOp:" ++ op.symbol ++ "(" ++ operand.astKey ++ "," ++ jsonArray args ++ ")"
  | fn description => "fn:" ++ description

def argKeys : List (ExprAst κ) → List String
  | [] => []
  | arg :: args => arg.astKey :: argKeys args

def branchKeys : List (ExprAst κ × ExprAst κ) → List String
  | [] => []
  | (condition, value) :: rest => (condition.astKey ++ "=>" ++ value.astKey) :: branchKeys rest

end

end ExprAst

/-! ## Trees as functions -/

/-- Compile a tree to a function of the row; the nodes a filter predicate is not expected
to have are refused. -/
def ExprAst.astToFn : ExprAst κ → Except String (Row κ → κ)
  | .col name => .ok fun row => cell row name
  | .lit value => .ok fun _ => value
  | .binary op left right => do
    let l ← left.astToFn
    let r ← right.astToFn
    return fun row => op.apply (l row) (r row)
  | .unary op operand => do
    let inner ← operand.astToFn
    return fun row => op.apply (inner row)
  | .between operand low high => do
    let inner ← operand.astToFn
    return fun row => isBetween low high (inner row)
  | .isIn operand values => do
    let inner ← operand.astToFn
    return fun row => isMember values (inner row)
  | ast@(.cast _ _) | ast@(.call _ _) | ast@(.case _ _) | ast@(.field _ _) | ast@(.listOp _ _ _)
  | ast@(.fn _) =>
    .error ("astToFn: node type '" ++ ast.type ++ "' not supported in filter predicate")

/-- The compiled function computes a value of the tree. -/
theorem evaluates_astToFn {f : Row κ → κ} (h : ast.astToFn = .ok f)
    (row : Row κ) : Evaluates row ast (f row) := by
  induction ast using ExprAst.inductionOn generalizing f with
  | col name | lit value =>
    cases h
    simp only [Evaluates]
  | binary op left right ihl ihr =>
    simp only [ExprAst.astToFn] at h
    cases hl : left.astToFn with
    | error e => simp [hl, bind, Except.bind] at h
    | ok l =>
      cases hr : right.astToFn with
      | error e => simp [hl, hr, bind, Except.bind] at h
      | ok r =>
        simp only [hl, hr, bind, Except.bind, pure, Except.pure, Except.ok.injEq] at h
        subst h
        simp only [Evaluates]
        exact ⟨l row, r row, ihl hl, ihr hr, rfl⟩
  | unary _ operand ih | between operand _ _ ih | isIn operand _ ih =>
    simp only [ExprAst.astToFn] at h
    cases hinner : operand.astToFn with
    | error e => simp [hinner, bind, Except.bind] at h
    | ok inner =>
      simp only [hinner, bind, Except.bind, pure, Except.pure, Except.ok.injEq] at h
      subst h
      simp only [Evaluates]
      exact ⟨inner row, ih hinner, rfl⟩
  | call | case | cast | field | listOp | fn => simp [ExprAst.astToFn] at h

end Values

/-! ## The builder -/

/-- An expression: what it computes, and its tree. -/
structure Expr (κ : Type) where
  fn : Row κ → κ
  ast : ExprAst κ

namespace Expr

variable {κ : Type} [JsCells κ]

def ofFn (fn : Row κ → κ) : Expr κ := ⟨fn, .fn "opaque"⟩

def col (name : String) : Expr κ := ⟨fun row => cell row name, .col name⟩

def lit (value : κ) : Expr κ := ⟨fun _ => value, .lit value⟩

/-- `add`, `sub`, `gt`, `eq`, `and` and the other methods of two operands. -/
def binary (op : BinaryOp) (a b : Expr κ) : Expr κ :=
  ⟨fun row => op.apply (a.fn row) (b.fn row), .binary op a.ast b.ast⟩

/-- `neg`, `not`, `isNull` and `isNotNull`. -/
def unary (op : UnaryOp) (a : Expr κ) : Expr κ :=
  ⟨fun row => op.apply (a.fn row), .unary op a.ast⟩

/-- The string methods, their pattern as a literal argument. -/
def call (name : CallName) (args : List (Expr κ)) : Expr κ :=
  ⟨fun row => JsCells.call name (args.map fun a => a.fn row), .call name (args.map Expr.ast)⟩

variable (a : Expr κ)

def between (low high : κ) : Expr κ :=
  ⟨fun row => isBetween low high (a.fn row), .between a.ast low high⟩

def isIn (values : List κ) : Expr κ :=
  ⟨fun row => isMember values (a.fn row), .isIn a.ast values⟩

def cast (target : CastType) : Expr κ :=
  ⟨fun row => JsCells.cast target (a.fn row), .cast a.ast target⟩

def field (name : String) : Expr κ :=
  ⟨fun row => fieldOf name (a.fn row), .field a.ast name⟩

def listOp (op : ListOp) (args : List κ) : Expr κ :=
  ⟨fun row => listValue op args (a.fn row), .listOp a.ast op args⟩

def whenOtherwise (branches : List (Expr κ × Expr κ)) (otherwise : Expr κ) : Expr κ :=
  ⟨fun row => choose (otherwise.fn row) (branches.map fun b => (b.1.fn row, b.2.fn row)),
    .case (branches.map fun b => (b.1.ast, b.2.ast)) otherwise.ast⟩

/-- The expressions the functions and methods build. -/
inductive Built : Expr κ → Prop
  | ofFn (fn) : Built (ofFn fn)
  | col (name) : Built (col name)
  | lit (value) : Built (lit value)
  | binary (op) {a b} : Built a → Built b → Built (binary op a b)
  | unary (op) {a} : Built a → Built (unary op a)
  | call (name) {args} : (∀ a ∈ args, Built a) → Built (call name args)
  | between (low high) {a} : Built a → Built (between a low high)
  | isIn (values) {a} : Built a → Built (isIn a values)
  | cast (target) {a} : Built a → Built (cast a target)
  | field (name) {a} : Built a → Built (field a name)
  | listOp (op args) {a} : Built a → Built (listOp a op args)
  | whenOtherwise {branches otherwise} : (∀ b ∈ branches, Built b.1) → (∀ b ∈ branches, Built b.2) →
    Built otherwise → Built (whenOtherwise branches otherwise)

theorem Built.evaluates {e : Expr κ} (h : Built e) (row : Row κ) :
    Evaluates row e.ast (e.fn row) := by
  induction h with
  | ofFn | col | lit => simp only [Expr.ofFn, Expr.col, Expr.lit, Evaluates]
  | binary op _ _ iha ihb =>
    simp only [Expr.binary, Evaluates]
    exact ⟨_, _, iha, ihb, rfl⟩
  | unary _ _ ih | between _ _ _ ih | isIn _ _ ih | cast _ _ ih | field _ _ ih | listOp _ _ _ ih =>
    simp only [Expr.unary, Expr.between, Expr.isIn, Expr.cast, Expr.field, Expr.listOp, Evaluates]
    exact ⟨_, ih, rfl⟩
  | @call name args _ ih =>
    simp only [Expr.call, Evaluates, evaluatesAll_iff]
    refine ⟨args.map fun a => a.fn row, ?_, rfl⟩
    rw [forall₂_map_left_iff, forall₂_map_right_iff, forall₂_same]
    exact ih
  | @whenOtherwise branches otherwise _ _ _ ihc ihv iho =>
    simp only [Expr.whenOtherwise, Evaluates, evaluatesBranches_iff]
    refine ⟨branches.map fun b => (b.1.fn row, b.2.fn row), otherwise.fn row, ?_, iho, rfl⟩
    rw [forall₂_map_left_iff, forall₂_map_right_iff, forall₂_same]
    exact fun b hb => ⟨ihc b hb, ihv b hb⟩

end Expr

end Promin.Data
