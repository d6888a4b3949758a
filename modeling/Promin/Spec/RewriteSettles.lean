import Promin.Spec.FilterPushdown

/-!
# Rewriting comes to an end

`Load` weighs a plan: how often a node stands above one a rule would move it
past (`inversions`, a filter counting once for each conjunct of its tree), how
many nodes there are, and how far down the chains of computed columns the
columns read are set (`aliases`).
-/

namespace Promin.Data

open List

section Loads

variable {κ : Type}

open LogicalPlan

/-! ## Weighing a plan -/

structure Load where
  obstacles : Nat
  /-- Nodes a limit moves past. -/
  projections : Nat
  conjuncts : Nat
  inversions : Nat
  nodes : Nat
  aliases : Nat

def conjunctsOf : Option (ExprAst κ) → Nat
  | some expr => (splitAnd expr).length
  | none => 0

def chainNames : LogicalPlan κ → List String
  | .unary (.withColumn name _ _) input => name :: chainNames input
  | _ => []

/-- How far down the column is set that an expression reads; further than all of them for an
expression that is no column. -/
def aliasLoad (names : List String) : Option (ExprAst κ) → Nat
  | none => 0
  | some (.col x) => names.idxOf x
  | some _ => names.length + 1

namespace Load

def node (node : UnaryNode κ) (names : List String) (below : Load) : Load :=
  match node with
  | .filter _ expr => { below with
      conjuncts := below.conjuncts + conjunctsOf expr
      inversions := below.inversions + conjunctsOf expr * below.obstacles
      nodes := below.nodes + 1 }
  | .select _ => { below with
      projections := below.projections + 1
      inversions := below.inversions + below.conjuncts
      nodes := below.nodes + 1 }
  | .drop _ | .rename _ => { below with
      obstacles := below.obstacles + 1
      projections := below.projections + 1
      nodes := below.nodes + 1 }
  | .withColumn _ _ expr => { below with
      obstacles := below.obstacles + 1
      projections := below.projections + 1
      nodes := below.nodes + 1
      aliases := below.aliases + aliasLoad names expr }
  | .map _ => { below with
      projections := below.projections + 1
      nodes := below.nodes + 1 }
  | .sort _ => { below with
      obstacles := below.obstacles + 1
      nodes := below.nodes + 1 }
  | .limit _ => { below with
      inversions := below.inversions + below.projections
      nodes := below.nodes + 1 }
  | .offset _ | .slice _ _ | .distinct _ _ | .reverse | .rows _ =>
    { below with nodes := below.nodes + 1 }

/-- The load of two plans side by side under a node with `obstacles` of its own. -/
def beside (obstacles : Nat) (left right : Load) : Load where
  obstacles := left.obstacles + right.obstacles + obstacles
  projections := left.projections + right.projections
  conjuncts := left.conjuncts + right.conjuncts
  inversions := left.inversions + right.inversions
  nodes := left.nodes + right.nodes + 1
  aliases := left.aliases + right.aliases

def leaf : Load := ⟨0, 0, 0, 0, 1, 0⟩

end Load

mutual

/-- What the rules may still move in a plan. -/
def load : LogicalPlan κ → Load
  | .source _ => .leaf
  | .unary node input => .node node (chainNames input) (load input)
  | .join left right _ _ => .beside 1 (load left) (load right)
  | .union left right => .beside 0 (load left) (load right)
  | .concat inputs => loadAll inputs

def loadAll : List (LogicalPlan κ) → Load
  | [] => .leaf
  | input :: inputs => .beside 0 (load input) (loadAll inputs)

end

/-- Less load: nothing more for the nodes above, and first fewer inversions, then fewer nodes,
then columns read from nearer. -/
structure Load.Lighter (a b : Load) : Prop where
  obstacles : a.obstacles ≤ b.obstacles
  projections : a.projections ≤ b.projections
  conjuncts : a.conjuncts ≤ b.conjuncts
  less : a.inversions < b.inversions ∨ a.inversions = b.inversions ∧
    (a.nodes < b.nodes ∨ a.nodes = b.nodes ∧ a.aliases < b.aliases)

/-- A lighter plan. The chain at its top is the same if only its columns got nearer. -/
structure Lighter (p' p : LogicalPlan κ) : Prop where
  loads : (load p').Lighter (load p)
  names : (load p').inversions = (load p).inversions → (load p').nodes = (load p).nodes →
    chainNames p' = chainNames p

variable {above : Option (UnaryNode κ)} {p p' : LogicalPlan κ}

/-! ## A lighter part makes a lighter plan -/

theorem Load.Lighter.beside_left {a b : Load} (k : Nat) (c : Load) (h : a.Lighter b) :
    (Load.beside k a c).Lighter (Load.beside k b c) := by
  obtain ⟨ho, hp, hc, hless⟩ := h
  constructor <;> simp only [Load.beside] <;> omega

theorem Load.Lighter.beside_right {a b : Load} (k : Nat) (c : Load) (h : a.Lighter b) :
    (Load.beside k c a).Lighter (Load.beside k c b) := by
  obtain ⟨ho, hp, hc, hless⟩ := h
  constructor <;> simp only [Load.beside] <;> omega

theorem lighter_unary (node : UnaryNode κ) (h : Lighter p' p) :
    Lighter (.unary node p') (.unary node p) := by
  obtain ⟨⟨ho, hp, hc, hless⟩, hnames⟩ := h
  have hmul : ∀ n : Nat, n * (load p').obstacles ≤ n * (load p).obstacles :=
    fun n => Nat.mul_le_mul_left n ho
  constructor
  · cases node with
    | filter fn expr =>
      have hm := hmul (conjunctsOf expr)
      constructor <;> simp only [load, Load.node] <;> omega
    | withColumn name fn expr =>
      constructor <;> simp only [load, Load.node]
      · omega
      · omega
      · omega
      · rcases hless with hlt | ⟨heq, hlt | ⟨hnodes, haliases⟩⟩
        · exact .inl hlt
        · exact .inr ⟨heq, .inl (by omega)⟩
        · rw [hnames heq hnodes]
          exact .inr ⟨heq, .inr ⟨by omega, by omega⟩⟩
    | _ => constructor <;> simp only [load, Load.node] <;> omega
  · intro hinversions hnodes
    cases node with
    | withColumn name fn expr =>
      simp only [load, Load.node, chainNames] at hinversions hnodes ⊢
      rw [hnames hinversions (by omega)]
    | _ => rfl

theorem lighter_loadAll (before after : List (LogicalPlan κ)) (h : Lighter p' p) :
    (loadAll (before ++ p' :: after)).Lighter (loadAll (before ++ p :: after)) := by
  induction before with
  | nil => exact h.loads.beside_left 0 _
  | cons q before ih => exact ih.beside_right 0 _

theorem lighter_inside {R : Option (UnaryNode κ) → LogicalPlan κ → LogicalPlan κ → Prop}
    (hR : ∀ {above p p'}, R above p p' → Lighter p' p) (h : Inside R above p p') :
    Lighter p' p := by
  induction h with
  | here hstep => exact hR hstep
  | unary node _ ih => exact lighter_unary node ih
  | joinLeft right on type _ ih => exact ⟨ih.loads.beside_left 1 _, fun _ _ => rfl⟩
  | joinRight left on type _ ih => exact ⟨ih.loads.beside_right 1 _, fun _ _ => rfl⟩
  | unionLeft right _ ih => exact ⟨ih.loads.beside_left 0 _, fun _ _ => rfl⟩
  | unionRight left _ ih => exact ⟨ih.loads.beside_right 0 _, fun _ _ => rfl⟩
  | concat before after _ ih => exact ⟨lighter_loadAll before after ih, fun _ _ => rfl⟩

theorem wellFounded_lighter : WellFounded fun p' p : LogicalPlan κ => Lighter p' p := by
  apply Subrelation.wf (r := InvImage (Prod.Lex (· < ·) (Prod.Lex (· < ·) (· < ·)))
    fun p : LogicalPlan κ => ((load p).inversions, (load p).nodes, (load p).aliases))
  · intro p' p h
    rcases h.loads.less with hlt | ⟨heq, hlt | ⟨hnodes, haliases⟩⟩
    · exact Prod.Lex.left _ _ hlt
    · show Prod.Lex _ _ (_, _, _) (_, _, _)
      rw [heq]
      exact Prod.Lex.right _ (Prod.Lex.left _ _ hlt)
    · show Prod.Lex _ _ (_, _, _) (_, _, _)
      rw [heq, hnodes]
      exact Prod.Lex.right _ (Prod.Lex.right _ haliases)
  · exact InvImage.wf _ (WellFounded.prod_lex Nat.lt_wfRel.wf
      (WellFounded.prod_lex Nat.lt_wfRel.wf Nat.lt_wfRel.wf))

/-! ## Conjuncts -/

theorem one_le_conjuncts (expr : ExprAst κ) : 1 ≤ (splitAnd expr).length := by
  induction expr using ExprAst.inductionOn with
  | binary op left right ihl ihr =>
    cases op with
    | and =>
      simp only [splitAnd, length_append]
      omega
    | _ => simp [splitAnd]
  | _ => simp [splitAnd]

theorem length_splitAnd_renameColumns (inverse : JsMap String String) (expr : ExprAst κ) :
    (splitAnd (expr.renameColumns inverse)).length = (splitAnd expr).length := by
  induction expr using ExprAst.inductionOn with
  | binary op left right ihl ihr =>
    cases op with
    | and => simp [ExprAst.renameColumns, splitAnd, ihl, ihr]
    | _ => simp [ExprAst.renameColumns, splitAnd]
  | _ => simp [ExprAst.renameColumns, splitAnd]

theorem splitAnd_of_mem {expr c : ExprAst κ} (h : c ∈ splitAnd expr) : splitAnd c = [c] := by
  induction expr using ExprAst.inductionOn with
  | binary op left right ihl ihr =>
    cases op with
    | and =>
      simp only [splitAnd, mem_append] at h
      cases h with
      | inl hl => exact ihl hl
      | inr hr => exact ihr hr
    | _ =>
      simp only [splitAnd, mem_singleton] at h
      rw [h, splitAnd]
      intro l r heq
      cases heq
  | _ =>
    simp only [splitAnd, mem_singleton] at h
    rw [h, splitAnd]
    intro l r heq
    cases heq

theorem length_splitAnd_andAll {first : ExprAst κ} {rest : List (ExprAst κ)}
    (h : ∀ c ∈ first :: rest, splitAnd c = [c]) :
    (splitAnd (andAll first rest)).length = rest.length + 1 := by
  obtain ⟨hfirst, hrest⟩ := forall_mem_cons.mp h
  have hfold : ∀ (rest : List (ExprAst κ)) (acc : ExprAst κ), (∀ c ∈ rest, splitAnd c = [c]) →
      (splitAnd (rest.foldl andExpr acc)).length = (splitAnd acc).length + rest.length := by
    intro rest
    induction rest with
    | nil => exact fun acc _ => rfl
    | cons c rest ih =>
      intro acc hall
      obtain ⟨hc, hrest⟩ := forall_mem_cons.mp hall
      rw [foldl_cons, ih _ hrest, andExpr, splitAnd, length_append, hc, length_cons]
      simp only [length_cons, length_nil]
      omega
  rw [andAll, hfold rest first hrest, hfirst]
  simp only [length_cons, length_nil]
  omega

end Loads

/-! ## The rules -/

section Rules

variable {κ : Type} [JsCells κ] {above : Option (UnaryNode κ)} {p p' : LogicalPlan κ}

open LogicalPlan

/-- What must hold where a rule answers: a selection moves below a filter that reads selected
columns only, and a column is read in place of one that is set further down. -/
def Settles : LogicalPlan κ → Prop
  | .unary (.select columns) (.unary (.filter fn (some expr)) input) =>
    (columnPruning (select columns (filter fn (some expr) input))).isSome = true →
      ∀ c ∈ expr.collectColumns, c ∈ columns
  | .unary (.withColumn name _ (some (.col x))) input =>
    ∀ found, aliasIn name (ExprAst.col x : ExprAst κ).astKey input = some found →
      (chainNames input).idxOf found < (chainNames input).idxOf x
  | _ => True

omit [JsCells κ] in
theorem Lighter.of_fewer (ho : (load p').obstacles ≤ (load p).obstacles)
    (hp : (load p').projections ≤ (load p).projections)
    (hc : (load p').conjuncts ≤ (load p).conjuncts)
    (hless : (load p').inversions < (load p).inversions ∨
      (load p').inversions = (load p).inversions ∧ (load p').nodes < (load p).nodes) :
    Lighter p' p := by
  refine ⟨⟨ho, hp, hc, hless.imp_right fun h => ⟨h.1, .inl h.2⟩⟩, ?_⟩
  intro hinversions hnodes
  omega

theorem lighter_combineAdjacentFilters (h : combineAdjacentFilters p = some p') :
    Lighter p' p := by
  obtain ⟨outerFn, outerExpr, innerFn, innerExpr, input, rfl, rfl⟩ :=
    combineAdjacentFilters_eq_some h
  have hconjuncts : conjunctsOf (outerExpr.bind fun outer => innerExpr.map fun inner =>
      andExpr inner outer) ≤ conjunctsOf innerExpr + conjunctsOf outerExpr := by
    cases outerExpr with
    | none => exact Nat.zero_le _
    | some outer =>
      cases innerExpr with
      | none => exact Nat.zero_le _
      | some inner => simp [conjunctsOf, andExpr, splitAnd]
  have hmul := Nat.mul_le_mul_right (load input).obstacles hconjuncts
  rw [Nat.add_mul] at hmul
  apply Lighter.of_fewer <;> simp only [load, Load.node] <;> omega

omit [JsCells κ] in
theorem lighter_pushFilterDown (h : pushFilterDown p = some p') : Lighter p' p := by
  obtain ⟨fn, expr, child, rfl, hbelow⟩ := pushFilterDown_eq_some h
  have hone := one_le_conjuncts expr
  cases hbelow with
  | drop columns input _ | sort keys input | withColumn name wcFn wcExpr input _ =>
    apply Lighter.of_fewer <;> simp only [load, Load.node, conjunctsOf, Nat.mul_add] <;> omega
  | rename mapping input =>
    have hlength := length_splitAnd_renameColumns (inverseMapping mapping) expr
    apply Lighter.of_fewer <;>
      simp only [load, Load.node, conjunctsOf, hlength, Nat.mul_add] <;> omega

omit [JsCells κ] in
theorem lighter_pushLimitDown (h : pushLimitDown p = some p') : Lighter p' p := by
  unfold pushLimitDown at h
  split at h
  · rename_i n node input
    cases node with
    | select _ | drop _ | rename _ | withColumn _ _ _ | map _ =>
      cases h
      apply Lighter.of_fewer <;> simp only [load, Load.node] <;> omega
    | _ => exact nomatch h
  · exact nomatch h

omit [JsCells κ] in
theorem lighter_limitIntoSource (h : limitIntoSource p = some p') : Lighter p' p := by
  unfold limitIntoSource at h
  split at h
  · split at h
    · exact nomatch h
    · split at h <;>
      · cases h
        apply Lighter.of_fewer <;> simp [load, Load.node, Load.leaf]
  · exact nomatch h

theorem lighter_columnPruning (h : columnPruning p = some p') (hsettles : Settles p) :
    Lighter p' p := by
  obtain ⟨columns, fn, expr, input, rfl, hcases⟩ := columnPruning_eq_some h
  have hall : ∀ c ∈ expr.collectColumns, c ∈ columns := hsettles (by rw [h]; rfl)
  have hone := one_le_conjuncts expr
  have hp' : p' = filter fn (some expr) (select columns input) := by
    have hcontains : expr.collectColumns.all columns.contains = true := by simpa using hall
    simp only [columnPruning, hcontains, ↓reduceIte, Option.some.injEq] at h
    exact h.symm
  subst hp'
  apply Lighter.of_fewer <;> simp only [load, Load.node, conjunctsOf] <;> omega

theorem mem_chainNames_of_aliasIn {name key found : String} : ∀ {input : LogicalPlan κ},
    aliasIn name key input = some found → found ∈ chainNames input := by
  intro input
  induction input using LogicalPlan.inductionOn with
  | source | join | union | concat => exact fun h => by cases h
  | unary node input ih =>
    cases node with
    | withColumn innerName innerFn innerExpr =>
      intro h
      simp only [aliasIn] at h
      split at h
      · cases h
        exact mem_cons_self
      · exact mem_cons_of_mem _ (ih h)
    | _ => exact fun h => by cases h

theorem lighter_collapseDuplicateWithColumn (h : collapseDuplicateWithColumn p = some p')
    (hsettles : Settles p) : Lighter p' p := by
  obtain ⟨name, fn, expr, input, found, rfl, hfound, rfl⟩ :=
    collapseDuplicateWithColumn_eq_some h
  have hmem := idxOf_lt_length_of_mem (mem_chainNames_of_aliasIn hfound)
  have haliases : aliasLoad (chainNames input) (some (.col found : ExprAst κ)) <
      aliasLoad (chainNames input) (some expr) := by
    cases expr with
    | col x => exact hsettles found hfound
    | _ =>
      simp only [aliasLoad]
      omega
  refine ⟨⟨Nat.le_refl _, Nat.le_refl _, Nat.le_refl _, .inr ⟨rfl, .inr ⟨rfl, ?_⟩⟩⟩, fun _ _ => rfl⟩
  simp only [load, Load.node]
  omega

/-! ### Splitting at a join -/

theorem load_wrapFilter {input q : LogicalPlan κ} {conjuncts : List (ExprAst κ)}
    (h : wrapFilter input conjuncts = .ok q) (hall : ∀ c ∈ conjuncts, splitAnd c = [c]) :
    (load q).obstacles = (load input).obstacles ∧
      (load q).projections = (load input).projections ∧
      (load q).conjuncts = (load input).conjuncts + conjuncts.length ∧
      (load q).inversions =
        (load input).inversions + conjuncts.length * (load input).obstacles := by
  cases conjuncts with
  | nil =>
    cases h
    simp
  | cons first rest =>
    rw [wrapFilter] at h
    obtain ⟨fn, -, h⟩ := exists_of_bind h
    obtain rfl := Except.ok.inj h
    have hlength := length_splitAnd_andAll hall
    simp [load, Load.node, conjunctsOf, hlength]

omit [JsCells κ] in
theorem length_split (inLeft inRight : ExprAst κ → Bool) (conjuncts : List (ExprAst κ)) :
    (conjuncts.filter fun c => inLeft c && !inRight c).length +
        (conjuncts.filter fun c => inRight c && !inLeft c).length +
        (conjuncts.filter fun c => inLeft c == inRight c).length = conjuncts.length := by
  induction conjuncts with
  | nil => rfl
  | cons c rest ih =>
    cases hl : inLeft c <;> cases hr : inRight c <;> simp [hl, hr] <;> omega

theorem lighter_splitFilterAtJoin (h : splitFilterAtJoin p = .ok (some p')) : Lighter p' p := by
  unfold splitFilterAtJoin at h
  split at h
  · rename_i fn expr left right on type
    split at h
    · rename_i leftCols rightCols _ _
      simp only at h
      set inLeft := fun c : ExprAst κ => c.collectColumns.all leftCols.contains
      set inRight := fun c : ExprAst κ => c.collectColumns.all rightCols.contains
      set forLeft := (splitAnd expr).filter fun c => inLeft c && !inRight c with hforLeft
      set forRight := (splitAnd expr).filter fun c => inRight c && !inLeft c with hforRight
      set stay := (splitAnd expr).filter fun c => inLeft c == inRight c with hstay
      have hlength : forLeft.length + forRight.length + stay.length = (splitAnd expr).length :=
        length_split inLeft inRight (splitAnd expr)
      have hsingle : ∀ {l : List (ExprAst κ)} {keep : ExprAst κ → Bool},
          l = (splitAnd expr).filter keep → ∀ c ∈ l, splitAnd c = [c] := by
        intro l keep hl c hc
        rw [hl] at hc
        exact splitAnd_of_mem (mem_filter.mp hc).1
      split at h
      · exact nomatch h
      · rename_i hmoved
        obtain ⟨leftInput, hl, h⟩ := exists_of_bind h
        obtain ⟨rightInput, hr, h⟩ := exists_of_bind h
        obtain ⟨plan, hs, h⟩ := exists_of_bind h
        obtain rfl := Option.some.inj (Except.ok.inj h)
        obtain ⟨lo, lp, lc, li⟩ := load_wrapFilter hl (hsingle hforLeft)
        obtain ⟨ro, rp, rc, ri⟩ := load_wrapFilter hr (hsingle hforRight)
        obtain ⟨so, sp, sc, si⟩ := load_wrapFilter hs (hsingle hstay)
        -- at least one conjunct moves
        have hsome : 1 ≤ forLeft.length + forRight.length := by
          cases hfl : forLeft with
          | cons c rest => simp only [length_cons]; omega
          | nil =>
            cases hfr : forRight with
            | cons c rest => simp only [length_cons]; omega
            | nil => simp [hfl, hfr] at hmoved
        apply Lighter.of_fewer
        · rw [so]
          simp only [load, Load.node, Load.beside, lo, ro]
          omega
        · rw [sp]
          simp only [load, Load.node, Load.beside, lp, rp]
          omega
        · rw [sc]
          simp only [load, Load.node, Load.beside, lc, rc, conjunctsOf]
          omega
        · left
          rw [si]
          simp only [load, Load.node, Load.beside, li, ri, lo, ro, conjunctsOf, ← hlength,
            Nat.add_mul, Nat.mul_add]
          have hl := Nat.zero_le (forLeft.length * (load right).obstacles)
          have hr := Nat.zero_le (forRight.length * (load left).obstacles)
          omega
    · exact nomatch h
  · exact nomatch h

theorem FiresWhere.lighter (h : FiresWhere planRules Settles above p p') : Lighter p' p := by
  obtain ⟨⟨rule, hrule, hfires⟩, hsettles⟩ := h
  simp only [planRules, mem_cons, not_mem_nil, or_false] at hrule
  rcases hrule with rfl | rfl | rfl | rfl | rfl | rfl | rfl
  · exact lighter_combineAdjacentFilters (Except.ok.inj hfires)
  · exact lighter_pushFilterDown (Except.ok.inj hfires)
  · exact lighter_splitFilterAtJoin hfires
  · exact lighter_pushLimitDown (Except.ok.inj hfires)
  · exact lighter_limitIntoSource (Except.ok.inj hfires)
  · exact lighter_columnPruning (Except.ok.inj hfires) hsettles
  · exact lighter_collapseDuplicateWithColumn (Except.ok.inj hfires) hsettles

/-- Rounds that never throw, widen a selection or read a column set nearer get quiet; if they do
within the rounds of `optimizePlan`, optimizing its result again changes nothing. -/
theorem rewriting_settles {plans : Nat → LogicalPlan κ}
    (hround : ∀ k, rewrite planRules (plans k) = .ok (plans (k + 1)))
    (hmeets : ∀ k, RoundMeets planRules Settles (plans k)) :
    (∃ k, Quiet planRules (plans k) ∧ rewrite planRules (plans k) = .ok (plans k)) ∧
      ((∃ k ≤ maxIterations, Quiet planRules (plans k)) → ∀ q,
        optimizePlan planRules (plans 0) = .ok q →
          Quiet planRules q ∧ optimizePlan planRules q = .ok q) := by
  constructor
  · have hwf : WellFounded fun p' p : LogicalPlan κ =>
        Inside (FiresWhere planRules Settles) none p p' :=
      Subrelation.wf (fun h => lighter_inside FiresWhere.lighter h) wellFounded_lighter
    obtain ⟨k, hquiet⟩ := exists_quiet hround hmeets hwf
    have hstays : plans (k + 1) = plans k := plans_of_quiet hround hquiet 1
    exact ⟨k, hquiet, hstays ▸ hround k⟩
  · rintro ⟨k, hk, hquiet⟩ q hq
    have hstays : plans maxIterations = plans k := by
      have h := plans_of_quiet hround hquiet (maxIterations - k)
      rwa [Nat.add_sub_cancel' hk] at h
    have hq' := rewriteRounds_eq hround maxIterations 0
    rw [Nat.zero_add] at hq'
    obtain rfl : plans maxIterations = q := Except.ok.inj (hq'.symm.trans hq)
    refine ⟨hstays ▸ hquiet, ?_⟩
    have hagain := rewriteRounds_eq hround maxIterations maxIterations
    rwa [plans_of_quiet hround (hstays ▸ hquiet)] at hagain

end Rules

def selects : Nat → LogicalPlan JsValue
  | 0 => sourceOf []
  | n + 1 => .select ["a", "b"] (selects n)

def filterOfB (input : LogicalPlan JsValue) : LogicalPlan JsValue :=
  .filter (fun row => cell row "b") (some (.col "b")) input

theorem rewrite_selects (n : Nat) : rewrite planRules (selects n) = .ok (selects n) := by
  induction n with
  | zero => rfl
  | succ n ih =>
    rw [selects, rewrite, ih]
    cases n <;> rfl

theorem rewrite_filterOfB (n : Nat) :
    rewrite planRules (filterOfB (selects n)) = .ok (filterOfB (selects n)) := by
  rw [filterOfB, rewrite, rewrite_selects]
  cases n <;> rfl

/-- A selection of `b` that moves below the filter by `b`, where it stays. -/
def selectedB : Nat → LogicalPlan JsValue
  | 0 => .select ["b"] (filterOfB (sourceOf []))
  | _ + 1 => filterOfB (.select ["b"] (sourceOf []))

theorem rewrite_selectedB (k : Nat) :
    rewrite planRules (selectedB k) = .ok (selectedB (k + 1)) := by
  cases k <;> rfl

theorem rewriting_settles_selectedB :
    (∃ k, Quiet planRules (selectedB k) ∧
        rewrite planRules (selectedB k) = .ok (selectedB k)) ∧
      ((∃ k ≤ maxIterations, Quiet planRules (selectedB k)) → ∀ q,
        optimizePlan planRules (selectedB 0) = .ok q →
          Quiet planRules q ∧ optimizePlan planRules q = .ok q) := by
  apply rewriting_settles rewrite_selectedB
  intro k
  cases k with
  | zero =>
    simp only [selectedB, filterOfB, sourceOf, RoundMeets, Settles, true_and]
    have htop : ∀ input', rewrite planRules (filterOfB (sourceOf [])) = .ok input' →
        Settles (.select ["b"] input') := by
      intro input' hinput
      cases hinput
      intro _ c hc
      exact hc
    exact ⟨fun _ _ => trivial, htop⟩
  | succ k =>
    simp only [selectedB, filterOfB, sourceOf, RoundMeets, Settles, true_and]
    exact ⟨fun _ h => by cases h; trivial, fun _ h => by cases h; trivial⟩

/-- A selection of `a` above a filter by `b` is widened in every round. -/
theorem widening_counterexample : ¬ ∀ p : LogicalPlan JsValue, ∃ k q,
    rewriteRounds planRules k p = .ok q ∧ rewrite planRules q = .ok q := by
  intro h
  let plans : Nat → LogicalPlan JsValue := fun n => .select ["a"] (filterOfB (selects n))
  have hround : ∀ n, rewrite planRules (plans n) = .ok (plans (n + 1)) := by
    intro n
    show rewrite planRules (.unary _ _) = _
    rw [rewrite, rewrite_filterOfB]
    cases n <;> rfl
  obtain ⟨k, q, hrounds, hfixed⟩ := h (plans 0)
  rw [rewriteRounds_eq hround k 0, Nat.zero_add] at hrounds
  obtain rfl : plans k = q := Except.ok.inj hrounds
  have heq : plans (k + 1) = plans k := Except.ok.inj ((hround k).symm.trans hfixed)
  have hnodes := congrArg (fun p => (load p).nodes) heq
  simp [plans, filterOfB, selects, load, Load.node] at hnodes

end Promin.Data
