import Promin.Spec.JoinFilters

/-!
# What the optimizer computes

`optimizePlan` applies the first rule that answers, bottom up and in up to
sixteen rounds. Where each answer meets the condition of its rule, the plan it
returns computes what the plan it was given computes.
-/

namespace Promin.Data

section Optimizer

variable {κ : Type} [JsCells κ] {mode : ExecMode} {above : Option (UnaryNode κ)}
  {p p' : LogicalPlan κ}

open LogicalPlan

/-- One application of a rule of the optimizer that meets the condition of the rule. -/
inductive OptimizerStep (mode : ExecMode) (above : Option (UnaryNode κ)) (p p' : LogicalPlan κ) :
    Prop
  | filter : FilterStep mode (fun _ => False) above p p' → OptimizerStep mode above p p'
  | split {fn expr left right on type split} :
    p = .filter fn (some expr) (.join left right on type) →
    splitFilterAtJoin p = .ok (some p') → joinSplit expr left right = some split →
    (∀ row, Evaluates row expr (fn row)) → SplitSafe mode left right on type split →
    OptimizerStep mode above p p'
  | limit : LimitStep mode above p p' → OptimizerStep mode above p p'
  | collapse : CollapseStep above p p' → OptimizerStep mode above p p'

theorem notSorted_wrapFilter {input q : LogicalPlan κ} {conjuncts : List (ExprAst κ)}
    (hinput : NotSorted input) (h : wrapFilter input conjuncts = .ok q) : NotSorted q := by
  cases conjuncts with
  | nil =>
    cases h
    exact hinput
  | cons first rest =>
    rw [wrapFilter] at h
    obtain ⟨fn, -, h⟩ := exists_of_bind h
    exact Except.ok.inj h ▸ notSorted_unary rfl _

theorem notSorted_splitPlan {split : JoinSplit κ} {left right q : LogicalPlan κ} {on : JoinOn}
    {type : JoinType} (h : splitPlan split left right on type = .ok q) : NotSorted q := by
  rw [splitPlan] at h
  obtain ⟨leftInput, -, h⟩ := exists_of_bind h
  obtain ⟨rightInput, -, h⟩ := exists_of_bind h
  exact notSorted_wrapFilter (notSorted_join _ _ _ _) h

theorem OptimizerStep.sameUnder (h : OptimizerStep mode above p p') :
    SameUnder mode above p p' := by
  cases h with
  | filter hstep | limit hstep | collapse hstep => exact hstep.sameUnder
  | @split fn expr left right on type split heq hrule hsplit hfn hsafe =>
    subst heq
    rw [splitFilterAtJoin_eq, hsplit] at hrule
    cases hq : splitPlan split left right on type with
    | error e => simp [hq, Except.map] at hrule
    | ok q =>
      obtain rfl : q = p' := by simpa [hq, Except.map] using hrule
      have hpredicate := isPredicate_of_splitPlan hsplit hq
      obtain ⟨q', hq', hrows⟩ := executePlan_splitPlan hfn hsplit hpredicate hsafe
      rw [hq, Except.ok.injEq] at hq'
      exact .of_notSorted (hq' ▸ hrows) (notSorted_unary rfl _) (notSorted_splitPlan hq)

/-- The rules leave the plan as it is, or answer with a step that meets its condition. -/
def AnswersSafely (mode : ExecMode) (above : Option (UnaryNode κ)) (p : LogicalPlan κ) : Prop :=
  ∀ p', applyRules planRules p = .ok p' → p' = p ∨ OptimizerStep mode above p p'

/-- An optimized plan computes the rows, or fails with the error, of the plan itself. -/
theorem optimizePlan_preserves (h : RoundsWithin planRules (AnswersSafely mode) maxIterations p)
    (hok : optimizePlan planRules p = .ok p') : executePlan mode p' = executePlan mode p := by
  refine rewriteRounds_rows (fun hsafe happlied => ?_) maxIterations hok h
  cases hsafe _ happlied with
  | inl heq => exact heq ▸ ⟨rfl, fun _ _ => rfl⟩
  | inr hstep => exact hstep.sameUnder

theorem AnswersSafely.of_fixed (h : applyRules planRules p = .ok p) :
    AnswersSafely mode above p := by
  intro p' hp'
  rw [h, Except.ok.injEq] at hp'
  exact .inl hp'.symm

end Optimizer

theorem optimizePlan_preserves_filterAboveDrop :
    executePlan .executeSync (filterBelowDrop (.unary .isNotNull (.col "a"))) =
      executePlan .executeSync (filterAboveDrop (.unary .isNotNull (.col "a"))) := by
  refine optimizePlan_preserves ?_ (by rfl)
  let e : Expr JsValue := .unary .isNotNull (.col "a")
  have he : e.Built := .unary _ (.col _)
  have hreads : ReadsOnly e.ast.collectColumns e.fn := readsOnly_of_evaluates rfl he.evaluates
  have hmoved : RoundWithin planRules (AnswersSafely .executeSync) none (filterBelowDrop e) := by
    refine ⟨⟨.of_fixed rfl, ?_⟩, ?_⟩
    · intro input hinput
      cases hinput
      exact .of_fixed rfl
    · intro input hinput
      cases hinput
      exact .of_fixed rfl
  -- the first round moves the filter, the others leave the plan as it is
  refine ⟨⟨⟨.of_fixed rfl, ?_⟩, ?_⟩, ?_⟩
  · intro input hinput
    cases hinput
    exact .of_fixed rfl
  · intro input hinput p hp
    cases hinput
    cases hp
    exact .inr (.filter (.push rfl hreads trivial))
  · intro p hp
    cases hp
    exact roundsWithin_of_fixed rfl hmoved _

end Promin.Data
