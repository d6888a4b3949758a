import Promin.Data.PlanOptimizer

/-!
# Rewriting inside a plan

`Inside R above p p'` applies a relation on plans at one node of a plan. The
relation is told the node right above, because a limit looks at the node it
stands on (`executePlan_topN`).
-/

namespace Promin.Data

open List Relation

theorem exists_of_bind {ε α β : Type} {x : Except ε α} {f : α → Except ε β} {b : β}
    (h : x >>= f = .ok b) : ∃ a, x = .ok a ∧ f a = .ok b := by
  cases x with
  | error e => cases h
  | ok a => exact ⟨a, rfl, h⟩

section Steps

variable {κ : Type}

/-- `R` relates the plans at one place, and they are the same around it. -/
inductive Inside (R : Option (UnaryNode κ) → LogicalPlan κ → LogicalPlan κ → Prop) :
    Option (UnaryNode κ) → LogicalPlan κ → LogicalPlan κ → Prop
  | here {above p p'} : R above p p' → Inside R above p p'
  | unary {above p p'} (node) : Inside R (some node) p p' →
    Inside R above (.unary node p) (.unary node p')
  | joinLeft {above p p'} (right on type) : Inside R none p p' →
    Inside R above (.join p right on type) (.join p' right on type)
  | joinRight {above p p'} (left on type) : Inside R none p p' →
    Inside R above (.join left p on type) (.join left p' on type)
  | unionLeft {above p p'} (right) : Inside R none p p' →
    Inside R above (.union p right) (.union p' right)
  | unionRight {above p p'} (left) : Inside R none p p' →
    Inside R above (.union left p) (.union left p')
  | concat {above p p'} (before after) : Inside R none p p' →
    Inside R above (.concat (before ++ p :: after)) (.concat (before ++ p' :: after))

variable {R : Option (UnaryNode κ) → LogicalPlan κ → LogicalPlan κ → Prop}
  {above : Option (UnaryNode κ)} {p p' : LogicalPlan κ}

theorem Inside.imp {R' : Option (UnaryNode κ) → LogicalPlan κ → LogicalPlan κ → Prop}
    (hR : ∀ {above p p'}, R above p p' → R' above p p') (h : Inside R above p p') :
    Inside R' above p p' := by
  induction h with
  | here hstep => exact .here (hR hstep)
  | unary node _ ih => exact .unary node ih
  | joinLeft right on type _ ih => exact .joinLeft right on type ih
  | joinRight left on type _ ih => exact .joinRight left on type ih
  | unionLeft right _ ih => exact .unionLeft right ih
  | unionRight left _ ih => exact .unionRight left ih
  | concat before after _ ih => exact .concat before after ih

def UnaryNode.isSort : UnaryNode κ → Bool
  | .sort _ => true
  | _ => false

def UnaryNode.isLimit : UnaryNode κ → Bool
  | .limit _ => true
  | _ => false

theorem topNInput_of_not_limit {node : UnaryNode κ} (h : node.isLimit = false)
    (input : LogicalPlan κ) : topNInput node input = none := by
  cases htop : topNInput node input with
  | none => rfl
  | some t =>
    obtain ⟨rfl, -⟩ := topNInput_eq_some htop
    simp [UnaryNode.isLimit] at h

/-- A plan the shortcut of a limit does not see. -/
def NotSorted (p : LogicalPlan κ) : Prop := ∀ node, topNInput node p = none

theorem notSorted_unary {node : UnaryNode κ} (h : node.isSort = false)
    (input : LogicalPlan κ) : NotSorted (.unary node input) := by
  intro node'
  cases hnode : topNInput node' (.unary node input) with
  | none => rfl
  | some t =>
    obtain ⟨-, heq⟩ := topNInput_eq_some hnode
    cases heq
    simp [UnaryNode.isSort] at h

theorem notSorted_of_forall_ne (h : ∀ node input, p ≠ .unary node input) : NotSorted p := by
  intro node
  cases hnode : topNInput node p with
  | none => rfl
  | some t => exact absurd (topNInput_eq_some hnode).2 (h _ _)

theorem notSorted_source (src : SourcePlan κ) : NotSorted (.source src) :=
  notSorted_of_forall_ne fun _ _ h => nomatch h

theorem notSorted_join (left right : LogicalPlan κ) (on : JoinOn) (type : JoinType) :
    NotSorted (.join left right on type) :=
  notSorted_of_forall_ne fun _ _ h => nomatch h

theorem notSorted_union (left right : LogicalPlan κ) : NotSorted (.union left right) :=
  notSorted_of_forall_ne fun _ _ h => nomatch h

theorem notSorted_concat (inputs : List (LogicalPlan κ)) : NotSorted (.concat inputs) :=
  notSorted_of_forall_ne fun _ _ h => nomatch h

variable [JsCells κ] {mode : ExecMode}

structure SameUnder (mode : ExecMode) (above : Option (UnaryNode κ)) (p p' : LogicalPlan κ) :
    Prop where
  rows : executePlan mode p' = executePlan mode p
  under : ∀ node, above = some node →
    executePlan mode (.unary node p') = executePlan mode (.unary node p)

theorem SameUnder.of_notSorted (hrows : executePlan mode p' = executePlan mode p)
    (hp : NotSorted p) (hp' : NotSorted p') : SameUnder mode above p p' :=
  ⟨hrows, fun node _ => executePlan_unary_congr (hp node) (hp' node) hrows⟩

theorem SameUnder.unary {node : UnaryNode κ} (h : SameUnder mode (some node) p p') :
    SameUnder mode above (.unary node p) (.unary node p') := by
  have hrows := h.under node rfl
  refine ⟨hrows, fun node' _ => ?_⟩
  cases htop : topNInput node' (.unary node p) with
  | none =>
    have htop' : topNInput node' (.unary node p') = none := by
      cases htop' : topNInput node' (.unary node p') with
      | none => rfl
      | some t =>
        obtain ⟨rfl, heq⟩ := topNInput_eq_some htop'
        cases heq
        cases htop
    exact executePlan_unary_congr htop htop' hrows
  | some t =>
    obtain ⟨rfl, heq⟩ := topNInput_eq_some htop
    cases heq
    rw [executePlan_topN, executePlan_topN, h.rows]

theorem executeAll_congr (before after : List (LogicalPlan κ))
    (h : executePlan mode p' = executePlan mode p) :
    executeAll mode (before ++ p' :: after) = executeAll mode (before ++ p :: after) := by
  induction before with
  | nil => simp only [nil_append, executeAll_cons, h]
  | cons q before ih => simp only [cons_append, executeAll_cons, ih]

section

variable (hR : ∀ {above p p'}, R above p p' → SameUnder mode above p p')
include hR

theorem sameUnder_inside (h : Inside R above p p') : SameUnder mode above p p' := by
  induction h with
  | here hstep => exact hR hstep
  | unary node _ ih => exact ih.unary
  | joinLeft right on type _ ih | joinRight left on type _ ih =>
    apply SameUnder.of_notSorted _ (notSorted_join _ _ _ _) (notSorted_join _ _ _ _)
    rw [executePlan_join, executePlan_join, ih.rows]
  | unionLeft right _ ih | unionRight left _ ih =>
    apply SameUnder.of_notSorted _ (notSorted_union _ _) (notSorted_union _ _)
    rw [executePlan_union, executePlan_union, ih.rows]
  | concat before after _ ih =>
    apply SameUnder.of_notSorted _ (notSorted_concat _) (notSorted_concat _)
    rw [executePlan_concat, executePlan_concat, executeAll_congr before after ih.rows]

theorem sameUnder_steps (h : ReflTransGen (Inside R above) p p') :
    executePlan mode p' = executePlan mode p := by
  induction h with
  | refl => rfl
  | tail _ hstep ih => rw [(sameUnder_inside hR hstep).rows, ih]

end

end Steps

/-!
## Rounds of the rewriter

A round of `rewrite` either finds no rule that answers anywhere in the plan,
which then stays as it is, or it is a run of at least one rule application
(`rewrite_round`).
-/

section Rounds

variable {κ : Type} {rules : List (Rule κ)} {C : LogicalPlan κ → Prop}
  {D : Option (UnaryNode κ) → LogicalPlan κ → Prop} {above : Option (UnaryNode κ)}
  {p p' : LogicalPlan κ}

def Fires (rules : List (Rule κ)) (_above : Option (UnaryNode κ)) (p p' : LogicalPlan κ) : Prop :=
  ∃ rule ∈ rules, rule p = .ok (some p')

abbrev RuleSteps (rules : List (Rule κ)) (above : Option (UnaryNode κ)) :
    LogicalPlan κ → LogicalPlan κ → Prop :=
  ReflTransGen (Inside (Fires rules) above)

/-- No rule fires anywhere in the plan. -/
def Quiet (rules : List (Rule κ)) (p : LogicalPlan κ) : Prop :=
  ∀ above p', ¬ Inside (Fires rules) above p p'

def FiresWhere (rules : List (Rule κ)) (C : LogicalPlan κ → Prop)
    (above : Option (UnaryNode κ)) (p p' : LogicalPlan κ) : Prop :=
  Fires rules above p p' ∧ C p

mutual

/-- `C` holds wherever a round looks, of the plan as it is by then. -/
def RoundMeets (rules : List (Rule κ)) (C : LogicalPlan κ → Prop) : LogicalPlan κ → Prop
  | .source src => C (.source src)
  | .unary node input => RoundMeets rules C input ∧
    ∀ input', rewrite rules input = .ok input' → C (.unary node input')
  | .join left right on type => RoundMeets rules C left ∧ RoundMeets rules C right ∧
    ∀ left' right', rewrite rules left = .ok left' → rewrite rules right = .ok right' →
      C (.join left' right' on type)
  | .union left right => RoundMeets rules C left ∧ RoundMeets rules C right ∧
    ∀ left' right', rewrite rules left = .ok left' → rewrite rules right = .ok right' →
      C (.union left' right')
  | .concat inputs => AllMeet rules C inputs ∧
    ∀ inputs', rewriteAll rules inputs = .ok inputs' → C (.concat inputs')

def AllMeet (rules : List (Rule κ)) (C : LogicalPlan κ → Prop) : List (LogicalPlan κ) → Prop
  | [] => True
  | input :: inputs => RoundMeets rules C input ∧ AllMeet rules C inputs

end

mutual

/-- The condition holds of every plan the rules are asked about in a round, under the node right
above it. -/
def RoundWithin (rules : List (Rule κ)) (D : Option (UnaryNode κ) → LogicalPlan κ → Prop)
    (above : Option (UnaryNode κ)) : LogicalPlan κ → Prop
  | .source src => D above (.source src)
  | .unary node input => RoundWithin rules D (some node) input ∧
    ∀ input', rewrite rules input = .ok input' → D above (.unary node input')
  | .join left right on type => RoundWithin rules D none left ∧ RoundWithin rules D none right ∧
    ∀ left' right', rewrite rules left = .ok left' → rewrite rules right = .ok right' →
      D above (.join left' right' on type)
  | .union left right => RoundWithin rules D none left ∧ RoundWithin rules D none right ∧
    ∀ left' right', rewrite rules left = .ok left' → rewrite rules right = .ok right' →
      D above (.union left' right')
  | .concat inputs => AllWithin rules D inputs ∧
    ∀ inputs', rewriteAll rules inputs = .ok inputs' → D above (.concat inputs')

def AllWithin (rules : List (Rule κ)) (D : Option (UnaryNode κ) → LogicalPlan κ → Prop) :
    List (LogicalPlan κ) → Prop
  | [] => True
  | input :: inputs => RoundWithin rules D none input ∧ AllWithin rules D inputs

end

mutual

theorem RoundMeets.within (above : Option (UnaryNode κ)) (p : LogicalPlan κ)
    (h : RoundMeets rules C p) : RoundWithin rules (fun _ => C) above p := by
  cases p with
  | source src => exact h
  | unary node input => exact ⟨RoundMeets.within (some node) input h.1, h.2⟩
  | join left right on type | union left right =>
    exact ⟨RoundMeets.within none left h.1, RoundMeets.within none right h.2.1, h.2.2⟩
  | concat inputs => exact ⟨AllMeet.within inputs h.1, h.2⟩

theorem AllMeet.within (inputs : List (LogicalPlan κ)) (h : AllMeet rules C inputs) :
    AllWithin rules (fun _ => C) inputs := by
  cases inputs with
  | nil => exact h
  | cons input inputs => exact ⟨RoundMeets.within none input h.1, AllMeet.within inputs h.2⟩

end

/-- An application of the first rule that answers. -/
structure Applies (rules : List (Rule κ)) (D : Option (UnaryNode κ) → LogicalPlan κ → Prop)
    (above : Option (UnaryNode κ)) (p p' : LogicalPlan κ) : Prop where
  fires : Fires rules above p p'
  applied : applyRules rules p = .ok p'
  within : D above p

/-- At the top of a plan: no rule answers, or the plan is replaced by an answer. -/
theorem applyRules_round (above : Option (UnaryNode κ)) (h : applyRules rules p = .ok p') :
    ((∀ q, ¬ Fires rules above p q) ∧ p' = p) ∨ Fires rules above p p' := by
  induction rules with
  | nil =>
    cases h
    have hnone : ∀ q, ¬ Fires ([] : List (Rule κ)) above p q := by
      intro q hq
      obtain ⟨r, hr, -⟩ := hq
      cases hr
    exact .inl ⟨hnone, rfl⟩
  | cons rule rest ih =>
    rw [applyRules] at h
    cases hrule : rule p with
    | error e => simp [hrule, bind, Except.bind] at h
    | ok answer =>
      cases answer with
      | some rewritten =>
        simp only [hrule, bind, Except.bind, pure, Except.pure, Except.ok.injEq] at h
        exact .inr ⟨rule, mem_cons_self, h ▸ hrule⟩
      | none =>
        simp only [hrule, bind, Except.bind] at h
        cases ih h with
        | inr hfires =>
          obtain ⟨r, hr, hfire⟩ := hfires
          exact .inr ⟨r, mem_cons_of_mem _ hr, hfire⟩
        | inl hnone =>
          refine .inl ⟨fun q hq => ?_, hnone.2⟩
          obtain ⟨r, hr, hfire⟩ := hq
          cases mem_cons.mp hr with
          | inl heq =>
            subst heq
            rw [hrule] at hfire
            cases hfire
          | inr hrest => exact hnone.1 q ⟨r, hrest, hfire⟩

def QuietBelow (rules : List (Rule κ)) (p : LogicalPlan κ) : Prop :=
  ∀ above p', Inside (Fires rules) above p p' → Fires rules above p p'

theorem quietBelow_source (src : SourcePlan κ) : QuietBelow rules (.source src) := by
  intro above p' h
  cases h with
  | here hfires => exact hfires

theorem quietBelow_unary {node : UnaryNode κ} {input : LogicalPlan κ} (h : Quiet rules input) :
    QuietBelow rules (.unary node input) := by
  intro above p' hstep
  cases hstep with
  | here hfires => exact hfires
  | unary _ hinside => exact absurd hinside (h _ _)

theorem quietBelow_join {left right : LogicalPlan κ} {on : JoinOn} {type : JoinType}
    (hl : Quiet rules left) (hr : Quiet rules right) :
    QuietBelow rules (.join left right on type) := by
  intro above p' hstep
  cases hstep with
  | here hfires => exact hfires
  | joinLeft _ _ _ hinside => exact absurd hinside (hl _ _)
  | joinRight _ _ _ hinside => exact absurd hinside (hr _ _)

theorem quietBelow_union {left right : LogicalPlan κ} (hl : Quiet rules left)
    (hr : Quiet rules right) : QuietBelow rules (.union left right) := by
  intro above p' hstep
  cases hstep with
  | here hfires => exact hfires
  | unionLeft _ hinside => exact absurd hinside (hl _ _)
  | unionRight _ hinside => exact absurd hinside (hr _ _)

theorem quietBelow_concat {inputs : List (LogicalPlan κ)} (h : ∀ p ∈ inputs, Quiet rules p) :
    QuietBelow rules (.concat inputs) := by
  intro above p' hstep
  cases hstep with
  | here hfires => exact hfires
  | concat before after hinside => exact absurd hinside (h _ (by simp) _ _)

theorem round_of_below {q : LogicalPlan κ} (hbelow : (QuietBelow rules p ∧ p' = p) ∨
      TransGen (Inside (Applies rules D) above) p p')
    (htop : applyRules rules p' = .ok q) (hD : D above p') :
    (Quiet rules p ∧ q = p) ∨ TransGen (Inside (Applies rules D) above) p q := by
  cases applyRules_round above htop with
  | inl hnone =>
    obtain ⟨hnone, rfl⟩ := hnone
    cases hbelow with
    | inl hquiet =>
      obtain ⟨hquiet, rfl⟩ := hquiet
      exact .inl ⟨fun above' r hstep => hnone r (hquiet above' r hstep), rfl⟩
    | inr hsteps => exact .inr hsteps
  | inr hfires =>
    have hstep : Inside (Applies rules D) above p' q := .here ⟨hfires, htop, hD⟩
    cases hbelow with
    | inl hquiet =>
      obtain ⟨-, rfl⟩ := hquiet
      exact .inr (.single hstep)
    | inr hsteps => exact .inr (hsteps.tail hstep)

theorem round_of_parts {R : LogicalPlan κ → LogicalPlan κ → Prop} {quietLeft quietRight : Prop}
    {start middle stop : LogicalPlan κ}
    (hl : (quietLeft ∧ middle = start) ∨ TransGen R start middle)
    (hr : (quietRight ∧ stop = middle) ∨ TransGen R middle stop) :
    ((quietLeft ∧ quietRight) ∧ stop = start) ∨ TransGen R start stop := by
  cases hl with
  | inl hquiet =>
    obtain ⟨hquiet, rfl⟩ := hquiet
    cases hr with
    | inl hquiet' => exact .inl ⟨⟨hquiet, hquiet'.1⟩, hquiet'.2⟩
    | inr hsteps => exact .inr hsteps
  | inr hsteps =>
    cases hr with
    | inl hquiet' =>
      obtain ⟨-, rfl⟩ := hquiet'
      exact .inr hsteps
    | inr hsteps' => exact .inr (hsteps.trans hsteps')

theorem round_in_context (above : Option (UnaryNode κ)) (f : LogicalPlan κ → LogicalPlan κ)
    {above' : Option (UnaryNode κ)} (hf : ∀ {p p'}, Inside (Applies rules D) above' p p' →
      Inside (Applies rules D) above (f p) (f p'))
    (h : (Quiet rules p ∧ p' = p) ∨ TransGen (Inside (Applies rules D) above') p p') :
    (Quiet rules p ∧ f p' = f p) ∨
      TransGen (Inside (Applies rules D) above) (f p) (f p') := by
  cases h with
  | inl hquiet => exact .inl ⟨hquiet.1, by rw [hquiet.2]⟩
  | inr hsteps => exact .inr (hsteps.lift f fun _ _ hstep => hf hstep)

theorem round_imp {R : LogicalPlan κ → LogicalPlan κ → Prop} {quiet quiet' : Prop}
    (himp : quiet → quiet') (h : (quiet ∧ p' = p) ∨ TransGen R p p') :
    (quiet' ∧ p' = p) ∨ TransGen R p p' :=
  h.imp_left fun hquiet => ⟨himp hquiet.1, hquiet.2⟩

mutual

theorem rewrite_round (above : Option (UnaryNode κ)) (p : LogicalPlan κ) {p' : LogicalPlan κ}
    (h : rewrite rules p = .ok p') (hround : RoundWithin rules D above p) :
    (Quiet rules p ∧ p' = p) ∨
      TransGen (Inside (Applies rules D) above) p p' := by
  cases p with
  | source src =>
    rw [rewrite] at h
    rw [RoundWithin] at hround
    exact round_of_below (.inl ⟨quietBelow_source src, rfl⟩) h hround
  | unary node input =>
    rw [rewrite] at h
    rw [RoundWithin] at hround
    obtain ⟨input', hinput, h⟩ := exists_of_bind h
    have hbelow := round_in_context above (.unary node) (.unary node)
      (rewrite_round (some node) input hinput hround.1)
    exact round_of_below (round_imp quietBelow_unary hbelow) h (hround.2 input' hinput)
  | join left right on type =>
    -- the steps in the left input come first, with the right one as it was
    rw [rewrite] at h
    rw [RoundWithin] at hround
    obtain ⟨left', hleft, h⟩ := exists_of_bind h
    obtain ⟨right', hright, h⟩ := exists_of_bind h
    have hl := round_in_context above (fun l => .join l right on type)
      (.joinLeft right on type) (rewrite_round none left hleft hround.1)
    have hr := round_in_context above (fun r => .join left' r on type)
      (.joinRight left' on type) (rewrite_round none right hright hround.2.1)
    exact round_of_below (round_imp (fun hq => quietBelow_join hq.1 hq.2) (round_of_parts hl hr))
      h (hround.2.2 left' right' hleft hright)
  | union left right =>
    rw [rewrite] at h
    rw [RoundWithin] at hround
    obtain ⟨left', hleft, h⟩ := exists_of_bind h
    obtain ⟨right', hright, h⟩ := exists_of_bind h
    have hl := round_in_context above (fun l => .union l right)
      (.unionLeft right) (rewrite_round none left hleft hround.1)
    have hr := round_in_context above (fun r => .union left' r)
      (.unionRight left') (rewrite_round none right hright hround.2.1)
    exact round_of_below (round_imp (fun hq => quietBelow_union hq.1 hq.2) (round_of_parts hl hr))
      h (hround.2.2 left' right' hleft hright)
  | concat inputs =>
    rw [rewrite] at h
    rw [RoundWithin] at hround
    obtain ⟨inputs', hinputs, h⟩ := exists_of_bind h
    have hbelow := rewriteAll_round above [] inputs hinputs hround.1
    exact round_of_below (round_imp quietBelow_concat hbelow) h (hround.2 inputs' hinputs)

theorem rewriteAll_round (above : Option (UnaryNode κ)) (before inputs : List (LogicalPlan κ))
    {inputs' : List (LogicalPlan κ)} (h : rewriteAll rules inputs = .ok inputs')
    (hround : AllWithin rules D inputs) :
    ((∀ p ∈ inputs, Quiet rules p) ∧
        LogicalPlan.concat (before ++ inputs') = .concat (before ++ inputs)) ∨
      TransGen (Inside (Applies rules D) above) (.concat (before ++ inputs))
        (.concat (before ++ inputs')) := by
  cases inputs with
  | nil =>
    cases h
    exact .inl ⟨forall_mem_nil _, rfl⟩
  | cons p rest =>
    rw [rewriteAll] at h
    rw [AllWithin] at hround
    obtain ⟨p', hp, h⟩ := exists_of_bind h
    obtain ⟨rest', hrest, h⟩ := exists_of_bind h
    obtain rfl := Except.ok.inj h
    have hfirst := round_in_context above (fun q => .concat (before ++ q :: rest))
      (.concat before rest) (rewrite_round none p hp hround.1)
    have hothers := rewriteAll_round above (before ++ [p']) rest hrest hround.2
    simp only [append_assoc, singleton_append] at hothers
    exact round_imp (fun hq => forall_mem_cons.mpr hq) (round_of_parts hfirst hothers)

end

theorem rewrite_meets (h : rewrite rules p = .ok p') (hmeets : RoundMeets rules C p) :
    (Quiet rules p ∧ p' = p) ∨
      TransGen (Inside (FiresWhere rules C) none) p p' :=
  (rewrite_round none p h (RoundMeets.within none p hmeets)).imp_right fun hsteps =>
    hsteps.lift id fun _ _ hstep => hstep.imp fun happlies => ⟨happlies.fires, happlies.within⟩

variable {plans : Nat → LogicalPlan κ}

theorem exists_quiet (hround : ∀ k, rewrite rules (plans k) = .ok (plans (k + 1)))
    (hmeets : ∀ k, RoundMeets rules C (plans k))
    (hwf : WellFounded fun p' p => Inside (FiresWhere rules C) none p p') :
    ∃ k, Quiet rules (plans k) := by
  have hfrom : ∀ p k, plans k = p → ∃ k, Quiet rules (plans k) := by
    intro p
    induction p using hwf.transGen.induction with
    | h p ih =>
      rintro k rfl
      cases rewrite_meets (hround k) (hmeets k) with
      | inl hquiet => exact ⟨k, hquiet.1⟩
      | inr hsteps => exact ih (plans (k + 1)) (transGen_swap.mpr hsteps) (k + 1) rfl
  exact hfrom (plans 0) 0 rfl

theorem roundMeets_true (p : LogicalPlan κ) : RoundMeets rules (fun _ => True) p := by
  induction p using LogicalPlan.inductionOn with
  | source src => simp [RoundMeets]
  | unary node input ih => simp [RoundMeets, ih]
  | join left right on type ihl ihr | union left right ihl ihr => simp [RoundMeets, ihl, ihr]
  | concat inputs ih =>
    have hall : AllMeet rules (fun _ => True) inputs := by
      induction inputs with
      | nil => simp [AllMeet]
      | cons p rest ihrest =>
        obtain ⟨hp, hrest⟩ := forall_mem_cons.mp ih
        exact ⟨hp, ihrest hrest⟩
    simp [RoundMeets, hall]

theorem rewrite_of_quiet (h : Quiet rules p) (hok : rewrite rules p = .ok p') : p' = p := by
  cases rewrite_meets hok (roundMeets_true p) with
  | inl hquiet => exact hquiet.2
  | inr hsteps =>
    obtain ⟨q, hstep, -⟩ := TransGen.head'_iff.mp hsteps
    exact absurd (hstep.imp fun hfires => hfires.1) (h none q)

theorem rewriteRounds_eq (hround : ∀ k, rewrite rules (plans k) = .ok (plans (k + 1))) (n k : Nat) :
    rewriteRounds rules n (plans k) = .ok (plans (k + n)) := by
  induction n generalizing k with
  | zero => rfl
  | succ n ih =>
    rw [rewriteRounds, hround k]
    show rewriteRounds rules n (plans (k + 1)) = _
    rw [ih (k + 1)]
    congr 2
    omega

theorem plans_of_quiet (hround : ∀ k, rewrite rules (plans k) = .ok (plans (k + 1))) {k : Nat}
    (h : Quiet rules (plans k)) (n : Nat) : plans (k + n) = plans k := by
  induction n with
  | zero => rfl
  | succ n ih =>
    have hquiet : Quiet rules (plans (k + n)) := ih ▸ h
    rw [← Nat.add_assoc, rewrite_of_quiet hquiet (hround (k + n)), ih]

/-! ## Rounds that keep what a plan computes -/

/-- `D` holds wherever the first `n` rounds look. -/
def RoundsWithin (rules : List (Rule κ)) (D : Option (UnaryNode κ) → LogicalPlan κ → Prop) :
    Nat → LogicalPlan κ → Prop
  | 0, _ => True
  | n + 1, p => RoundWithin rules D none p ∧
    ∀ p', rewrite rules p = .ok p' → RoundsWithin rules D n p'

theorem rewriteRounds_rows [JsCells κ] {mode : ExecMode} (hD : ∀ {above p p'}, D above p →
      applyRules rules p = .ok p' → SameUnder mode above p p')
    (n : Nat) (h : rewriteRounds rules n p = .ok p') (hrounds : RoundsWithin rules D n p) :
    executePlan mode p' = executePlan mode p := by
  induction n generalizing p with
  | zero =>
    cases h
    rfl
  | succ n ih =>
    rw [rewriteRounds] at h
    obtain ⟨q, hp, h⟩ := exists_of_bind h
    rw [ih h (hrounds.2 q hp)]
    cases rewrite_round none p hp hrounds.1 with
    | inl hquiet => rw [hquiet.2]
    | inr hsteps =>
      exact sameUnder_steps (fun happlies => hD happlies.within happlies.applied)
        hsteps.to_reflTransGen

/-- A plan that a round leaves as it is, is left so by all rounds. -/
theorem roundsWithin_of_fixed (hfixed : rewrite rules p = .ok p)
    (hround : RoundWithin rules D none p) (n : Nat) : RoundsWithin rules D n p := by
  induction n with
  | zero => trivial
  | succ n ih =>
    refine ⟨hround, fun p' hp' => ?_⟩
    rw [hfixed, Except.ok.injEq] at hp'
    exact hp' ▸ ih

end Rounds

end Promin.Data
