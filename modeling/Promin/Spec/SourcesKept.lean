import Mathlib.Algebra.Group.Nat.Even
import Promin.Data.JsonCells
import Promin.Data.SharedArrays

/-!
# Sources kept

`Reverse` is the only node that works in place, and what it reverses is the
array of a source exactly if nothing but other `Reverse` nodes stands between
them.
-/

namespace Promin.Data

open List SharedPlan

section Shared

variable {κ : Type}

/-! ## Reversals -/

def applyReversals (done : List Nat) (memory : Memory κ) : Memory κ :=
  done.foldl Memory.reverse memory

theorem applyReversals_append (done done' : List Nat) (memory : Memory κ) :
    applyReversals (done ++ done') memory = applyReversals done' (applyReversals done memory) :=
  foldl_append

theorem applyReversals_apply (done : List Nat) (memory : Memory κ) (a : Nat) :
    applyReversals done memory a =
      if Even (done.count a) then memory a else (memory a).reverse := by
  induction done generalizing memory with
  | nil => exact (if_pos Even.zero).symm
  | cons b done ih =>
    show applyReversals done (memory.reverse b) a = _
    rw [ih, count_cons]
    by_cases hb : b = a
    · subst hb
      have hself : memory.reverse b b = (memory b).reverse := Function.update_self b _ memory
      rw [hself, beq_self_eq_true, if_pos rfl, reverse_reverse]
      by_cases heven : Even (done.count b)
      · rw [if_pos heven, if_neg fun h => Nat.even_add_one.mp h heven]
      · rw [if_neg heven, if_pos (Nat.even_add_one.mpr heven)]
    · have hother : memory.reverse b a = memory a := Function.update_of_ne (Ne.symm hb) _ memory
      rw [hother, beq_false_of_ne hb, if_neg Bool.false_ne_true, Nat.add_zero]

theorem applyReversals_eq_iff (done : List Nat) (memory : Memory κ) :
    applyReversals done memory = memory ↔
      ∀ a, (memory a).reverse = memory a ∨ Even (done.count a) := by
  rw [funext_iff]
  refine forall_congr' fun a => ?_
  rw [applyReversals_apply]
  by_cases heven : Even (done.count a)
  · simp [heven]
  · simp [heven]

theorem reverse_of_eq_nil {memory : Memory κ} {a : Nat} (h : memory a = []) :
    memory.reverse a = memory := by
  rw [Memory.reverse, h, reverse_nil, ← h, Function.update_eq_self]

/-! ## Equations -/

def SharedPlan.asUnary : SharedPlan κ → Option (UnaryNode κ × SharedPlan κ)
  | .unary node input => some (node, input)
  | _ => none

def SharedPlan.topNInput (node : UnaryNode κ) (input : SharedPlan κ) :
    Option (Nat × String × SortOrder × SharedPlan κ) :=
  topNOf node input.asUnary

theorem SharedPlan.topNInput_eq_some {node : UnaryNode κ} {input x : SharedPlan κ} {n : Nat}
    {column : String} {order : SortOrder}
    (h : topNInput node input = some (n, column, order, x)) :
    node = .limit n ∧ input = .unary (.sort (.single column order)) x := by
  obtain ⟨hnode, hbelow⟩ := topNOf_eq_some h
  refine ⟨hnode, ?_⟩
  cases input with
  | unary node' input => rw [asUnary] at hbelow; cases hbelow; rfl
  | source | join | union | concat => cases hbelow

@[elab_as_elim]
theorem SharedPlan.inductionBelow {motive : SharedPlan κ → Prop} (plan : SharedPlan κ)
    (source : ∀ array, motive (.source array))
    (unary : ∀ node input, motive input → (∀ node' x, input = .unary node' x → motive x) →
      motive (.unary node input))
    (join : ∀ left right on type, motive left → motive right → motive (.join left right on type))
    (union : ∀ left right, motive left → motive right → motive (.union left right))
    (concat : ∀ inputs, (∀ p ∈ inputs, motive p) → motive (.concat inputs)) : motive plan := by
  have hboth : motive plan ∧ ∀ node x, plan = .unary node x → motive x :=
    @SharedPlan.rec κ (fun plan => motive plan ∧ ∀ node x, plan = .unary node x → motive x)
      (fun inputs => ∀ p ∈ inputs, motive p)
      (fun array => ⟨source array, nofun⟩)
      (fun node input ih => ⟨unary node input ih.1 ih.2, fun _ _ heq => by
        cases heq
        exact ih.1⟩)
      (fun left right on type ihl ihr => ⟨join left right on type ihl.1 ihr.1, nofun⟩)
      (fun left right ihl ihr => ⟨union left right ihl.1 ihr.1, nofun⟩)
      (fun inputs ih => ⟨concat inputs ih, nofun⟩)
      (fun _ h => nomatch h)
      (fun _ _ hhead htail => forall_mem_cons.mpr ⟨hhead.1, htail⟩)
      plan
  exact hboth.1

section Run

variable [JsCells κ] {node : UnaryNode κ} {memory : Memory κ} {input plan : SharedPlan κ}

theorem executeShared_unary (h : SharedPlan.topNInput node input = none) (memory : Memory κ) :
    executeShared (.unary node input) memory =
      match executeShared input memory with
      | (.ok ref, memory) => (.ok (applyNode node ref memory).1, (applyNode node ref memory).2)
      | (.error e, memory) => (.error e, memory) := by
  have hother : ∀ n column order below, node = .limit n →
      input = .unary (.sort (.single column order)) below → False := by
    rintro n column order below rfl rfl
    cases h
  exact executeShared.eq_3 memory node input hother

/-! ## What a run reverses -/

structure Ran (plan : SharedPlan κ) (memory : Memory κ)
    (result : Except ExecError (ArrayRef κ) × Memory κ) : Prop where
  /-- The reversals are done in order, all of them unless something is thrown. -/
  reversed : ∃ done, done <+: plan.reversals ∧ result.2 = applyReversals done memory ∧
    ((∃ ref, result.1 = .ok ref) → done = plan.reversals)
  shared : ∀ a, plan.sharedSource = some a → ∀ ref, result.1 = .ok ref → ref = .shared a
  /-- Another array of a source is returned only if it is empty. -/
  empty : plan.sharedSource = none → ∀ a, result.1 = .ok (.shared a) → result.2 a = []

/-- Only a Reverse that is handed the array of a source writes to the memory. -/
theorem applyNode_ran {memory₁ : Memory κ}
    {ref : ArrayRef κ} (h : Ran input memory (.ok ref, memory₁)) :
    Ran (.unary node input) memory
      (.ok (applyNode node ref memory₁).1, (applyNode node ref memory₁).2) := by
  obtain ⟨done, -, hmemory, hall⟩ := h.reversed
  replace hall := hall ⟨ref, rfl⟩
  replace hmemory : memory₁ = applyReversals input.reversals memory := hall ▸ hmemory
  cases node with
  | reverse =>
    cases hsource : input.sharedSource with
    | some a =>
      obtain rfl := h.shared a hsource ref rfl
      have hreversals : (unary .reverse input).reversals = input.reversals ++ [a] := by
        rw [reversals, hsource]
        rfl
      refine ⟨⟨_, prefix_refl _, ?_, fun _ => rfl⟩, ?_, ?_⟩
      · rw [hreversals, applyReversals_append, ← hmemory]
        rfl
      · intro b hb ref href
        rw [sharedSource, hsource] at hb
        exact Option.some.inj hb ▸ (Except.ok.inj href).symm
      · intro hnone
        rw [sharedSource, hsource] at hnone
        exact nomatch hnone
    | none =>
      have hreversals : (unary .reverse input).reversals = input.reversals := by
        rw [reversals, hsource]
        exact append_nil _
      have hkept : (applyNode .reverse ref memory₁).2 = memory₁ := by
        cases ref with
        | shared a => exact reverse_of_eq_nil (h.empty hsource a rfl)
        | fresh rows => rfl
      refine ⟨⟨_, prefix_refl _, ?_, fun _ => rfl⟩, ?_, ?_⟩
      · rw [hreversals, hkept, hmemory]
      · intro b hb
        rw [sharedSource, hsource] at hb
        exact nomatch hb
      · intro _ a hshared
        rw [hkept]
        cases ref with
        | shared b =>
          obtain rfl : b = a := ArrayRef.shared.inj (Except.ok.inj hshared)
          exact h.empty hsource b rfl
        | fresh rows => exact nomatch Except.ok.inj hshared
  | sort keys =>
    refine ⟨⟨_, prefix_refl _, ?_, fun _ => rfl⟩, (fun _ hnone => nomatch hnone), ?_⟩
    · show (applyNode (.sort keys) ref memory₁).2 = applyReversals input.reversals memory
      unfold applyNode
      dsimp only
      split <;> exact hmemory
    · intro _ a hshared
      unfold applyNode at hshared ⊢
      dsimp only at hshared ⊢
      split at hshared
      · rename_i hempty
        obtain rfl := Except.ok.inj hshared
        rw [if_pos hempty]
        exact hempty
      · exact nomatch Except.ok.inj hshared
  | _ =>
    exact ⟨⟨_, prefix_refl _, hmemory, fun _ => rfl⟩, (fun _ hnone => nomatch hnone),
      fun _ _ hshared => nomatch Except.ok.inj hshared⟩

omit [JsCells κ] in
theorem Ran.of_error {memory' : Memory κ} {e : ExecError}
    {done : List Nat} (hstarts : done <+: plan.reversals)
    (hmemory : memory' = applyReversals done memory) : Ran plan memory (.error e, memory') :=
  ⟨⟨done, hstarts, hmemory, fun ⟨_, hok⟩ => nomatch hok⟩, (fun _ _ _ hok => nomatch hok),
    fun _ _ hok => nomatch hok⟩

omit [JsCells κ] in
theorem Ran.of_fresh {memory' : Memory κ} {rows : List (Row κ)}
    (hsource : plan.sharedSource = none)
    (hmemory : memory' = applyReversals plan.reversals memory) :
    Ran plan memory (.ok (.fresh rows), memory') where
  reversed := ⟨_, prefix_refl _, hmemory, fun _ => rfl⟩
  shared := fun _ ha => nomatch hsource.symm.trans ha
  empty := fun _ _ hok => nomatch Except.ok.inj hok

/-- Two inputs are run one after the other. -/
theorem ran_two {left right : SharedPlan κ} (hsource : plan.sharedSource = none)
    (hreversals : plan.reversals = left.reversals ++ right.reversals)
    (hleft : Ran left memory (executeShared left memory))
    (hright : ∀ memory, Ran right memory (executeShared right memory))
    (rows : ArrayRef κ → ArrayRef κ → Memory κ → List (Row κ)) :
    Ran plan memory (match executeShared left memory with
      | (.ok l, memory) =>
        match executeShared right memory with
        | (.ok r, memory) => (.ok (.fresh (rows l r memory)), memory)
        | (.error e, memory) => (.error e, memory)
      | (.error e, memory) => (.error e, memory)) := by
  cases hl : executeShared left memory with
  | mk result memory₁ =>
    rw [hl] at hleft
    obtain ⟨done, hstarts, hmemory : memory₁ = _, hall⟩ := hleft.reversed
    cases result with
    | error e =>
      refine Ran.of_error (hstarts.trans ?_) hmemory
      rw [hreversals]
      exact prefix_append _ _
    | ok l =>
      replace hall := hall ⟨l, rfl⟩
      dsimp only
      have hright := hright memory₁
      cases hr : executeShared right memory₁ with
      | mk result memory₂ =>
        rw [hr] at hright
        obtain ⟨done', hstarts', hmemory' : memory₂ = _, hall'⟩ := hright.reversed
        have hboth : memory₂ = applyReversals (left.reversals ++ done') memory := by
          rw [applyReversals_append, ← hall, ← hmemory, hmemory']
        cases result with
        | error e =>
          refine Ran.of_error ?_ hboth
          rw [hreversals]
          exact (prefix_append_right_inj _).mpr hstarts'
        | ok r =>
          apply Ran.of_fresh hsource
          rw [hreversals, ← hall' ⟨r, rfl⟩]
          exact hboth

theorem executeSharedAll_ran {inputs : List (SharedPlan κ)}
    (h : ∀ p ∈ inputs, ∀ memory, Ran p memory (executeShared p memory)) (memory : Memory κ) :
    ∃ done, done <+: reversalsAll inputs ∧
      (executeSharedAll inputs memory).2 = applyReversals done memory ∧
      ((∃ rows, (executeSharedAll inputs memory).1 = .ok rows) →
        done = reversalsAll inputs) := by
  induction inputs generalizing memory with
  | nil =>
    refine ⟨[], prefix_refl _, ?_, fun _ => ?_⟩
    · rw [executeSharedAll]
      rfl
    · rw [reversalsAll]
  | cons input inputs ih =>
    obtain ⟨hinput, hinputs⟩ := forall_mem_cons.mp h
    rw [executeSharedAll, reversalsAll]
    have hfirst := hinput memory
    cases hi : executeShared input memory with
    | mk result memory₁ =>
      rw [hi] at hfirst
      obtain ⟨done, hstarts, hmemory : memory₁ = _, hall⟩ := hfirst.reversed
      cases result with
      | error e =>
        exact ⟨done, hstarts.trans (prefix_append _ _), hmemory, fun ⟨_, hok⟩ => nomatch hok⟩
      | ok ref =>
        replace hall := hall ⟨ref, rfl⟩
        obtain ⟨done', hstarts', hmemory', hall'⟩ := ih hinputs memory₁
        dsimp only
        have hboth : applyReversals done' memory₁ =
            applyReversals (input.reversals ++ done') memory := by
          rw [applyReversals_append, ← hall, ← hmemory]
        refine ⟨input.reversals ++ done', (prefix_append_right_inj _).mpr hstarts', ?_, ?_⟩
        · rw [← hboth, ← hmemory']
          split <;> rename_i hrest <;> rw [hrest]
        · rintro ⟨rows, hok⟩
          rw [hall']
          split at hok
          · rename_i rest memory₂ hrest
            exact ⟨rest, by rw [hrest]⟩
          · exact nomatch hok

omit [JsCells κ] in
theorem reversals_unary (node : UnaryNode κ) (input : SharedPlan κ) :
    input.reversals <+: (unary node input).reversals := by
  cases node with
  | reverse =>
    rw [reversals]
    exact prefix_append _ _
  | _ => exact prefix_refl _

theorem executeShared_reversals (plan : SharedPlan κ) (memory : Memory κ) :
    Ran plan memory (executeShared plan memory) := by
  induction plan using inductionBelow generalizing memory with
  | source array =>
    rw [executeShared]
    refine ⟨⟨[], prefix_refl _, rfl, fun _ => rfl⟩, ?_, fun hnone => nomatch hnone⟩
    intro a ha ref href
    cases ha
    exact (Except.ok.inj href).symm
  | unary node input ih ihbelow =>
    cases htop : SharedPlan.topNInput node input with
    | none =>
      rw [executeShared_unary htop]
      have hinput := ih memory
      cases hi : executeShared input memory with
      | mk result memory₁ =>
        rw [hi] at hinput
        cases result with
        | ok ref => exact applyNode_ran hinput
        | error e =>
          obtain ⟨done, hstarts, hmemory, -⟩ := hinput.reversed
          exact Ran.of_error (hstarts.trans (reversals_unary node input)) hmemory
    | some t =>
      obtain ⟨n, column, order, x⟩ := t
      obtain ⟨rfl, rfl⟩ := SharedPlan.topNInput_eq_some htop
      have hx := ihbelow _ x rfl memory
      rw [executeShared]
      cases hi : executeShared x memory with
      | mk result memory₁ =>
        rw [hi] at hx
        obtain ⟨done, hstarts, hmemory, hall⟩ := hx.reversed
        cases result with
        | error e => exact Ran.of_error hstarts hmemory
        | ok ref =>
          replace hall := hall ⟨ref, rfl⟩
          dsimp only
          cases topN (ref.rows memory₁) n column order with
          | error e => exact Ran.of_error hstarts hmemory
          | ok rows => exact Ran.of_fresh rfl (hall ▸ hmemory)
  | join left right on type ihl ihr =>
    rw [executeShared]
    exact ran_two rfl (by rw [reversals]) (ihl memory) ihr
      fun l r memory => executeJoin (l.rows memory) (r.rows memory) on type
  | union left right ihl ihr =>
    rw [executeShared]
    exact ran_two rfl (by rw [reversals]) (ihl memory) ihr
      fun l r memory => distinctBy (· == ·) rowText (l.rows memory ++ r.rows memory)
  | concat inputs ih =>
    obtain ⟨done, hstarts, hmemory, hall⟩ := executeSharedAll_ran ih memory
    rw [← reversals] at hstarts hall
    rw [executeShared]
    cases hi : executeSharedAll inputs memory with
    | mk result memory₁ =>
      rw [hi] at hmemory hall
      cases result with
      | error e => exact Ran.of_error hstarts hmemory
      | ok rows => exact Ran.of_fresh rfl (hall ⟨rows, rfl⟩ ▸ hmemory)

/-! ## Plans with their own rows -/

theorem rows_applyNode {ref : ArrayRef κ}
    (h : ∀ a, ref = .shared a → node = .reverse → memory a = []) :
    (applyNode node ref memory).1.rows memory = executeNode node (ref.rows memory) := by
  cases node with
  | reverse =>
    cases ref with
    | shared a =>
      show memory a = (memory a).reverse
      rw [h a rfl rfl, reverse_nil]
    | fresh rows => rfl
  | sort keys =>
    unfold applyNode
    dsimp only
    split
    · rename_i hempty
      rw [hempty]
      cases keys <;> rfl
    · rfl
  | _ => rfl

omit [JsCells κ] in
theorem topNInput_withData (memory : Memory κ) (h : SharedPlan.topNInput node input = none) :
    topNInput node (input.withData memory) = none := by
  cases node with
  | limit n =>
    cases input with
    | unary node' x =>
      cases node' with
      | sort keys =>
        cases keys with
        | single column order => exact nomatch h
        | specs columns => rw [SharedPlan.withData]; rfl
      | _ => rw [withData]; rfl
    | _ => rw [withData]; rfl
  | _ => rfl

/-- Every source is an array of two rows. -/
def numberedRows : Memory JsValue := fun _ =>
  [⟨[("id", .num 1)], by decide⟩, ⟨[("id", .num 2)], by decide⟩]

/-- A plan that reverses no source leaves all of them as they are, and gives the rows of the plan
that holds copies. -/
theorem executeShared_eq_executePlan (plan : SharedPlan κ) (memory : Memory κ)
    (h : plan.reversals = []) : (executeShared plan memory).2 = memory ∧
      (executeShared plan memory).1.map (ArrayRef.rows memory) =
        executePlan .executeSync (plan.withData memory) := by
  -- a plan without reversals leaves the arrays alone
  have hkept : ∀ p : SharedPlan κ, p.reversals = [] →
      executeShared p memory = ((executeShared p memory).1, memory) := by
    intro p hp
    obtain ⟨done, hstarts, hmemory, -⟩ := (executeShared_reversals p memory).reversed
    rw [hp, prefix_nil] at hstarts
    rw [hstarts] at hmemory
    exact Prod.ext rfl hmemory
  refine ⟨congrArg Prod.snd (hkept plan h), ?_⟩
  induction plan using inductionBelow with
  | source array =>
    rw [executeShared, withData, executePlan_source]
    rfl
  | unary node input ih ihbelow =>
    have hinput : input.reversals = [] := by
      have hstarts := reversals_unary node input
      rwa [h, prefix_nil] at hstarts
    cases htop : SharedPlan.topNInput node input with
    | none =>
      have hrun := executeShared_reversals input memory
      rw [hkept input hinput] at hrun
      rw [executeShared_unary htop, withData,
        executePlan_unary (topNInput_withData memory htop), ← ih hinput, hkept input hinput]
      cases hi : (executeShared input memory).1 with
      | error e => rfl
      | ok ref =>
        rw [hi] at hrun
        -- a `reverse` of a source with rows would be a reversal
        refine congrArg Except.ok (rows_applyNode ?_)
        rintro a rfl rfl
        rw [reversals, append_eq_nil_iff, Option.toList_eq_nil_iff] at h
        exact hrun.empty h.2 a rfl
    | some t =>
      obtain ⟨n, column, order, x⟩ := t
      obtain ⟨rfl, rfl⟩ := SharedPlan.topNInput_eq_some htop
      rw [withData, withData, executePlan_topN, ← ihbelow _ x rfl h,
        executeShared, hkept x h]
      cases (executeShared x memory).1 with
      | error e => rfl
      | ok ref =>
        show ((topN (ref.rows memory) n column order).map ArrayRef.fresh).map _ =
          topN (ref.rows memory) n column order
        cases topN (ref.rows memory) n column order <;> rfl
  | join left right on type ihl ihr =>
    rw [reversals, append_eq_nil_iff] at h
    rw [executeShared, withData, executePlan_join, ← ihl h.1, ← ihr h.2, hkept left h.1]
    cases (executeShared left memory).1 with
    | error e => rfl
    | ok l =>
      dsimp only
      rw [hkept right h.2]
      cases (executeShared right memory).1 <;> rfl
  | union left right ihl ihr =>
    rw [reversals, append_eq_nil_iff] at h
    rw [executeShared, withData, executePlan_union, ← ihl h.1, ← ihr h.2, hkept left h.1]
    cases (executeShared left memory).1 with
    | error e => rfl
    | ok l =>
      dsimp only
      rw [hkept right h.2]
      cases (executeShared right memory).1 <;> rfl
  | concat inputs ih =>
    rw [reversals] at h
    rw [executeShared, withData, executePlan_concat]
    suffices hall : executeSharedAll inputs memory =
        (executeAll .executeSync (withDataAll memory inputs), memory) by
      rw [hall]
      cases executeAll .executeSync (withDataAll memory inputs) <;> rfl
    induction inputs with
    | nil =>
      rw [executeSharedAll, withDataAll, executeAll]
    | cons input inputs ihrest =>
      rw [reversalsAll, append_eq_nil_iff] at h
      obtain ⟨hinput, hinputs⟩ := forall_mem_cons.mp ih
      rw [executeSharedAll, withDataAll, executeAll_cons, ← hinput h.1,
        hkept input h.1]
      cases (executeShared input memory).1 with
      | error e => rfl
      | ok ref =>
        dsimp only
        rw [ihrest hinputs h.2]
        cases executeAll .executeSync (withDataAll memory inputs) <;> rfl

/-- A Limit hands a new array to the Reverse above it; the source follows as it was. -/
theorem executeShared_eq_executePlan_reverseLimit :
    let plan := .union (.unary .reverse (.unary (.limit 2) (.source 0))) (.source 0)
    (executeShared plan numberedRows).2 = numberedRows ∧
      (executeShared plan numberedRows).1.map (ArrayRef.rows numberedRows) =
        executePlan .executeSync (plan.withData numberedRows) :=
  executeShared_eq_executePlan _ _ rfl

/-! ## When the sources are kept -/

/-- The plan leaves the arrays of all sources as they are, so that this and any other plan gives
afterwards what it gives before. -/
def Kept (plan : SharedPlan κ) (memory : Memory κ) : Prop :=
  (executeShared plan memory).2 = memory ∧
    ∀ plan' : SharedPlan κ, executeShared plan' (executeShared plan memory).2 =
      executeShared plan' memory

/-- The sources are kept exactly if each array is reversed an even number of times, or reads the
same from both ends.  The reversals that count are all of the plan, or the first ones if it
throws. -/
theorem sources_kept_iff (plan : SharedPlan κ) (memory : Memory κ) :
    ∃ done, done <+: plan.reversals ∧
      ((∃ ref, (executeShared plan memory).1 = .ok ref) → done = plan.reversals) ∧
      (Kept plan memory ↔ ∀ a, (memory a).reverse = memory a ∨ Even (done.count a)) := by
  obtain ⟨done, hstarts, hmemory, hall⟩ := (executeShared_reversals plan memory).reversed
  refine ⟨done, hstarts, hall, ?_⟩
  rw [← applyReversals_eq_iff, ← hmemory]
  constructor
  · exact fun h => h.1
  · exact fun h => ⟨h, fun plan' => by rw [h]⟩

end Run

end Shared

/-- Reversing a source once. -/
theorem executeShared_reverse_source :
    ¬ ∀ (plan : SharedPlan JsValue) (memory : Memory JsValue), Kept plan memory := by
  intro h
  have hkept := congrFun (h (.unary .reverse (.source 0)) fun _ =>
    [⟨[("id", .num 1)], by decide⟩, ⟨[("id", .num 2)], by decide⟩]).1 0
  revert hkept
  decide

end Promin.Data
