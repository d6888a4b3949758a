import Promin.Agent.Budget

/-!
# Calls under a budget

What an uncached call spends of a limit is linear in its input tokens, its
output tokens and the number of calls, with the weights of the limit.
-/

namespace Promin.Agent

open Option List

/-! ## What calls spend -/

def inputOf (call : Option LLMUsage) : ℚ := (call.map (·.inputTokens)).getD 0

def outputOf (call : Option LLMUsage) : ℚ := (call.map (·.outputTokens)).getD 0

/-- A call with no cache reads and writes, reported by the provider or not. -/
def Uncached (call : Option LLMUsage) : Prop :=
  ∀ usage ∈ call, 0 ≤ usage.inputTokens ∧ 0 ≤ usage.outputTokens ∧
    usage.cacheReadTokens.getD 0 = 0 ∧ usage.cacheWriteTokens.getD 0 = 0

/-- The usage once the calls of a step are counted. -/
def afterCalls (rates : Option ModelCostRates) (spent : BudgetUsage)
    (calls : List (Option LLMUsage)) : BudgetUsage :=
  calls.foldl (fun usage call => addUsage usage (llmCallUsage call rates)) spent

def perToken (rate : Option ℚ) : ℚ := rate.getD 0 / 1000000

def inputWeight (rates : Option ModelCostRates) : BudgetDimension → ℚ
  | .maxInputTokens | .maxTotalTokens => 1
  | .maxCostUsd => perToken (rates.bind (·.inputPerMillion))
  | .maxOutputTokens | .maxLlmCalls | .maxToolCalls => 0

def outputWeight (rates : Option ModelCostRates) : BudgetDimension → ℚ
  | .maxOutputTokens | .maxTotalTokens => 1
  | .maxCostUsd => perToken (rates.bind (·.outputPerMillion))
  | .maxInputTokens | .maxLlmCalls | .maxToolCalls => 0

def callWeight : BudgetDimension → ℚ
  | .maxLlmCalls => 1
  | _ => 0

private theorem ratedCost_some (tokens : ℚ) (rate : Option ℚ) :
    ratedCost (some tokens) rate = tokens * perToken rate := by
  cases rate with
  | none => simp [ratedCost, perToken]
  | some rate => simp only [ratedCost, perToken, getD_some]; ring

private theorem ratedCost_zero {tokens : Option ℚ} (rate : Option ℚ) (h : tokens.getD 0 = 0) :
    ratedCost tokens rate = 0 := by
  cases tokens with
  | none => cases rate <;> rfl
  | some tokens =>
    obtain rfl : tokens = 0 := h
    simp [ratedCost_some]

variable (rates : Option ModelCostRates)

private theorem costUsd_uncached {call : Option LLMUsage}
    (h : Uncached call) : (llmCallUsage call rates).costUsd =
      perToken (rates.bind (·.inputPerMillion)) * inputOf call +
        perToken (rates.bind (·.outputPerMillion)) * outputOf call := by
  cases call with
  | none => simp [llmCallUsage, inputOf, outputOf]
  | some usage =>
    obtain ⟨-, -, hread, hwrite⟩ := h usage rfl
    cases rates with
    | none => simp [llmCallUsage, computeCallCostUsd, perToken]
    | some rates =>
      simp only [llmCallUsage, computeCallCostUsd, inputOf, outputOf, bind_some,
        map_some, getD_some, ratedCost_some, ratedCost_zero _ hread,
        ratedCost_zero _ hwrite]
      ring

theorem spentOn_uncached {call : Option LLMUsage} (h : Uncached call) (d : BudgetDimension) :
    spentOn (llmCallUsage call rates) d =
      inputWeight rates d * inputOf call + outputWeight rates d * outputOf call + callWeight d := by
  have hcache : (llmCallUsage call rates).cacheReadTokens = 0 ∧
      (llmCallUsage call rates).cacheWriteTokens = 0 := by
    cases call with
    | none => exact ⟨rfl, rfl⟩
    | some usage => exact (h usage rfl).2.2
  have hin : (llmCallUsage call rates).inputTokens = inputOf call := rfl
  have hout : (llmCallUsage call rates).outputTokens = outputOf call := rfl
  have hone : (llmCallUsage call rates).llmCalls = 1 ∧ (llmCallUsage call rates).toolCalls = 0 :=
    ⟨rfl, rfl⟩
  cases d with
  | maxCostUsd =>
    simp only [spentOn, costUsd_uncached rates h, inputWeight, outputWeight, callWeight, add_zero]
  | _ => simp [spentOn, hcache, hin, hout, hone, inputWeight, outputWeight, callWeight]

theorem spentOn_afterCalls (spent : BudgetUsage)
    {calls : List (Option LLMUsage)} (h : ∀ call ∈ calls, Uncached call) (d : BudgetDimension) :
    spentOn (afterCalls rates spent calls) d = spentOn spent d +
      inputWeight rates d * (calls.map inputOf).sum +
      outputWeight rates d * (calls.map outputOf).sum + callWeight d * calls.length := by
  induction calls generalizing spent with
  | nil => simp [afterCalls]
  | cons call calls ih =>
    obtain ⟨hcall, hcalls⟩ := forall_mem_cons.mp h
    have hrest := ih (addUsage spent (llmCallUsage call rates)) hcalls
    rw [spentOn_addUsage, spentOn_uncached rates hcall d] at hrest
    show spentOn (afterCalls rates (addUsage spent (llmCallUsage call rates)) calls) d = _
    rw [hrest, map_cons, map_cons, sum_cons, sum_cons, length_cons]
    push_cast
    ring

/-- No token has a negative price. -/
def NonNegRates (rates : Option ModelCostRates) : Prop :=
  ∀ r ∈ rates, (∀ x ∈ r.inputPerMillion, 0 ≤ x) ∧ ∀ x ∈ r.outputPerMillion, 0 ≤ x

private theorem perToken_nonneg {rate : Option ℚ} (h : ∀ x ∈ rate, 0 ≤ x) : 0 ≤ perToken rate := by
  cases rate with
  | none => simp [perToken]
  | some x => exact div_nonneg (h x rfl) (by norm_num)

private theorem inputWeight_nonneg {rates : Option ModelCostRates} (h : NonNegRates rates)
    (d : BudgetDimension) : 0 ≤ inputWeight rates d := by
  cases d with
  | maxCostUsd =>
    apply perToken_nonneg
    intro x hx
    obtain ⟨r, hr, hrate⟩ := bind_eq_some_iff.mp hx
    exact (h r hr).1 x hrate
  | _ => simp [inputWeight]

private theorem outputWeight_nonneg {rates : Option ModelCostRates} (h : NonNegRates rates)
    (d : BudgetDimension) : 0 ≤ outputWeight rates d := by
  cases d with
  | maxCostUsd =>
    apply perToken_nonneg
    intro x hx
    obtain ⟨r, hr, hrate⟩ := bind_eq_some_iff.mp hx
    exact (h r hr).2 x hrate
  | _ => simp [outputWeight]

/-! ## The plan of a call -/

namespace BudgetedCall

variable (p : BudgetedCall)

private theorem spentOn_projected (d : BudgetDimension) : spentOn p.projected d =
    spentOn p.spent d + inputWeight p.rates d * p.promptTokens + callWeight d * p.llmCalls := by
  have hcost : (llmCallUsage (some { inputTokens := p.promptTokens, outputTokens := 0 })
      p.rates).costUsd = perToken (p.rates.bind (·.inputPerMillion)) * p.promptTokens := by
    cases hrates : p.rates with
    | none => simp [llmCallUsage, computeCallCostUsd, perToken]
    | some r =>
      simp [llmCallUsage, computeCallCostUsd, ratedCost_some, ratedCost_zero]
      ring
  rw [projected, spentOn_addUsage]
  cases d with
  | maxCostUsd => simp only [spentOn, hcost, inputWeight, callWeight, zero_mul, add_zero]
  | _ => simp [spentOn, llmCallUsage, inputWeight, callWeight]

private theorem lower_value {d : BudgetDimension} {x : ℚ} (acc : Option (ℚ × BudgetDimension)) :
    ∃ a b, lower d (some x) acc = some (a, b) ∧ a ≤ x := by
  cases acc with
  | none => exact ⟨x, d, rfl, le_rfl⟩
  | some least =>
    simp only [lower]
    split
    · exact ⟨x, d, rfl, le_rfl⟩
    · rename_i hlt
      exact ⟨least.1, least.2, rfl, not_lt.mp hlt⟩

private theorem lower_keeps {d : BudgetDimension} (v : Option ℚ)
    {acc : Option (ℚ × BudgetDimension)} {x : ℚ} (h : ∃ a b, acc = some (a, b) ∧ a ≤ x) :
    ∃ a b, lower d v acc = some (a, b) ∧ a ≤ x := by
  obtain ⟨a, b, rfl, ha⟩ := h
  cases v with
  | none => exact ⟨a, b, rfl, ha⟩
  | some y =>
    simp only [lower]
    split
    · rename_i hlt
      exact ⟨y, d, rfl, hlt.le.trans ha⟩
    · exact ⟨a, b, rfl, ha⟩

private theorem allowance_le {d : BudgetDimension} {limit : ℚ}
    (hlimit : p.budget.get d = some limit)
    (hweight : 0 < outputWeight p.rates d) : ∃ a b, p.allowance = some (a, b) ∧
      outputWeight p.rates d * a ≤ limit - spentOn p.projected d := by
  cases d with
  | maxOutputTokens =>
    have hlower : ∃ a b, p.allowance = some (a, b) ∧ a ≤ limit - p.projected.outputTokens := by
      apply lower_keeps
      apply lower_keeps
      rw [show p.budget.maxOutputTokens = some limit from hlimit]
      exact lower_value none
    simpa [outputWeight, spentOn] using hlower
  | maxTotalTokens =>
    have hlower : ∃ a b, p.allowance = some (a, b) ∧
        a ≤ limit - spentOn p.projected .maxTotalTokens := by
      apply lower_keeps
      rw [show p.budget.maxTotalTokens = some limit from hlimit]
      exact lower_value _
    simpa [outputWeight] using hlower
  | maxCostUsd =>
    cases hrate : p.rates.bind (·.outputPerMillion) with
    | none => simp [outputWeight, perToken, hrate] at hweight
    | some rate =>
      simp only [outputWeight, perToken, hrate, getD_some] at hweight ⊢
      have hpos : 0 < rate := by linarith
      obtain ⟨a, b, hallowance, ha⟩ : ∃ a b, p.allowance = some (a, b) ∧
          a ≤ ((⌊(limit - p.projected.costUsd) * 1000000 / rate⌋ : ℤ) : ℚ) := by
        rw [allowance, outputRate, hrate, filter_some,
          show p.budget.maxCostUsd = some limit from hlimit]
        simp only [hpos, decide_true, if_true, bind_some, map_some]
        exact lower_value _
      refine ⟨a, b, hallowance, ?_⟩
      have hfloor := ha.trans (Int.floor_le _)
      rw [le_div_iff₀ hpos] at hfloor
      show rate / 1000000 * a ≤ limit - p.projected.costUsd
      linarith
  | maxInputTokens | maxLlmCalls | maxToolCalls => simp [outputWeight] at hweight

/-- The calls of a step keep to the plan: how many, their input and the output asked for. -/
structure StepFits (calls : List (Option LLMUsage)) : Prop where
  uncached : ∀ call ∈ calls, Uncached call
  count : (calls.length : ℚ) ≤ p.llmCalls
  prompt : (calls.map inputOf).sum ≤ p.promptTokens
  output : ∀ cap ∈ (planBudgetedCall p).maxTokens, (calls.map outputOf).sum ≤ cap

/-- The cap is within the configured one and no smaller than the least useful output. -/
structure CapInRange : Prop where
  configured : ∀ c ∈ p.maxTokens, ∃ cap ∈ (planBudgetedCall p).maxTokens,
    cap ≤ c ∧ min (p.minOutputTokens : ℚ) c ≤ cap
  unset : p.maxTokens = none → ∀ cap ∈ (planBudgetedCall p).maxTokens, (p.minOutputTokens : ℚ) ≤ cap

private theorem plan_cases (h : (planBudgetedCall p).overrun = none) :
    budgetOverrun p.budget p.projected = none ∧
    ((p.allowance = none ∧ (planBudgetedCall p).maxTokens = p.maxTokens) ∨
      ∃ a b, p.allowance = some (a, b) ∧ (p.minOutputTokens : ℚ) ≤ a ∧
        (planBudgetedCall p).maxTokens = some (match p.maxTokens with
          | none => ((⌊a⌋ : ℤ) : ℚ)
          | some c => min c ((⌊a⌋ : ℤ) : ℚ))) := by
  unfold planBudgetedCall at h ⊢
  cases halready : budgetOverrun p.budget p.spent with
  | some o => simp [halready] at h
  | none =>
    cases hprompt : budgetOverrun p.budget p.projected with
    | some o => simp [halready, hprompt] at h
    | none =>
      refine ⟨rfl, ?_⟩
      cases hallowance : p.allowance with
      | none => exact .inl ⟨rfl, rfl⟩
      | some bounded =>
        obtain ⟨a, b⟩ := bounded
        right
        by_cases hsmall : a < p.minOutputTokens
        · simp [halready, hprompt, hallowance, hsmall] at h
        · exact ⟨a, b, rfl, not_lt.mp hsmall, congrArg CallPlan.maxTokens (if_neg hsmall)⟩

end BudgetedCall

/-- After a step within its plan no limit is exceeded. -/
theorem planBudgetedCall_fits (p : BudgetedCall) (hrates : NonNegRates p.rates)
    (h : (planBudgetedCall p).overrun = none) :
    (∀ calls, p.StepFits calls →
      budgetOverrun p.budget (afterCalls p.rates p.spent calls) = none) ∧ p.CapInRange := by
  obtain ⟨hprompt, hcap⟩ := p.plan_cases h
  constructor
  · intro calls hfits
    rw [budgetOverrun_eq_none_iff] at hprompt ⊢
    intro d limit hlimit
    have hprojected := hprompt d limit hlimit
    have hin := mul_le_mul_of_nonneg_left hfits.prompt (inputWeight_nonneg hrates d)
    have hcount : callWeight d * calls.length ≤ callWeight d * p.llmCalls :=
      mul_le_mul_of_nonneg_left hfits.count (by cases d <;> simp [callWeight])
    rw [spentOn_afterCalls p.rates p.spent hfits.uncached]
    rw [p.spentOn_projected] at hprojected
    rcases (outputWeight_nonneg hrates d).eq_or_lt with hzero | hpos
    · rw [← hzero]
      linarith
    · -- The output counts for this limit, so the allowance is bounded by it.
      obtain ⟨a, b, hallowance, ha⟩ := p.allowance_le hlimit hpos
      rw [p.spentOn_projected] at ha
      rcases hcap with ⟨hnone, -⟩ | ⟨a', b', hallowance', -, hmax⟩
      · rw [hnone] at hallowance
        exact nomatch hallowance
      · rw [hallowance] at hallowance'
        obtain ⟨rfl, rfl⟩ := Prod.mk.inj (Option.some.inj hallowance')
        have hout : (calls.map outputOf).sum ≤ a := by
          refine (hfits.output _ hmax).trans (le_trans ?_ (Int.floor_le a))
          split
          · exact le_rfl
          · exact min_le_right _ _
        have hweighed := mul_le_mul_of_nonneg_left hout hpos.le
        linarith
  · have hfloor : ∀ a : ℚ, (p.minOutputTokens : ℚ) ≤ a → (p.minOutputTokens : ℚ) ≤ (⌊a⌋ : ℤ) := by
      intro a ha
      have hint : ((p.minOutputTokens : ℤ) : ℚ) ≤ a := by simpa using ha
      have hle : (p.minOutputTokens : ℤ) ≤ ⌊a⌋ := Int.le_floor.mpr hint
      calc (p.minOutputTokens : ℚ) = ((p.minOutputTokens : ℤ) : ℚ) := by simp
        _ ≤ (⌊a⌋ : ℤ) := by exact_mod_cast hle
    constructor
    · intro c hc
      rcases hcap with ⟨-, hmax⟩ | ⟨a, b, -, ha, hmax⟩
      · exact ⟨c, hmax.trans hc, le_rfl, min_le_right _ _⟩
      · rw [mem_def.mp hc] at hmax
        exact ⟨_, hmax, min_le_left _ _,
          le_min (min_le_right _ _) ((min_le_left _ _).trans (hfloor a ha))⟩
    · intro hunset cap hmem
      rcases hcap with ⟨-, hmax⟩ | ⟨a, b, -, ha, hmax⟩
      · rw [hmax, hunset] at hmem
        exact nomatch hmem
      · rw [hunset] at hmax
        rw [← Option.some.inj (hmax.symm.trans hmem)]
        exact hfloor a ha

/-- A cost budget of half a dollar, of which a tenth is spent. -/
private def pricedCall : BudgetedCall where
  budget := { maxTotalTokens := some 10000, maxCostUsd := some (1 / 2) }
  spent := { EMPTY_USAGE with inputTokens := 1000, costUsd := 1 / 10 }
  promptTokens := 2000
  llmCalls := 1
  rates := some { inputPerMillion := some 50, outputPerMillion := some 100 }
  maxTokens := some 4096
  minOutputTokens := 256

theorem planBudgetedCall_fits_priced :
    budgetOverrun pricedCall.budget (afterCalls pricedCall.rates pricedCall.spent
      [some { inputTokens := 2000, outputTokens := 3000 }]) = none ∧ pricedCall.CapInRange := by
  have hplan : planBudgetedCall pricedCall = ⟨none, some 3000⟩ := by decide +kernel
  have hfits := planBudgetedCall_fits pricedCall (by
    intro r hr
    obtain rfl := Option.some.inj hr
    exact ⟨by rintro x ⟨⟩; norm_num, by rintro x ⟨⟩; norm_num⟩) (by rw [hplan])
  refine ⟨hfits.1 _ ⟨?_, ?_, ?_, ?_⟩, hfits.2⟩
  · intro call hcall
    obtain rfl := mem_singleton.mp hcall
    rintro usage ⟨⟩
    norm_num
  · norm_num [pricedCall]
  · norm_num [pricedCall, inputOf]
  · rw [hplan]
    rintro cap ⟨⟩
    norm_num [outputOf]

/-! ## Lost turns -/

/-- The charge for a lost turn covers the total limit: by the input and output limits where both
    are set or where they add up to it, and otherwise as input. -/
def TurnBudget.TotalCharged (b : TurnBudget) : Prop :=
  ∀ total ∈ b.maxTotalTokens, (b.maxInputTokens.isSome ∧ b.maxOutputTokens.isSome) ∨
    b.maxInputTokens.getD 0 + b.maxOutputTokens.getD 0 = 0 ∨
    total ≤ b.maxInputTokens.getD 0 + b.maxOutputTokens.getD 0

/-- A usage without negative counts. -/
structure BudgetUsage.NonNeg (u : BudgetUsage) : Prop where
  input : 0 ≤ u.inputTokens
  output : 0 ≤ u.outputTokens
  cacheRead : 0 ≤ u.cacheReadTokens
  cacheWrite : 0 ≤ u.cacheWriteTokens

/-- What a lost turn is charged covers every spend within the budget, in each limited dimension. -/
def ChargesLost (b : TurnBudget) : Prop :=
  ∀ u : BudgetUsage, u.NonNeg → budgetOverrun b u = none →
    ∀ d, b.get d ≠ none → spentOn u d ≤ spentOn (budgetAsUsage b) d

private theorem limit_le_charge {b : TurnBudget} (hb : b.Valid) {d : BudgetDimension} {limit : ℚ}
    (hlimit : b.get d = some limit) (hd : d ≠ .maxTotalTokens) :
    limit ≤ spentOn (budgetAsUsage b) d := by
  cases d with
  | maxTotalTokens => exact absurd rfl hd
  | maxInputTokens =>
    have hin : b.maxInputTokens = some limit := hlimit
    simp only [spentOn, budgetAsUsage, EMPTY_USAGE, hin, getD_some, add_zero]
    cases htotal : b.maxTotalTokens with
    | none => exact le_rfl
    | some total =>
      show limit ≤ if _ then total else limit
      split
      · rename_i hzero
        have hpos := (hb .maxTotalTokens total htotal).1
        have hout : 0 ≤ b.maxOutputTokens.getD 0 := by
          cases hout : b.maxOutputTokens with
          | none => exact le_rfl
          | some output => exact (hb .maxOutputTokens output hout).1
        linarith
      · exact le_rfl
  | maxOutputTokens | maxCostUsd | maxLlmCalls | maxToolCalls =>
    simp only [TurnBudget.get] at hlimit
    simp [spentOn, budgetAsUsage, hlimit]

private theorem total_charge {b : TurnBudget} {total : ℚ} (h : b.maxTotalTokens = some total) :
    spentOn (budgetAsUsage b) .maxTotalTokens =
      if b.maxInputTokens.getD 0 + b.maxOutputTokens.getD 0 = 0 then
        total + b.maxOutputTokens.getD 0
      else b.maxInputTokens.getD 0 + b.maxOutputTokens.getD 0 := by
  simp only [spentOn, budgetAsUsage, EMPTY_USAGE, h, add_zero]
  split <;> rfl

/-- The charge for a lost turn covers every spend within the budget exactly when it covers the
    total limit. -/
theorem lost_turn_charged_iff (b : TurnBudget) (hb : b.Valid) : ChargesLost b ↔ b.TotalCharged := by
  have hlimit : ∀ d, 0 ≤ (b.get d).getD 0 := by
    intro d
    cases hd : b.get d with
    | none => exact le_rfl
    | some limit => exact (hb d limit hd).1
  have hin : 0 ≤ b.maxInputTokens.getD 0 := hlimit .maxInputTokens
  have hout : 0 ≤ b.maxOutputTokens.getD 0 := hlimit .maxOutputTokens
  constructor
  · intro h total htotal
    have hpos := (hb .maxTotalTokens total htotal).1
    by_contra hnot
    push Not at hnot
    obtain ⟨hboth, hzero, hmore⟩ := hnot
    -- What the set limit leaves of the total is spent where none is set.
    obtain ⟨i, o, hi, ho, hsum, hilimit, holimit⟩ : ∃ i o : ℚ, 0 ≤ i ∧ 0 ≤ o ∧ i + o = total ∧
        (∀ input ∈ b.maxInputTokens, i ≤ input) ∧ ∀ output ∈ b.maxOutputTokens, o ≤ output := by
      cases hinput : b.maxInputTokens with
      | none =>
        rw [hinput, getD_none, zero_add] at hmore
        refine ⟨total - b.maxOutputTokens.getD 0, b.maxOutputTokens.getD 0, by linarith, hout,
          by ring, nofun, fun output houtput => ?_⟩
        rw [mem_def.mp houtput, getD_some]
      | some input =>
        have houtput : b.maxOutputTokens = none := by simpa [hinput] using hboth
        rw [hinput, houtput, getD_some, getD_none, add_zero] at hmore
        refine ⟨input, total - input, (hb .maxInputTokens input hinput).1, by linarith, by ring,
          fun x hx => (Option.some.inj hx).le, ?_⟩
        rw [houtput]
        exact nofun
    have hcharged := h { EMPTY_USAGE with inputTokens := i, outputTokens := o }
      ⟨hi, ho, le_rfl, le_rfl⟩ (by
        rw [budgetOverrun_eq_none_iff]
        intro d limit hd
        have hle := (hb d limit hd).1
        cases d with
        | maxInputTokens => simpa [spentOn, EMPTY_USAGE] using hilimit limit hd
        | maxOutputTokens => exact holimit limit hd
        | maxTotalTokens =>
          have hlimit : total = limit := Option.some.inj (htotal.symm.trans hd)
          simp [spentOn, EMPTY_USAGE, hsum, hlimit]
        | maxCostUsd | maxLlmCalls | maxToolCalls => exact hle) .maxTotalTokens
      (ne_none_iff_exists'.mpr ⟨total, htotal⟩)
    have hspent : spentOn { EMPTY_USAGE with inputTokens := i, outputTokens := o } .maxTotalTokens =
        total := by simp [spentOn, EMPTY_USAGE, hsum]
    rw [hspent, total_charge htotal, if_neg hzero] at hcharged
    linarith
  · intro h u hu hwithin d hd
    obtain ⟨limit, hget⟩ := ne_none_iff_exists'.mp hd
    have hspent := budgetOverrun_eq_none_iff.mp hwithin
    by_cases htotal : d = .maxTotalTokens
    · subst htotal
      have hused := hspent _ limit hget
      rw [total_charge hget]
      rcases h limit hget with ⟨hinput, houtput⟩ | hzero | hle
      · obtain ⟨input, hinput⟩ := isSome_iff_exists.mp hinput
        obtain ⟨output, houtput⟩ := isSome_iff_exists.mp houtput
        have hi := hspent .maxInputTokens input hinput
        have ho := hspent .maxOutputTokens output houtput
        simp only [spentOn, hinput, houtput, getD_some] at hi ho hused ⊢
        split <;> linarith [(hb .maxOutputTokens output houtput).1]
      · rw [if_pos hzero]
        linarith
      · split <;> linarith
    · exact (hspent d limit hget).trans (limit_le_charge hb hget htotal)

private def inputAndTotal : TurnBudget := { maxInputTokens := some 10, maxTotalTokens := some 100 }

/-- A turn that spends the total mostly on output is charged the input limit only. -/
theorem lost_turn_counterexample : inputAndTotal.Valid ∧ ¬ ChargesLost inputAndTotal := by
  constructor
  · intro d limit hd
    cases d <;> simp [inputAndTotal, TurnBudget.get] at hd <;> subst hd <;> decide
  · intro h
    have hcharged := h { EMPTY_USAGE with inputTokens := 10, outputTokens := 90 }
      ⟨by norm_num, by norm_num, le_rfl, le_rfl⟩ (by
        rw [budgetOverrun_eq_none_iff]
        intro d limit hd
        cases d <;> simp [inputAndTotal, TurnBudget.get] at hd <;> subst hd <;>
          norm_num [spentOn, EMPTY_USAGE]) .maxTotalTokens (by simp [inputAndTotal, TurnBudget.get])
    norm_num [spentOn, budgetAsUsage, inputAndTotal, EMPTY_USAGE] at hcharged

theorem lost_turn_charged_iff_set : ChargesLost
    { maxInputTokens := some 10, maxOutputTokens := some 20, maxTotalTokens := some 25 } := by
  rw [lost_turn_charged_iff]
  · exact fun total _ => .inl ⟨rfl, rfl⟩
  · intro d limit hd
    cases d <;> simp [TurnBudget.get] at hd <;> subst hd <;> decide

end Promin.Agent
