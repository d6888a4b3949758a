import Mathlib.Data.Rat.Floor

/-!
# Token and cost budgets

A `TurnBudget` caps what one turn spends; a `BudgetUsage` is what was spent.  Numbers are exact
rationals; `Infinity`, which an allowance starts at, is an absent value.
-/

namespace Promin.Agent

/-- Limits on what a turn may spend; an unset one is unlimited. -/
structure TurnBudget where
  maxInputTokens : Option ℚ := none
  maxOutputTokens : Option ℚ := none
  maxTotalTokens : Option ℚ := none
  maxCostUsd : Option ℚ := none
  maxLlmCalls : Option ℚ := none
  maxToolCalls : Option ℚ := none

/-- One limit of a `TurnBudget`. -/
inductive BudgetDimension where
  | maxInputTokens
  | maxOutputTokens
  | maxTotalTokens
  | maxCostUsd
  | maxLlmCalls
  | maxToolCalls
  deriving DecidableEq

def DIMENSIONS : List BudgetDimension :=
  [.maxInputTokens, .maxOutputTokens, .maxTotalTokens, .maxCostUsd, .maxLlmCalls, .maxToolCalls]

def TurnBudget.get (b : TurnBudget) : BudgetDimension → Option ℚ
  | .maxInputTokens => b.maxInputTokens
  | .maxOutputTokens => b.maxOutputTokens
  | .maxTotalTokens => b.maxTotalTokens
  | .maxCostUsd => b.maxCostUsd
  | .maxLlmCalls => b.maxLlmCalls
  | .maxToolCalls => b.maxToolCalls

def TurnBudget.build (limit : BudgetDimension → Option ℚ) : TurnBudget where
  maxInputTokens := limit .maxInputTokens
  maxOutputTokens := limit .maxOutputTokens
  maxTotalTokens := limit .maxTotalTokens
  maxCostUsd := limit .maxCostUsd
  maxLlmCalls := limit .maxLlmCalls
  maxToolCalls := limit .maxToolCalls

@[simp] theorem TurnBudget.get_build (limit : BudgetDimension → Option ℚ) (d : BudgetDimension) :
    (TurnBudget.build limit).get d = limit d := by
  cases d <;> rfl

theorem mem_dimensions (d : BudgetDimension) : d ∈ DIMENSIONS := by
  cases d <;> decide

/-- What `parseTurnBudget` lets through: whole token and call counts, and no negative limit. -/
def TurnBudget.Valid (b : TurnBudget) : Prop :=
  ∀ d, ∀ limit ∈ b.get d, 0 ≤ limit ∧ (d ≠ .maxCostUsd → limit.isInt = true)

structure BudgetUsage where
  inputTokens : ℚ
  outputTokens : ℚ
  cacheReadTokens : ℚ
  cacheWriteTokens : ℚ
  costUsd : ℚ
  llmCalls : ℚ
  toolCalls : ℚ

def EMPTY_USAGE : BudgetUsage := ⟨0, 0, 0, 0, 0, 0, 0⟩

def addUsage (a b : BudgetUsage) : BudgetUsage where
  inputTokens := a.inputTokens + b.inputTokens
  outputTokens := a.outputTokens + b.outputTokens
  cacheReadTokens := a.cacheReadTokens + b.cacheReadTokens
  cacheWriteTokens := a.cacheWriteTokens + b.cacheWriteTokens
  costUsd := a.costUsd + b.costUsd
  llmCalls := a.llmCalls + b.llmCalls
  toolCalls := a.toolCalls + b.toolCalls

/-! ## The usage of a call -/

/-- What a provider reports. -/
structure LLMUsage where
  inputTokens : ℚ
  outputTokens : ℚ
  cacheReadTokens : Option ℚ := none
  cacheWriteTokens : Option ℚ := none

structure ModelCostRates where
  inputPerMillion : Option ℚ := none
  outputPerMillion : Option ℚ := none
  cacheReadPerMillion : Option ℚ := none
  cacheWritePerMillion : Option ℚ := none

def ratedCost (tokens rate : Option ℚ) : ℚ :=
  match tokens, rate with
  | some tokens, some rate => tokens * rate / 1000000
  | _, _ => 0

def computeCallCostUsd (usage : LLMUsage) : Option ModelCostRates → Option ℚ
  | none => none
  | some rates =>
    some (ratedCost (some usage.inputTokens) rates.inputPerMillion +
      ratedCost (some usage.outputTokens) rates.outputPerMillion +
      ratedCost usage.cacheReadTokens rates.cacheReadPerMillion +
      ratedCost usage.cacheWriteTokens rates.cacheWritePerMillion)

def llmCallUsage (usage : Option LLMUsage) (rates : Option ModelCostRates) : BudgetUsage where
  inputTokens := (usage.map (·.inputTokens)).getD 0
  outputTokens := (usage.map (·.outputTokens)).getD 0
  cacheReadTokens := (usage.bind (·.cacheReadTokens)).getD 0
  cacheWriteTokens := (usage.bind (·.cacheWriteTokens)).getD 0
  costUsd := (usage.bind (computeCallCostUsd · rates)).getD 0
  llmCalls := 1
  toolCalls := 0

/-! ## Limits -/

def spentOn (usage : BudgetUsage) : BudgetDimension → ℚ
  | .maxInputTokens => usage.inputTokens + usage.cacheReadTokens + usage.cacheWriteTokens
  | .maxOutputTokens => usage.outputTokens
  | .maxTotalTokens =>
    usage.inputTokens + usage.cacheReadTokens + usage.cacheWriteTokens + usage.outputTokens
  | .maxCostUsd => usage.costUsd
  | .maxLlmCalls => usage.llmCalls
  | .maxToolCalls => usage.toolCalls

@[simp] theorem spentOn_empty (d : BudgetDimension) : spentOn EMPTY_USAGE d = 0 := by
  cases d <;> simp [spentOn, EMPTY_USAGE]

theorem spentOn_addUsage (a b : BudgetUsage) (d : BudgetDimension) :
    spentOn (addUsage a b) d = spentOn a d + spentOn b d := by
  cases d <;> simp only [spentOn, addUsage] <;> ring

structure BudgetOverrun where
  dimension : BudgetDimension
  limit : ℚ
  used : ℚ
  deriving DecidableEq

variable (budget : TurnBudget)

/-- The first limit that the usage is over, or with `exhausted` has used up. -/
def budgetOverrun (usage : BudgetUsage) (exhausted : Bool := false) :
    Option BudgetOverrun :=
  DIMENSIONS.findSome? fun dimension =>
    match budget.get dimension with
    | none => none
    | some limit =>
      let used := spentOn usage dimension
      if if exhausted then limit ≤ used else limit < used then some ⟨dimension, limit, used⟩
      else none

theorem budgetOverrun_eq_none_iff {budget : TurnBudget} {usage : BudgetUsage} :
    budgetOverrun budget usage = none ↔
      ∀ d, ∀ limit ∈ budget.get d, spentOn usage d ≤ limit := by
  rw [budgetOverrun, List.findSome?_eq_none_iff]
  constructor
  · intro h d limit hlimit
    have hd := h d (mem_dimensions d)
    rw [Option.mem_def.mp hlimit] at hd
    by_contra hlt
    simp [not_le.mp hlt] at hd
  · intro h d _
    cases hlimit : budget.get d with
    | none => rfl
    | some limit => simp [h d limit hlimit]

/-- What is left of each set limit, floored at 0. -/
def remainingBudget (usage : BudgetUsage) : TurnBudget :=
  .build fun d => (budget.get d).map fun limit => max 0 (limit - spentOn usage d)

/-- The budget with `taken` set aside, floored at 0. -/
def subtractBudget (budget taken : TurnBudget) : TurnBudget :=
  .build fun d => (budget.get d).map fun limit => max 0 (limit - (taken.get d).getD 0)

def budgetAsUsage : BudgetUsage :=
  let input := budget.maxInputTokens.getD 0
  let output := budget.maxOutputTokens.getD 0
  { EMPTY_USAGE with
    inputTokens :=
      match budget.maxTotalTokens with
      | some total => if input + output = 0 then total else input
      | none => input
    outputTokens := output
    costUsd := budget.maxCostUsd.getD 0
    llmCalls := budget.maxLlmCalls.getD 0
    toolCalls := budget.maxToolCalls.getD 0 }

/-- One of `parts` equal shares, token and call limits rounded down. -/
def shareOfBudget (parts : Nat) : TurnBudget :=
  let parts := max 1 parts
  .build fun d => (budget.get d).map fun limit =>
    if d = .maxCostUsd then limit / parts else ⌊limit / parts⌋

/-! ## Planning a call -/

structure CallPlan where
  /-- The limit the call can't fit under. -/
  overrun : Option BudgetOverrun
  maxTokens : Option ℚ
  deriving DecidableEq

/-- What is known of a step before its call is made. -/
structure BudgetedCall where
  budget : TurnBudget
  spent : BudgetUsage
  promptTokens : ℚ
  llmCalls : ℚ
  rates : Option ModelCostRates
  maxTokens : Option ℚ
  minOutputTokens : Nat

/-- `lower`: an allowance and the limit that bounds it, lowered to a value of a limit. -/
def lower (dimension : BudgetDimension) (value : Option ℚ)
    (allowance : Option (ℚ × BudgetDimension)) :
    Option (ℚ × BudgetDimension) :=
  match value, allowance with
  | none, _ => allowance
  | some value, none => some (value, dimension)
  | some value, some (least, bound) =>
    if value < least then some (value, dimension) else some (least, bound)

namespace BudgetedCall

variable (p : BudgetedCall)

/-- The spend with the prompt of the call. -/
def projected : BudgetUsage :=
  addUsage p.spent
    { llmCallUsage (some { inputTokens := p.promptTokens, outputTokens := 0 }) p.rates with
      llmCalls := p.llmCalls }

def outputRate : Option ℚ := (p.rates.bind (·.outputPerMillion)).filter (0 < ·)

/-- The output the call may still produce, and the limit that bounds it. -/
def allowance : Option (ℚ × BudgetDimension) :=
  lower .maxCostUsd
    (p.budget.maxCostUsd.bind fun limit => p.outputRate.map fun rate =>
      ((⌊(limit - p.projected.costUsd) * 1000000 / rate⌋ : ℤ) : ℚ))
    (lower .maxTotalTokens
      (p.budget.maxTotalTokens.map (· - spentOn p.projected .maxTotalTokens))
      (lower .maxOutputTokens (p.budget.maxOutputTokens.map (· - p.projected.outputTokens)) none))

def tooSmall (bound : BudgetDimension) : BudgetOverrun where
  dimension := bound
  limit := (p.budget.get bound).getD 0
  used :=
    if bound = .maxCostUsd then
      p.projected.costUsd + p.minOutputTokens * p.outputRate.getD 0 / 1000000
    else spentOn p.projected bound + p.minOutputTokens

end BudgetedCall

/-- Whether the call fits its budget, and how many tokens it may write. -/
def planBudgetedCall (p : BudgetedCall) : CallPlan :=
  match budgetOverrun p.budget p.spent with
  | some already => ⟨some already, none⟩
  | none =>
    match budgetOverrun p.budget p.projected with
    | some promptOverrun => ⟨some promptOverrun, none⟩
    | none =>
      match p.allowance with
      | none => ⟨none, p.maxTokens⟩
      | some (allowance, bound) =>
        if allowance < p.minOutputTokens then ⟨some (p.tooSmall bound), none⟩
        else
          let cap : ℚ := (⌊allowance⌋ : ℤ)
          ⟨none, some (match p.maxTokens with
            | none => cap
            | some configured => min configured cap)⟩

end Promin.Agent
