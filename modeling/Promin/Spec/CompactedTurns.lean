import Promin.Agent.TurnCompaction

/-!
# Compacted turns

A cut is the start of a step, so no tool result is parted from its call
(`compaction_wellFormed`, `compaction_kept`).
-/

namespace Promin.Agent

open Promin.Data CodeUnits List Message TurnCompactionConfig

variable {messages : List Message} {stepStart : Nat}

/-! ## Tool results and their calls -/

def Message.answered : Message → List String
  | .tool toolCallId _ _ => [toolCallId]
  | _ => []

def Message.nextOpen (open' : List String) (m : Message) : List String :=
  if m.callsTools then m.calls.map (·.id) else open'

/-- Every tool result answers a call that is still open. -/
def WellFormed (open' : List String) : List Message → Prop
  | [] => True
  | m :: rest => (∀ id ∈ m.answered, id ∈ open') ∧ WellFormed (m.nextOpen open') rest

theorem wellFormed_append {open' : List String} {l l' : List Message} :
    WellFormed open' (l ++ l') ↔
      WellFormed open' l ∧ WellFormed (l.foldl nextOpen open') l' := by
  induction l generalizing open' with
  | nil => simp [WellFormed]
  | cons m l ih =>
    rw [cons_append, WellFormed, WellFormed, ih, and_assoc, foldl_cons]

theorem wellFormed_quiet (open' : List String) {l : List Message}
    (h : ∀ m ∈ l, m.answered = [] ∧ m.callsTools = false) :
    WellFormed open' l ∧ l.foldl nextOpen open' = open' := by
  induction l with
  | nil => exact ⟨trivial, rfl⟩
  | cons m l ih =>
    obtain ⟨⟨hanswered, hcalls⟩, hl⟩ := forall_mem_cons.mp h
    have hopen : m.nextOpen open' = open' := by simp [nextOpen, hcalls]
    rw [WellFormed, hanswered, hopen, foldl_cons, hopen]
    exact ⟨⟨by simp, (ih hl).1⟩, (ih hl).2⟩

theorem wellFormed_step {open' open'' : List String} {m : Message} {rest : List Message}
    (hm : m.callsTools = true) (h : WellFormed open' (m :: rest)) :
    WellFormed open'' (m :: rest) := by
  have hanswered : m.answered = [] := by
    cases m <;> first | rfl | cases hm
  simpa [WellFormed, hanswered, nextOpen, hm] using h

/-! ## The plan -/

theorem mem_stepStarts {i : Nat} : i ∈ stepStarts messages stepStart ↔
    stepStart ≤ i ∧ ∃ m, messages[i]? = some m ∧ m.callsTools = true := by
  simp only [stepStarts, mem_map, mem_filter, Prod.exists, mem_zipIdx_iff_getElem?,
    Bool.and_eq_true, decide_eq_true_eq]
  constructor
  · rintro ⟨m, j, ⟨hget, hle, hcalls⟩, rfl⟩
    exact ⟨hle, m, hget, hcalls⟩
  · rintro ⟨hle, m, hget, hcalls⟩
    exact ⟨m, i, ⟨hget, hle, hcalls⟩, rfl⟩

theorem stepStarts_sorted (messages : List Message) (stepStart : Nat) :
    (stepStarts messages stepStart).Pairwise (· < ·) := by
  have hall : (messages.zipIdx.map (·.2)).Pairwise (· < ·) := by
    rw [zipIdx_map_snd]
    exact pairwise_lt_range'
  exact hall.sublist (filter_sublist.map _)

/-- What a plan is: the fewest steps that meet the target, or all but those to keep. -/
structure Planned (config : TurnCompactionConfig) (messages : List Message) (stepStart : Nat)
    (reportedTokens : Option ℚ) (plan : CompactionPlan) (folded : Nat) : Prop where
  cut : (stepStarts messages stepStart)[folded]? = some plan.cut
  pos : 1 ≤ folded
  keeps : folded + config.keep ≤ (stepStarts messages stepStart).length
  fewest : ∀ n cut, 1 ≤ n → n < folded → (stepStarts messages stepStart)[n]? = some cut →
    target config < afterCut config messages stepStart reportedTokens cut
  meets : folded + config.keep < (stepStarts messages stepStart).length →
    afterCut config messages stepStart reportedTokens plan.cut ≤ target config
  after : plan.after = afterCut config messages stepStart reportedTokens plan.cut
  ineffective : plan.ineffective = true ↔ config.maxTokens < plan.after

theorem exists_planned {config : TurnCompactionConfig} {reportedTokens : Option ℚ}
    {plan : CompactionPlan} (hkeep : 1 ≤ config.keep)
    (h : planCompaction config messages stepStart reportedTokens = some plan) :
    ∃ folded, Planned config messages stepStart reportedTokens plan folded := by
  rw [planCompaction] at h
  split at h
  · cases h
  split at h
  · cases h
  · rename_i hsteps
    have hcut : ∀ n, n + config.keep ≤ (stepStarts messages stepStart).length →
        (stepStarts messages stepStart)[n]? =
          some ((stepStarts messages stepStart).getD n 0) := by
      intro n hn
      rw [getD_eq_getElem?_getD, List.getElem?_eq_getElem (by omega)]
      rfl
    cases hfind : (List.range' 1 ((stepStarts messages stepStart).length - config.keep - 1)).find?
      (fun i => decide (afterCut config messages stepStart reportedTokens
        ((stepStarts messages stepStart).getD i 0) ≤ target config)) with
    | none =>
      simp only [hfind, Option.getD_none, Option.some.injEq] at h
      subst h
      rw [List.find?_range'_eq_none] at hfind
      refine ⟨_, hcut _ (by omega), by omega, by omega, fun n cut hn hlt hget => ?_, by omega, rfl,
        by simp⟩
      have hmiss := hfind n hn (by omega)
      rw [hcut n (by omega)] at hget
      cases hget
      simpa using hmiss
    | some i =>
      simp only [hfind, Option.getD_some, Option.some.injEq] at h
      subst h
      obtain ⟨hmeets, hmem, hmiss⟩ := List.find?_range'_eq_some.mp hfind
      rw [mem_range'_1] at hmem
      refine ⟨i, hcut i (by omega), by omega, by omega, fun n cut hn hlt hget => ?_,
        fun _ => by simpa using hmeets, rfl, by simp⟩
      rw [hcut n (by omega)] at hget
      cases hget
      simpa using hmiss n hn hlt

theorem keep_pos {config : TurnCompactionConfig} (h : config.validateCompactionConfig = .ok ()) :
    1 ≤ config.keep := by
  have hkeep : ¬ ((config.keepRecentSteps.getD 1).den ≠ 1 ∨ config.keepRecentSteps.getD 1 < 1) := by
    intro hbad
    simp only [validateCompactionConfig, bind, Except.bind, if_pos hbad] at h
    repeat' split at h
    all_goals cases h
  simp only [not_or, not_lt, ne_eq, not_not] at hkeep
  rw [keep]
  cases hrecent : config.keepRecentSteps with
  | none => decide
  | some keep =>
    rw [hrecent, Option.getD_some] at hkeep
    have hnum : (keep.num : ℚ) = keep := by
      rw [← Rat.num_div_den keep, hkeep.1]
      simp
    have hpos : (1 : ℚ) ≤ keep.num := hnum ▸ hkeep.2
    rw [Option.getD_some]
    have hint : 1 ≤ keep.num := by exact_mod_cast hpos
    omega

/-! ## The compacted turn -/

variable (messages) in
theorem slice_split {cut : Nat} (h : stepStart ≤ cut) : messages =
    slice messages 0 stepStart ++ (slice messages stepStart cut ++ messages.drop cut) := by
  have hahead : slice messages 0 stepStart = (messages.take cut).take stepStart := by
    simp [slice, take_take, Nat.min_eq_left h]
  rw [hahead, ← append_assoc, slice, take_append_drop, take_append_drop]

theorem guidance_quiet (l : List Message) : ∀ m ∈ l.filter (·.isSystem),
    m.answered = [] ∧ m.callsTools = false := by
  intro m hm
  have hsystem := (mem_filter.mp hm).2
  cases m <;> first | exact ⟨rfl, rfl⟩ | cases hsystem

theorem summary_quiet (summary : CodeUnits) : ∀ m ∈ [turnSummaryMessage summary],
    m.answered = [] ∧ m.callsTools = false := by
  intro m hm
  rw [mem_singleton.mp hm]
  exact ⟨rfl, rfl⟩

/-- What compacting with a plan keeps and leaves out. -/
structure CompactionKept (config : TurnCompactionConfig) (messages : List Message)
    (stepStart cut : Nat) (summary : CodeUnits) (result : List Message) : Prop where
  /-- Everything before `stepStart` is kept. -/
  before : result.take stepStart = messages.take stepStart
  /-- Every system message from there on, in order. -/
  guidance : (result.drop stepStart).filter (·.isSystem) =
    (messages.drop stepStart).filter (·.isSystem)
  /-- The last steps are kept as they are. -/
  recent : messages.drop cut <:+ result ∧
    ∀ i ∈ (stepStarts messages stepStart).drop
      ((stepStarts messages stepStart).length - config.keep), cut ≤ i
  wellFormed : WellFormed [] result
  summary : result[stepStart]? = some (turnSummaryMessage summary) ∧
    (result.eraseIdx stepStart).Sublist messages
  drops : result.countP (·.callsTools) < messages.countP (·.callsTools)

/-- **Compaction keeps a conversation well-formed.** -/
theorem compaction_wellFormed (config : TurnCompactionConfig) (messages : List Message)
    (stepStart : Nat) (reportedTokens : Option ℚ) (plan : CompactionPlan) (summary : CodeUnits)
    (hconfig : config.validateCompactionConfig = .ok ()) (hwell : WellFormed [] messages)
    (hplan : planCompaction config messages stepStart reportedTokens = some plan) :
    CompactionKept config messages stepStart plan.cut summary
      (applyCompaction messages stepStart plan.cut summary) ∧
    ∃ folded, Planned config messages stepStart reportedTokens plan folded := by
  obtain ⟨folded, hfolded⟩ := exists_planned (keep_pos hconfig) hplan
  refine ⟨?_, folded, hfolded⟩
  obtain ⟨hle, m, hget, hcalls⟩ := mem_stepStarts.mp (mem_of_getElem? hfolded.cut)
  have hsplit := slice_split messages hle
  obtain ⟨hcut, hm⟩ := List.getElem?_eq_some_iff.mp hget
  have hdrop : messages.drop plan.cut = m :: messages.drop (plan.cut + 1) := by
    rw [drop_eq_getElem_cons hcut, hm]
  have hlength : (slice messages 0 stepStart).length = stepStart := by
    rw [slice, drop_zero, length_take]
    omega
  have hresult : applyCompaction messages stepStart plan.cut summary =
      slice messages 0 stepStart ++ ([turnSummaryMessage summary] ++
        ((slice messages stepStart plan.cut).filter (·.isSystem) ++ messages.drop plan.cut)) := rfl
  constructor
  · rw [hresult, take_left' hlength, slice, drop_zero]
  · rw [hresult, drop_left' hlength]
    conv_rhs => rw [hsplit, drop_left' hlength]
    simp [turnSummaryMessage, isSystem]
  · refine ⟨⟨_, by rw [hresult, ← append_assoc, ← append_assoc]⟩, fun i hi => ?_⟩
    obtain ⟨j, hj, rfl⟩ := getElem_of_mem hi
    obtain ⟨hlt, hfold⟩ := List.getElem?_eq_some_iff.mp hfolded.cut
    rw [length_drop] at hj
    have hkeeps := hfolded.keeps
    rw [getElem_drop, ← hfold]
    rcases Nat.lt_or_ge folded
      ((stepStarts messages stepStart).length - config.keep + j) with hfar | hnear
    · exact (pairwise_iff_getElem.mp (stepStarts_sorted messages stepStart) _ _ hlt
        (by omega) hfar).le
    · exact (getElem_congr_idx (by omega)).le
  · rw [hsplit, wellFormed_append, wellFormed_append, hdrop] at hwell
    obtain ⟨hahead, -, hkept⟩ := hwell
    have hsummary := wellFormed_quiet ((slice messages 0 stepStart).foldl nextOpen [])
      (summary_quiet summary)
    have hguidance := wellFormed_quiet ((slice messages 0 stepStart).foldl nextOpen [])
      (guidance_quiet (slice messages stepStart plan.cut))
    rw [hresult, hdrop, wellFormed_append, wellFormed_append, hsummary.2, wellFormed_append,
      hguidance.2]
    exact ⟨hahead, hsummary.1, hguidance.1, wellFormed_step hcalls hkept⟩
  · refine ⟨by rw [hresult, List.getElem?_append_right hlength.le, hlength, Nat.sub_self]; rfl, ?_⟩
    conv_rhs => rw [hsplit]
    rw [hresult, eraseIdx_append_of_length_le hlength.le, hlength, Nat.sub_self]
    exact (List.Sublist.refl _).append (filter_sublist.append (List.Sublist.refl _))
  · -- the first step is among the messages left out
    have hkeeps := hfolded.keeps
    have hpos := hfolded.pos
    have hfirst := getElem_mem (l := stepStarts messages stepStart) (n := 0) (by omega)
    obtain ⟨hlt, hfold⟩ := List.getElem?_eq_some_iff.mp hfolded.cut
    have hbefore := pairwise_iff_getElem.mp (stepStarts_sorted messages stepStart) 0 folded
      (by omega) hlt hpos
    rw [hfold] at hbefore
    obtain ⟨hfrom, m₀, hget₀, hcalls₀⟩ := mem_stepStarts.mp hfirst
    have hmem : m₀ ∈ slice messages stepStart plan.cut := by
      refine mem_of_getElem? (i := (stepStarts messages stepStart)[0] - stepStart) ?_
      rw [slice, List.getElem?_drop, Nat.add_sub_cancel' hfrom, List.getElem?_take_of_lt hbefore,
        hget₀]
    have hslice : 0 < (slice messages stepStart plan.cut).countP (·.callsTools) :=
      countP_pos_iff.mpr ⟨m₀, hmem, hcalls₀⟩
    have hguidance : ((slice messages stepStart plan.cut).filter (·.isSystem)).countP
        (·.callsTools) = 0 :=
      countP_eq_zero.mpr fun m hm => by simp [(guidance_quiet _ m hm).2]
    have hsummary : [turnSummaryMessage summary].countP (·.callsTools) = 0 := rfl
    conv_rhs => rw [hsplit]
    rw [hresult]
    simp only [countP_append, hguidance, hsummary]
    omega

/-! ## The cut summary -/

theorem length_lastChars (text : CodeUnits) {n : Nat} (h : n ≤ text.length) :
    (lastChars text n).length = n := by
  have hfloor : ⌊(text.length : ℚ) - n⌋ = (text.length - n : Nat) := by
    rw [← Nat.cast_sub h, Int.floor_natCast]
  rw [lastChars, hfloor, length_drop, Int.toNat_natCast]
  omega

theorem newestLines_fit (room : Nat) (newestFirst : List CodeUnits) :
    ∀ (kept : List CodeUnits) (used : Nat), used ≤ room →
      (kept.map List.length).sum + kept.length ≤ used + 1 → (kept = [] → used = 0) →
      ((newestLines room newestFirst kept used).map List.length).sum +
        (newestLines room newestFirst kept used).length ≤ room + 1 := by
  induction newestFirst with
  | nil =>
    intro kept used hused hkept _
    rw [newestLines]
    omega
  | cons line older ih =>
    intro kept used hused hkept hnone
    rw [newestLines]
    by_cases hover : (room : ℚ) < used + (line.length + if 0 < kept.length then 1 else 0 : Nat)
    · rw [if_pos hover]
      split
      · rename_i hempty
        have hused₀ := hnone (length_eq_zero_iff.mp hempty)
        rw [hempty, hused₀] at hover
        have hlong : room < line.length := by exact_mod_cast (by simpa using hover)
        simp [length_lastChars line hlong.le]
      · omega
    · rw [if_neg hover]
      have hcost : used + (line.length + if 0 < kept.length then 1 else 0) ≤ room := by
        exact_mod_cast not_lt.mp hover
      refine ih (line :: kept) _ hcost ?_ (fun h => by cases h)
      rw [map_cons, sum_cons, length_cons]
      split
      · omega
      · rename_i hempty
        have hkept₀ : kept = [] := by simpa using hempty
        simp [hkept₀]

theorem length_capSummary_le (text : CodeUnits) (n : Nat) :
    (capSummary text n).length ≤ n := by
  have hmarker : CLIPPED_MARKER.length = 25 := by decide
  rw [capSummary]
  split
  · rename_i hfits
    exact_mod_cast hfits
  rename_i hlong
  have hlt : n < text.length := by exact_mod_cast not_le.mp hlong
  simp only
  split
  · exact (length_lastChars text hlt.le).le
  · rename_i hroom
    have hn' : 26 < n := by
      have hpos := not_le.mp hroom
      rw [hmarker] at hpos
      have : (26 : ℚ) < n := by push_cast at hpos; linarith
      exact_mod_cast this
    have hroomNat : (n : ℚ) - CLIPPED_MARKER.length - 1 = (n - 26 : Nat) := by
      rw [hmarker, Nat.cast_sub hn'.le]
      push_cast
      ring
    rw [hroomNat]
    have hkept := newestLines_fit (n - 26) (Splitting.split [newline] text).reverse [] 0
      (Nat.zero_le _) (by simp) (fun _ => rfl)
    have hlength := Splitting.length_intercalate [newline] (cons_ne_nil CLIPPED_MARKER
      (newestLines (n - 26 : Nat) (Splitting.split [newline] text).reverse [] 0))
    rw [map_cons, sum_cons, length_cons, hmarker] at hlength
    simp only [length_cons, length_nil] at hlength
    omega

/-! ## The bound -/

/-- The characters of the summary message: its overhead, and the fence with the summary when the
    summary is not blank. -/
def summaryChars (summary : CodeUnits) : Nat :=
  if trim summary = [] then MESSAGE_OVERHEAD_CHARS
  else MESSAGE_OVERHEAD_CHARS + 390 + (neutralizeReferenceDelimiters
    (ofString "## " ++ SUMMARY_TITLE ++ [newline] ++ trim summary)).length

theorem chars_turnSummaryMessage (summary : CodeUnits) :
    (turnSummaryMessage summary).chars = summaryChars summary := by
  have hsource : sourceName TURN_SUMMARY_SOURCE = TURN_SUMMARY_SOURCE := by decide +kernel
  have htitle : oneLine SUMMARY_TITLE = SUMMARY_TITLE := by decide +kernel
  have hfence : (preamble TURN_SUMMARY_SOURCE).length + 1 + (openingTag TURN_SUMMARY_SOURCE).length
      + 1 + 1 + closingTag.length = 390 := by decide +kernel
  by_cases hblank : trim summary = []
  · simp [turnSummaryMessage, fenceReferenceData, summaryChars, hblank, chars]
  · have hpos : 0 < (trim summary).length := length_pos_iff.mpr hblank
    simp only [turnSummaryMessage, fenceReferenceData, summaryChars, hblank, chars, hsource,
      filter_cons, filter_nil, hpos, decide_true, if_true, map_cons, map_nil,
      length_singleton, if_false, renderSection, htitle,
      intercalate_singleton]
    have hlength := Splitting.length_intercalate [newline] (cons_ne_nil
      (preamble TURN_SUMMARY_SOURCE) [openingTag TURN_SUMMARY_SOURCE, neutralizeReferenceDelimiters
        (ofString "## " ++ SUMMARY_TITLE ++ [newline] ++ trim summary), closingTag])
    simp only [map_cons, map_nil, sum_cons, sum_nil, length_cons,
      length_nil] at hlength
    rw [if_neg one_ne_zero, Option.getD_some]
    omega

/-- The characters that rounding up to whole tokens leaves over. -/
def spare (messages : List Message) : Nat :=
  4 * estimateMessageTokens messages - (messages.map (·.chars)).sum

/-- The summary message is within what the plan has for it: the summary's cap, the fence's tokens,
    and what rounding leaves over in the three parts that are kept. -/
def SummaryFits (config : TurnCompactionConfig) (messages : List Message) (stepStart cut : Nat)
    (summary : CodeUnits) : Prop :=
  (summaryChars summary : ℤ) ≤ 4 * ⌊config.summaryTokenCap⌋ + 400 +
    spare (slice messages 0 stepStart) +
    spare ((slice messages stepStart cut).filter (·.isSystem)) + spare (messages.drop cut)

theorem estimate_applyCompaction (cut : Nat) (summary : CodeUnits) (cap : ℚ) :
    (estimateMessageTokens (applyCompaction messages stepStart cut summary) : ℚ) ≤
      estimateMessageTokens (slice messages 0 stepStart) + cap + 100 +
        estimateMessageTokens ((slice messages stepStart cut).filter (·.isSystem)) +
        estimateMessageTokens (messages.drop cut) ↔
    (summaryChars summary : ℤ) ≤ 4 * ⌊cap⌋ + 400 + spare (slice messages 0 stepStart) +
      spare ((slice messages stepStart cut).filter (·.isSystem)) + spare (messages.drop cut) := by
  simp only [spare, estimateMessageTokens, tokensOfChars, applyCompaction, map_append,
    map_cons, sum_append, sum_cons, chars_turnSummaryMessage]
  generalize ((slice messages 0 stepStart).map (·.chars)).sum = before
  generalize (((slice messages stepStart cut).filter (·.isSystem)).map (·.chars)).sum = guidance
  generalize ((messages.drop cut).map (·.chars)).sum = kept
  generalize summaryChars summary = size
  generalize hall : (before + (size + (guidance + kept)) + 3) / 4 = all
  generalize hbefore : (before + 3) / 4 = a
  generalize hguidance : (guidance + 3) / 4 = b
  generalize hkept : (kept + 3) / 4 = c
  have hfloor : ((all : ℤ) - a - 100 - b - c ≤ ⌊cap⌋) ↔ (all : ℚ) ≤ a + cap + 100 + b + c := by
    rw [Int.le_floor]
    push_cast
    constructor <;> intro h <;> linarith
  rw [← hfloor]
  omega

/-- A summary that is short for the cap fits whatever the messages are. -/
theorem SummaryFits.of_short {config : TurnCompactionConfig} {summary : CodeUnits} (cut : Nat)
    (h : (summaryChars summary : ℤ) ≤ 4 * ⌊config.summaryTokenCap⌋ + 400) :
    SummaryFits config messages stepStart cut summary := by
  unfold SummaryFits
  omega

/-- **A plan's estimate bounds what is left exactly when the summary message fits.**  A cut summary
    is never longer than its cap, but its message is: the fence around it takes more than the
    tokens the plan has for it, and look-alikes of the fence grow. -/
theorem plan_bound_iff (config : TurnCompactionConfig) (messages : List Message) (stepStart : Nat)
    (reportedTokens : Option ℚ) (plan : CompactionPlan) (text : CodeUnits)
    (hconfig : config.validateCompactionConfig = .ok ()) (hdefault : config.estimateTokens = none)
    (hplan : planCompaction config messages stepStart reportedTokens = some plan) :
    let summary := capSummary text (config.summaryTokenCap * 4)
    let left : ℚ := estimateMessageTokens (applyCompaction messages stepStart plan.cut summary) +
      config.unseen messages reportedTokens
    (∀ (text : CodeUnits) (n : Nat), (capSummary text n).length ≤ n) ∧
    (left ≤ plan.after ∧ (plan.ineffective = false → left ≤ config.maxTokens) ↔
      SummaryFits config messages stepStart plan.cut summary) ∧
    ((summaryChars summary : ℤ) ≤ 4 * ⌊config.summaryTokenCap⌋ + 400 →
      SummaryFits config messages stepStart plan.cut summary) := by
  intro summary left
  obtain ⟨folded, hfolded⟩ := exists_planned (keep_pos hconfig) hplan
  have hbound : left ≤ plan.after ↔ SummaryFits config messages stepStart plan.cut summary := by
    rw [SummaryFits, ← estimate_applyCompaction, hfolded.after, afterCut,
      SUMMARY_FENCE_TOKENS]
    simp only [estimate, hdefault, Option.getD_none, left]
    constructor <;> intro h <;> linarith
  refine ⟨length_capSummary_le, ⟨fun h => hbound.mp h.1, fun h => ⟨hbound.mpr h, fun hin => ?_⟩⟩,
    SummaryFits.of_short plan.cut⟩
  have hafter : ¬ config.maxTokens < plan.after := by
    rw [← hfolded.ineffective, hin]
    exact Bool.false_ne_true
  exact (hbound.mpr h).trans (not_lt.mp hafter)

/-! ## A turn of two steps -/

def twoSteps : List Message :=
  [.assistant none (some [⟨"a", [], []⟩]) [], .tool "a" (List.replicate 500 97) false,
    .assistant none (some [⟨"b", [], []⟩]) [], .tool "b" [] false]

def oneKept : TurnCompactionConfig where
  maxTokens := 110
  keepRecentSteps := some 1
  summaryMaxTokens := some 1

theorem planCompaction_twoSteps :
    planCompaction oneKept twoSteps 0 none = some ⟨2, 141, 109, false⟩ := by
  decide +kernel

theorem compaction_wellFormed_twoSteps :
    CompactionKept oneKept twoSteps 0 2 [] (applyCompaction twoSteps 0 2 []) ∧
      ∃ folded, Planned oneKept twoSteps 0 none ⟨2, 141, 109, false⟩ folded :=
  compaction_wellFormed oneKept twoSteps 0 none ⟨2, 141, 109, false⟩ [] (by decide +kernel)
    (by refine ⟨?_, ?_, ?_, ?_, trivial⟩ <;> decide)
    planCompaction_twoSteps

theorem plan_bound_iff_twoSteps :
    let summary := capSummary (List.replicate 4 97) (oneKept.summaryTokenCap * 4)
    let left : ℚ := estimateMessageTokens (applyCompaction twoSteps 0 2 summary) +
      oneKept.unseen twoSteps none
    (∀ (text : CodeUnits) (n : Nat), (capSummary text n).length ≤ n) ∧
    (left ≤ 109 ∧ ((false : Bool) = false → left ≤ oneKept.maxTokens) ↔
      SummaryFits oneKept twoSteps 0 2 summary) ∧
    ((summaryChars summary : ℤ) ≤ 4 * ⌊oneKept.summaryTokenCap⌋ + 400 →
      SummaryFits oneKept twoSteps 0 2 summary) :=
  plan_bound_iff oneKept twoSteps 0 none ⟨2, 141, 109, false⟩ (List.replicate 4 97)
    (by decide +kernel) rfl planCompaction_twoSteps

/-- A plan for 109 tokens that leaves 121: a summary of four characters fills its cap, and the
    fence around it takes 112 tokens. -/
theorem plan_bound_counterexample :
    planCompaction oneKept twoSteps 0 none = some ⟨2, 141, 109, false⟩ ∧
    capSummary (List.replicate 4 97) (oneKept.summaryTokenCap * 4) = List.replicate 4 97 ∧
    estimateMessageTokens (applyCompaction twoSteps 0 2 (List.replicate 4 97)) = 121 ∧
    (109 : ℚ) < 121 ∧ oneKept.maxTokens < 121 := by
  decide +kernel

end Promin.Agent
