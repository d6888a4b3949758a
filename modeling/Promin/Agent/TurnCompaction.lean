import Promin.Agent.ReferenceData
import Mathlib.Data.Rat.Floor

/-!
# Compaction of a turn

`planCompaction` chooses where the steps of a turn are cut, and `applyCompaction` puts one summary
message in the place of those before the cut.  Numbers of the configuration are finite.
-/

namespace Promin.Agent

open Promin.Data CodeUnits

/-! ## Messages -/

/-- `input` is the JSON text of the call's input. -/
structure ToolCall where
  id : String
  name : CodeUnits
  input : CodeUnits

inductive Message where
  | system (content : CodeUnits)
  | user (content : CodeUnits) (reference : Bool)
  | assistant (content : Option CodeUnits) (toolCalls : Option (List ToolCall))
      (thinkingBlocks : List CodeUnits)
  | tool (toolCallId : String) (content : CodeUnits) (isError : Bool)

namespace Message

def calls : Message → List ToolCall
  | .assistant _ toolCalls _ => toolCalls.getD []
  | _ => []

def callsTools (m : Message) : Bool := 0 < m.calls.length

def isSystem : Message → Bool
  | .system _ => true
  | _ => false

def MESSAGE_OVERHEAD_CHARS : Nat := 16

def chars : Message → Nat
  | .system content | .user content _ | .tool _ content _ => MESSAGE_OVERHEAD_CHARS + content.length
  | .assistant content toolCalls thinkingBlocks =>
    MESSAGE_OVERHEAD_CHARS + (content.map (·.length)).getD 0 +
      ((toolCalls.getD []).map fun call => call.name.length + call.input.length).sum +
      (thinkingBlocks.map (·.length)).sum

end Message

def tokensOfChars (chars : Nat) : Nat := (chars + 3) / 4

/-- The tokens of the messages, from their characters. -/
def estimateMessageTokens (messages : List Message) : Nat :=
  tokensOfChars (messages.map (·.chars)).sum

/-! ## The plan -/

/-- When a turn is compacted, and how far. -/
structure TurnCompactionConfig where
  maxTokens : ℚ
  targetRatio : Option ℚ := none
  keepRecentSteps : Option ℚ := none
  summaryMaxTokens : Option ℚ := none
  estimateTokens : Option (List Message → ℚ) := none

namespace TurnCompactionConfig

def DEFAULT_TARGET_RATIO : ℚ := 6 / 10
def DEFAULT_KEEP_RECENT_STEPS : ℚ := 2

def SUMMARY_FENCE_TOKENS : ℚ := 100

/-- `positive` of `validateCompactionConfig`. -/
def positive (name : String) (value : Option ℚ) : Except String Unit :=
  match value with
  | none => .ok ()
  | some value =>
    if value ≤ 0 then
      .error ("agentAction: compaction." ++ name ++ " must be a finite positive number")
    else .ok ()

variable (config : TurnCompactionConfig)

def validateCompactionConfig : Except String Unit := do
  positive "maxTokens" (some config.maxTokens)
  positive "targetRatio" config.targetRatio
  positive "summaryMaxTokens" config.summaryMaxTokens
  if 1 < config.targetRatio.getD 1 then
    throw "agentAction: compaction.targetRatio must be at most 1"
  let keep := config.keepRecentSteps.getD 1
  if keep.den ≠ 1 ∨ keep < 1 then
    throw "agentAction: compaction.keepRecentSteps must be an integer ≥ 1"

def summaryTokenCap : ℚ :=
  config.summaryMaxTokens.getD (min 1024 (max 64 ⌊config.maxTokens * 15 / 100⌋))

def estimate : List Message → ℚ :=
  config.estimateTokens.getD fun messages => estimateMessageTokens messages

/-- The steps that are kept: a positive integer, once it is validated. -/
def keep : Nat :=
  (config.keepRecentSteps.getD DEFAULT_KEEP_RECENT_STEPS).num.toNat

/-- What the estimate does not see, as the provider's report shows it. -/
def unseen (messages : List Message) (reportedTokens : Option ℚ) : ℚ :=
  max 0 (reportedTokens.getD 0 - config.estimate messages)

end TurnCompactionConfig

/-- Where to cut, and the tokens before and after. -/
structure CompactionPlan where
  cut : Nat
  tokens : ℚ
  after : ℚ
  ineffective : Bool
  deriving DecidableEq

def slice (messages : List Message) (start stop : Nat) : List Message :=
  (messages.take stop).drop start

def stepStarts (messages : List Message) (stepStart : Nat) : List Nat :=
  (messages.zipIdx.filter fun (m, i) => stepStart ≤ i && m.callsTools).map (·.2)

/-- The estimate after a cut, with the summary at its size cap. -/
def afterCut (config : TurnCompactionConfig) (messages : List Message) (stepStart : Nat)
    (reportedTokens : Option ℚ) (cut : Nat) : ℚ :=
  config.estimate (slice messages 0 stepStart) + config.unseen messages reportedTokens +
    config.summaryTokenCap + TurnCompactionConfig.SUMMARY_FENCE_TOKENS +
    config.estimate ((slice messages stepStart cut).filter (·.isSystem)) +
    config.estimate (messages.drop cut)

/-- Where the estimate is to be brought. -/
def target (config : TurnCompactionConfig) : ℚ :=
  config.targetRatio.getD TurnCompactionConfig.DEFAULT_TARGET_RATIO * config.maxTokens

/-- The cut of a turn that has grown too long. -/
def planCompaction (config : TurnCompactionConfig) (messages : List Message) (stepStart : Nat)
    (reportedTokens : Option ℚ) : Option CompactionPlan :=
  let tokens := max (config.estimate messages) (reportedTokens.getD 0)
  let starts := stepStarts messages stepStart
  if ¬ config.maxTokens < tokens then none
  else if starts.length ≤ config.keep then none
  else
    let last := starts.length - config.keep
    let chosen := ((List.range' 1 (last - 1)).find? fun i =>
      afterCut config messages stepStart reportedTokens (starts.getD i 0) ≤ target config).getD last
    let cut := starts.getD chosen 0
    let after := afterCut config messages stepStart reportedTokens cut
    some { cut, tokens, after, ineffective := config.maxTokens < after }

/-! ## The summary -/

/-- First line of a summary whose oldest lines were cut. -/
def CLIPPED_MARKER : CodeUnits := ofString "… (earlier steps omitted)"

/-- `text.slice(text.length - room)`. -/
def lastChars (text : CodeUnits) (room : ℚ) : CodeUnits := text.drop ⌊text.length - room⌋.toNat

/-- The loop of `capSummary`: the lines that fit, from the newest on. -/
def newestLines (room : ℚ) : (newestFirst kept : List CodeUnits) → (used : Nat) → List CodeUnits
  | [], kept, _ => kept
  | line :: older, kept, used =>
    let cost := line.length + if 0 < kept.length then 1 else 0
    if room < used + cost then
      -- not even the newest line fits: its tail is kept
      if kept.length = 0 then [lastChars line room] else kept
    else newestLines room older (line :: kept) (used + cost)

/-- The newest lines that fit. -/
def capSummary (text : CodeUnits) (maxChars : ℚ) : CodeUnits :=
  if text.length ≤ maxChars then text
  else
    let room := maxChars - CLIPPED_MARKER.length - 1
    if room ≤ 0 then lastChars text maxChars
    else
      let kept := newestLines room (Splitting.split [newline] text).reverse [] 0
      [newline].intercalate (CLIPPED_MARKER :: kept)

def TURN_SUMMARY_SOURCE : CodeUnits := ofString "turn-summary"

def SUMMARY_TITLE : CodeUnits := ofString "Summary of earlier steps of this task"

def turnSummaryMessage (summary : CodeUnits) : Message :=
  .user ((fenceReferenceData TURN_SUMMARY_SOURCE [{ title := SUMMARY_TITLE, body := summary }]).getD
    []) true

/-- The summary in place of the steps before the cut. -/
def applyCompaction (messages : List Message) (stepStart cut : Nat) (summary : CodeUnits) :
    List Message :=
  slice messages 0 stepStart ++ turnSummaryMessage summary ::
    ((slice messages stepStart cut).filter (·.isSystem) ++ messages.drop cut)

end Promin.Agent
