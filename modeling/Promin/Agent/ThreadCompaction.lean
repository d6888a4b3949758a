import Promin.ForStd.Machine
import Promin.Agent.MemoryStore

/-!
# Compactions of a thread

`DefaultConsolidator.compactThread` in processes that share a store.
-/

namespace Promin.Agent

variable {μ : Type}

def PAGE_SIZE : Nat := 200

/-- The last message an episode covers. -/
def EpisodicRecord.throughSeq (e : EpisodicRecord) : Int :=
  (e.sourceMessageRange.map (·.toSeq)).getD 0

structure FoldedTranscript where
  summary : String
  usage : Option JsValue := none
  deriving DecidableEq

/-- How far a process is with `compact`. -/
inductive CompactRun where
  | idle
  /-- In the loop of `compactionCut`. -/
  | cutting (keepRecent : Nat) (previous : Option EpisodicRecord) (seen : Nat) (newestSeq : Int)
      (beforeSeq : Option Int)
  /-- The cut is known, the folded messages go to the model. -/
  | folding (keepRecent : Nat) (previous : Option EpisodicRecord) (throughSeq : Int)
  /-- No compaction reached the cut when the process looked. -/
  | writing (keepRecent : Nat) (fromSeq throughSeq : Int) (folded : FoldedTranscript)
  | written (episode : EpisodicRecord)
  /-- A rival has won: the process's own episode goes. -/
  | superseded (episode winner : EpisodicRecord)
  deriving DecidableEq

/-- The store, and how far each process has come. -/
structure ThreadCompactions (μ : Type) where
  store : InMemoryMemoryStore μ
  process : Nat → CompactRun := fun _ => .idle

/-- A new message, a new compaction, or the next move of one. -/
inductive CompactOp (μ : Type) where
  | appendMessages (msgs : List μ) (idempotencyKey : Option String)
  | compactThread (process : Nat) (keepRecent : Nat)
  | resume (process : Nat) (folded : Except String FoldedTranscript) (uuid : String)

inductive CompactAnswer where
  | none
  | wrote (keepRecent : Nat) (episode : EpisodicRecord)
  | returned (episode : EpisodicRecord)
  | threw (detail : String)
  deriving DecidableEq

namespace ThreadCompactions

open InMemoryMemoryStore (COMPACT_EPISODE_KIND)

variable (isUser : μ → Bool) (key : ThreadKey) (store : InMemoryMemoryStore μ)

/-- The compactions a process looks at: the newest ranges first. -/
def compactions (limit : Nat) : List EpisodicRecord :=
  store.listThreadEpisodes key {
    kind := some COMPACT_EPISODE_KIND
    order := some .sourceRangeDesc
    limit := some limit }

def latestCompaction : Option EpisodicRecord :=
  (compactions key store 1).head?

def scanPage (keepRecent : Nat) : (seen : Nat) → (newestSeq : Int) → List (StoredMessage μ) →
    Nat × Int × Option Int
  | seen, newestSeq, [] => (seen, newestSeq, none)
  | seen, newestSeq, m :: page =>
    let newestSeq := if seen = 0 then m.seq else newestSeq
    if keepRecent = 0 then (seen + 1, newestSeq, some m.seq)
    else if keepRecent ≤ seen + 1 ∧ isUser m.message = true then
      (seen + 1, newestSeq, some (m.seq - 1))
    else scanPage keepRecent (seen + 1) newestSeq page

def nothingToCompact (keepRecent : Nat) (uncompacted : Int) : String :=
  "compactThread: " ++ toString uncompacted ++ " uncompacted messages, none older than the " ++
    "kept tail (keepRecent=" ++ toString keepRecent ++ "); nothing to compact"

/-- A page of the loop of `compactionCut`, with what `compact` does with the cut. -/
def cut (keepRecent : Nat) (previous : Option EpisodicRecord) (seen : Nat) (newestSeq : Int)
    (beforeSeq : Option Int) : CompactRun × CompactAnswer :=
  let afterSeq := (previous.map (·.throughSeq)).getD 0
  let page := store.getMessages key {
    fromSeq := some (afterSeq + 1)
    toSeq := beforeSeq.map (· - 1)
    newestFirst := true
    limit := some PAGE_SIZE }
  match scanPage isUser keepRecent seen newestSeq page with
  | (_, newestSeq, some throughSeq) =>
    if throughSeq ≤ afterSeq then
      (.idle, .threw (nothingToCompact keepRecent (newestSeq - afterSeq)))
    else (.folding keepRecent previous throughSeq, .none)
  | (seen, newestSeq, none) =>
    if page.length < PAGE_SIZE then
      (.idle, .threw (nothingToCompact keepRecent (newestSeq - afterSeq)))
    else (.cutting keepRecent previous seen newestSeq (page.getLast?.map (·.seq)), .none)

def check (keepRecent : Nat) (previous : Option EpisodicRecord) (throughSeq : Int) :
    Except String FoldedTranscript → CompactRun × CompactAnswer
  | .error detail => (.idle, .threw detail)
  | .ok folded =>
    if folded.summary = "" then
      (.idle, .threw "compactThread: the folded messages produced no summary")
    else
      let fromSeq := ((previous.bind (·.sourceMessageRange)).map (·.fromSeq)).getD
        ((previous.map (·.throughSeq)).getD 0 + 1)
      match latestCompaction key store with
      | some latest =>
        if throughSeq ≤ latest.throughSeq then (.idle, .returned latest)
        else (.writing keepRecent fromSeq throughSeq folded, .none)
      | none => (.writing keepRecent fromSeq throughSeq folded, .none)

/-- The episode that `compact` writes. -/
def episodeInput (fromSeq throughSeq : Int) (folded : FoldedTranscript) : EpisodeInput where
  summary := folded.summary
  salience := some (1 / 2)
  sourceThreadId := some key.threadId
  sourceMessageRange := some { fromSeq := fromSeq, toSeq := throughSeq }
  metadata := some (("kind", .str COMPACT_EPISODE_KIND) ::
    (folded.usage.map (("usage", ·))).toList)

/-- Furthest first, then lowest id. -/
def before (a b : EpisodicRecord) : Bool :=
  decide (b.throughSeq < a.throughSeq ∨ a.throughSeq = b.throughSeq ∧ a.id ≤ b.id)

/-- Of the rivals that reach as far, the one every run is to keep. -/
def winner (rivals : List EpisodicRecord) (throughSeq : Int) : Option EpisodicRecord :=
  ((rivals.filter fun e => throughSeq ≤ e.throughSeq).mergeSort before).head?

def judge (episode : EpisodicRecord) : CompactRun × CompactAnswer :=
  match winner (compactions key store 2) episode.throughSeq with
  | none => (.idle, .returned episode)
  | some best =>
    if best.id = episode.id then (.idle, .returned episode) else (.superseded episode best, .none)

/-- A process goes on. -/
def resume (folded : Except String FoldedTranscript) (uuid : String) :
    CompactRun → InMemoryMemoryStore μ × CompactRun × CompactAnswer
  | .idle => (store, .idle, .none)
  | .cutting keepRecent previous seen newestSeq beforeSeq =>
    (store, cut isUser key store keepRecent previous seen newestSeq beforeSeq)
  | .folding keepRecent previous throughSeq =>
    (store, check key store keepRecent previous throughSeq folded)
  | .writing keepRecent fromSeq throughSeq folded =>
    let (store, episode) :=
      store.appendThreadEpisode key (episodeInput key fromSeq throughSeq folded) uuid
    (store, .written episode, .wrote keepRecent episode)
  | .written episode => (store, judge key store episode)
  | .superseded episode best => (store.deleteThreadEpisode key episode.id, .idle, .returned best)

def step (s : ThreadCompactions μ) : CompactOp μ → ThreadCompactions μ × CompactAnswer
  | .appendMessages msgs idempotencyKey =>
    ({ s with store := (s.store.appendMessages key msgs idempotencyKey).1 }, .none)
  | .compactThread i keepRecent =>
    match s.process i with
    | .idle =>
      let previous := latestCompaction key s.store
      let run := .cutting keepRecent previous 0 ((previous.map (·.throughSeq)).getD 0) none
      ({ s with process := Function.update s.process i run }, .none)
    -- a call on a thread that the process is compacting joins the one under way
    | _ => (s, .none)
  | .resume i folded uuid =>
    let (store, run, answer) := resume isUser key s.store folded uuid (s.process i)
    ({ store := store, process := Function.update s.process i run }, answer)

end ThreadCompactions

/-- Compactions of one thread, in any interleaving. -/
def threadCompactions (isUser : μ → Bool) (key : ThreadKey) :
    Machine (ThreadCompactions μ) (CompactOp μ) CompactAnswer where
  step := ThreadCompactions.step isUser key

end Promin.Agent
