import Promin.ForStd.IndexedList
import Promin.Shared.JsValue

/-!
# The activity journal

`InMemoryJournal`: the entries of `.journaled()` steps, kept per (workflow,
step) in write order with a position index by slot, and a sorted view that is
built on the first load after a write.
-/

namespace Promin.Durable

inductive JournalStepType where
  | activity
  | sleep
  | signal
  | compensation
  | child
  deriving DecidableEq

inductive JournalPhase where
  | pending
  | completed
  deriving DecidableEq

/-- Completed outcome of a journal entry. -/
inductive JournalExit where
  | success (value : JsValue)
  | failure (error : String) (errorTag errorName : Option String) (errorData : Option JsValue)
  deriving DecidableEq

private def optionalMember (name : String) (value : Option JsValue) : List (String × JsValue) :=
  match value with
  | some v => [(name, v)]
  | none => []

def JournalExit.toJs : JournalExit → JsValue
  | .success value => .obj [("tag", .str "Success"), ("value", value)]
  | .failure error errorTag errorName errorData =>
    .obj ([("tag", .str "Failure"), ("error", .str error)] ++
      optionalMember "errorTag" (errorTag.map .str) ++
      optionalMember "errorName" (errorName.map .str) ++ optionalMember "errorData" errorData)

structure JournalEntry where
  activityIndex : Nat
  branchPath : String
  activityName : String
  stepType : JournalStepType
  phase : JournalPhase
  payloadHash : Option String := none
  exit : Option JournalExit := none
  wakeAt : Option Int := none
  createdAt : Int
  deriving DecidableEq

/-- Address of one entry inside a step. -/
structure JournalSlot where
  activityIndex : Nat
  branchPath : String
  deriving DecidableEq

def JournalEntry.slot (e : JournalEntry) : JournalSlot := ⟨e.activityIndex, e.branchPath⟩

structure EntryAddress where
  workflowId : String
  stepName : String
  activityIndex : Nat
  branchPath : Option String := none

/-- The slot of an address; `branchPath` defaults to `""`. -/
def EntryAddress.slot (a : EntryAddress) : JournalSlot := ⟨a.activityIndex, a.branchPath.getD ""⟩

/-- Result of `completePendingEntry`. -/
structure CompletePendingResult where
  completed : Bool
  exit : Option JournalExit

structure DueSleep where
  workflowId : String
  stepName : String
  activityIndex : Nat
  branchPath : String
  wakeAt : Int

/-- One step's activity journal: entries in write order, positions by slot. -/
structure JournalSlots where
  entries : List JournalEntry
  position : JsMap String Nat
  /-- `entries` sorted by slot, built on the first load after a write. -/
  sorted : Option (List JournalEntry)
  deriving DecidableEq

/-- `${activityIndex}:${branchPath}`. -/
def slotKey (slot : JournalSlot) : String := toString slot.activityIndex ++ ":" ++ slot.branchPath

/-- `${workflowId}::${stepName}`. -/
def journalKey (workflowId stepName : String) : String := workflowId ++ "::" ++ stepName

/-- Whether the sort of `load` leaves `a` before `b`. -/
def JournalEntry.before (a b : JournalEntry) : Bool :=
  if a.activityIndex ≠ b.activityIndex then decide (a.activityIndex < b.activityIndex)
  else decide (a.branchPath ≤ b.branchPath)

namespace JournalSlots

def empty : JournalSlots where
  entries := []
  position := JsMap.empty
  sorted := none

def entryAt (slots : JournalSlots) (slot : JournalSlot) : Option JournalEntry :=
  JsMap.find slots.position slots.entries (slotKey slot)

def putEntry (slots : JournalSlots) (entry : JournalEntry) : JournalSlots :=
  let key := slotKey entry.slot
  match slots.position.get key with
  | some at_ => { slots with entries := slots.entries.set at_ entry, sorted := none }
  | none =>
    { position := slots.position.set key slots.entries.length
      entries := slots.entries ++ [entry]
      sorted := none }

/-- Keep only the entries `keep` accepts, re-indexing the rest. -/
def filterEntries (slots : JournalSlots) (keep : JournalEntry → Bool) : JournalSlots :=
  let entries := slots.entries.filter keep
  { entries := entries
    position := JsMap.indexFrom (fun e => slotKey e.slot) 0 JsMap.empty entries
    sorted := none }

end JournalSlots

structure InMemoryJournal where
  journal : JsMap String JournalSlots
  journalKeys : JsMap String (List String)
  sleepKeys : List String
  deriving DecidableEq

namespace InMemoryJournal

def new : InMemoryJournal where
  journal := JsMap.empty
  journalKeys := JsMap.empty
  sleepKeys := []

/-- `set.add(key)` on a set in insertion order. -/
def addKey (keys : List String) (key : String) : List String :=
  if keys.contains key then keys else keys ++ [key]

variable (j : InMemoryJournal)

def journalOf (workflowId stepName : String) : Option JournalSlots :=
  j.journal.get (journalKey workflowId stepName)

def openJournal (workflowId stepName : String) : InMemoryJournal × JournalSlots :=
  let key := journalKey workflowId stepName
  match j.journal.get key with
  | some slots => (j, slots)
  | none =>
    ({ j with
        journal := j.journal.set key JournalSlots.empty
        journalKeys := j.journalKeys.set workflowId
          (addKey ((j.journalKeys.get workflowId).getD []) key) }, JournalSlots.empty)

def putSlots (workflowId stepName : String) (slots : JournalSlots) : InMemoryJournal :=
  { j with journal := j.journal.set (journalKey workflowId stepName) slots }

/-- Entries of one step, ordered by `activityIndex` then `branchPath`. The sorted order is
    kept until the next write. -/
def load (workflowId stepName : String) : InMemoryJournal × List JournalEntry :=
  match j.journalOf workflowId stepName with
  | none => (j, [])
  | some slots =>
    match slots.sorted with
    | some sorted => (j, sorted)
    | none =>
      let sorted := slots.entries.insertionSort fun a b => a.before b = true
      (j.putSlots workflowId stepName { slots with sorted := some sorted }, sorted)

/-- `appendEntry`: idempotent on a completed slot; completes a pending one. -/
def append (now : Int) (a : EntryAddress) (activityName : String) (payloadHash : Option String)
    (exit : JournalExit) : InMemoryJournal :=
  let opened := j.openJournal a.workflowId a.stepName
  let existing := opened.2.entryAt a.slot
  if (existing.map (·.phase)).getD .pending ≠ .pending then opened.1
  else
    -- The fingerprint of a pending row outlives its completion.
    opened.1.putSlots a.workflowId a.stepName (opened.2.putEntry
      { activityIndex := a.activityIndex
        branchPath := a.branchPath.getD ""
        activityName := activityName
        stepType := .activity
        phase := .completed
        payloadHash := payloadHash.or (existing.bind (·.payloadHash))
        exit := some exit
        createdAt := now })

def appendPending (now : Int) (a : EntryAddress) (activityName : String)
    (payloadHash : Option String) (stepType : JournalStepType) (wakeAt : Option Int) :
    InMemoryJournal :=
  let opened := j.openJournal a.workflowId a.stepName
  if opened.2.position.has (slotKey a.slot) then opened.1
  else
    let j := opened.1.putSlots a.workflowId a.stepName (opened.2.putEntry
      { activityIndex := a.activityIndex
        branchPath := a.branchPath.getD ""
        activityName := activityName
        stepType := stepType
        phase := .pending
        payloadHash := payloadHash
        wakeAt := wakeAt
        createdAt := now })
    if stepType = .sleep then
      { j with sleepKeys := addKey j.sleepKeys (journalKey a.workflowId a.stepName) }
    else j

/-- `completePendingEntry`: first writer wins, the loser gets the stored exit. -/
def completePending (a : EntryAddress) (exit : JournalExit) :
    InMemoryJournal × CompletePendingResult :=
  match j.journalOf a.workflowId a.stepName with
  | none => (j, { completed := false, exit := none })
  | some slots =>
    match slots.entryAt a.slot with
    | none => (j, { completed := false, exit := none })
    | some existing =>
      if existing.phase ≠ .pending then
        -- A repeat of the winning completion reports what the first call did.
        let again := match existing.exit with
          | some stored => sameStoredValue stored.toJs exit.toJs
          | none => false
        (j, { completed := again, exit := existing.exit })
      else
        (j.putSlots a.workflowId a.stepName
          (slots.putEntry { existing with phase := .completed, exit := some exit }),
          { completed := true, exit := some exit })

def discard (workflowId stepName : String) (drop : List JournalSlot) : InMemoryJournal :=
  match j.journalOf workflowId stepName with
  | none => j
  | some slots =>
    let dropped := drop.map slotKey
    j.putSlots workflowId stepName
      (slots.filterEntries fun e => !dropped.contains (slotKey e.slot))

/-- Drop every entry of one step at `activityIndex`, of any branch. -/
def discardIndex (workflowId stepName : String) (activityIndex : Nat) : InMemoryJournal :=
  match j.journalOf workflowId stepName with
  | none => j
  | some slots =>
    j.putSlots workflowId stepName (slots.filterEntries fun e => e.activityIndex != activityIndex)

/-- The text before the first `::` and the text up to the next one after it. -/
def splitKey (key : List Char) : List Char × List Char :=
  let rec go : List Char → List Char → List Char × List Char
    | ':' :: ':' :: rest, acc => (acc.reverse, rest)
    | c :: rest, acc => go rest (c :: acc)
    | [], acc => (acc.reverse, [])
  let (workflowId, rest) := go key []
  (workflowId, (go rest []).1)

def dueSleepsOf (now : Int) (key : String) (slots : Option JournalSlots) : List DueSleep :=
  let (workflowId, stepName) := splitKey key.toList
  ((slots.map (·.entries)).getD []).filterMap fun e =>
    match e.wakeAt with
    | some wakeAt =>
      if e.stepType = .sleep ∧ e.phase = .pending ∧ wakeAt ≤ now then
        some {
          workflowId := String.ofList workflowId
          stepName := String.ofList stepName
          activityIndex := e.activityIndex
          branchPath := e.branchPath
          wakeAt := wakeAt }
      else none
    | none => none

def hasPendingSleep (slots : Option JournalSlots) : Bool :=
  ((slots.map (·.entries)).getD []).any fun e =>
    decide (e.stepType = .sleep) && decide (e.phase = .pending)

/-- Pending sleep entries due at `now`, at most `limit`. A key found without a pending
    sleep is dropped from the scan set. -/
def findDueSleeps (now : Int) (limit : Int) : InMemoryJournal × List DueSleep :=
  let rec scan : List String → List String → List DueSleep → List String × List DueSleep
    | [], kept, due => (kept, due)
    | key :: rest, kept, due =>
      let found := dueSleepsOf now key (j.journal.get key)
      -- The limit is looked at after each hit, so a limit below one still answers one.
      let room := (max limit 1 - due.length).toNat
      if found.length ≥ room && decide (0 < found.length) then
        (kept ++ key :: rest, due ++ found.take room)
      else
        scan rest (if hasPendingSleep (j.journal.get key) then kept ++ [key] else kept)
          (due ++ found)
  let scanned := scan j.sleepKeys [] []
  ({ j with sleepKeys := scanned.1 }, scanned.2)

def deleteStep (workflowId stepName : String) : InMemoryJournal :=
  { j with journal := j.journal.delete (journalKey workflowId stepName) }

def deleteWorkflow (workflowId : String) : InMemoryJournal :=
  { j with
    journal := ((j.journalKeys.get workflowId).getD []).foldl (fun m key => m.delete key) j.journal
    journalKeys := j.journalKeys.delete workflowId }

end InMemoryJournal

end Promin.Durable
