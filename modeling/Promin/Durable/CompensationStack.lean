import Promin.Durable.Driving
import Promin.Durable.JournalFailure
import Promin.Durable.JournaledBody

/-!
# The compensation stack of a journaled body

`CompensationStack` collects the `compensate` callbacks of activities that
succeeded and, on a genuine failure, runs them in reverse, each journaled as its
own `compensation` entry.
-/

namespace Promin.Durable

def JournalExit.isSuccess : JournalExit → Bool
  | .success _ => true
  | .failure _ _ _ _ => false

/-- What the unwinds of a step did, by the slot index of the compensation. -/
inductive UnwindEvent where
  /-- The callback ran. -/
  | ran (activityIndex : Nat)
  | completed (activityIndex : Nat) (exit : JournalExit)
  /-- The journal rejected a write of its row, and the unwind went on without it. -/
  | unreachable (activityIndex : Nat)

abbrev UnwindWorld := DriverWorld UnwindEvent

variable {V : Type}

structure Compensation (V : Type) where
  /-- Slot index reserved at registration time. -/
  activityIndex : Nat
  /-- Slot of the activity this compensation rolls back. -/
  sourceActivityIndex : Nat
  activityName : String
  run : UnwindWorld → Except (Raised V) Unit

def Compensation.slot (comp : Compensation V) : JournalSlot := ⟨comp.activityIndex, ""⟩

def Compensation.rolledBack (comp : Compensation V) : List JournalSlot :=
  [⟨comp.sourceActivityIndex, ""⟩, comp.slot]

structure CompensationStack (V : Type) where
  cursor : JournalCursor
  compensations : List (Compensation V)

/-- What a body does at top level, as far as its stack and its slot counter see it. -/
inductive BodyMove (V : Type) where
  /-- A yield draws a slot. -/
  | yielded
  | succeeded (sourceActivityIndex : Nat) (activityName : String)
      (compensate : UnwindWorld → Except (Raised V) Unit)

namespace CompensationStack

def new (cursor : JournalCursor) : CompensationStack V := ⟨cursor, []⟩

def register (stack : CompensationStack V) (sourceActivityIndex : Nat) (activityName : String)
    (compensate : UnwindWorld → Except (Raised V) Unit) : CompensationStack V :=
  let (index, cursor) := stack.cursor.reserveTopLevelIndex
  { cursor := cursor
    compensations := stack.compensations ++ [{
      activityIndex := index
      sourceActivityIndex := sourceActivityIndex
      activityName := activityName
      run := compensate }] }

def move (stack : CompensationStack V) : BodyMove V → CompensationStack V
  | .yielded => { stack with cursor := (stack.cursor.allocateSlot none).2.1 }
  | .succeeded source name compensate => stack.register source name compensate

def registered (cursor : JournalCursor) (body : List (BodyMove V)) : CompensationStack V :=
  body.foldl move (new cursor)

/-! ## The unwind -/

/-- A write of a compensation's row. A write that throws is passed over: `none`. -/
def journalWrite {α : Type} (cursor : JournalCursor) (comp : Compensation V)
    (events : List UnwindEvent)
    (write : InMemoryWorkflowStorage → InMemoryWorkflowStorage × Except StorageError α) :
    Drive UnwindEvent (Option α) :=
  Prog.act (interfere cursor.workflowId) fun w =>
    match write w.storage with
    | (s, .ok a) => (.ok (some a), { storage := s, events := w.events ++ events })
    | (s, .error _) =>
      (.ok none, { storage := s, events := w.events ++ [.unreachable comp.activityIndex] })

section

variable (rt : ErrorRuntime V)

def runExit (cursor : JournalCursor) (comp : Compensation V) : Drive UnwindEvent JournalExit :=
  Prog.act (interfere cursor.workflowId) fun w =>
    let exit := match comp.run w with
      | .ok () => .success .null
      | .error err => failureExit rt err
    (.ok exit, { w with events := w.events ++ [.ran comp.activityIndex] })

/-- The two-phase record of one compensation; answers whether the activity is rolled back. -/
def runCompensation (cursor : JournalCursor) (comp : Compensation V) : Drive UnwindEvent Bool := do
  match ← journalWrite cursor comp [] fun s =>
      cursor.writePending s comp.slot .compensation ("compensation:" ++ comp.activityName)
        none none with
  | none => pure false -- Journal unreachable: nothing to do.
  | some () =>
    let exit ← runExit rt cursor comp
    match ← journalWrite cursor comp [.completed comp.activityIndex exit] fun s =>
        cursor.complete s comp.slot exit with
    | none => pure false -- Journal unreachable: give up on this one.
    | some _ => pure exit.isSuccess

def unwindOne (cursor : JournalCursor) (comp : Compensation V) : Drive UnwindEvent Bool :=
  match cursor.recorded comp.slot with
  | none => runCompensation rt cursor comp
  | some recorded =>
    -- A completed row means the previous worker finished it.
    if recorded.phase = .completed then pure (recorded.exit.any JournalExit.isSuccess)
    else runCompensation rt cursor comp

/-- The loop of `unwind` over the compensations that are left, last registered first. -/
def unwindFrom (cursor : JournalCursor) (rolledBack : List JournalSlot) :
    List (Compensation V) → Drive UnwindEvent (List JournalSlot)
  | [] => pure rolledBack
  | comp :: rest => do
    let isRolledBack ← unwindOne rt cursor comp
    unwindFrom cursor (if isRolledBack then rolledBack ++ comp.rolledBack else rolledBack) rest

/-- Run every registered compensation in reverse; answers the slots of every rolled-back
    activity together with its completed compensation. -/
def unwind (stack : CompensationStack V) : Drive UnwindEvent (List JournalSlot) :=
  unwindFrom rt stack.cursor [] stack.compensations.reverse

end

end CompensationStack

def unwindAttempt (rt : ErrorRuntime V) (workflowId stepName : String) (body : List (BodyMove V))
    (guard_ : FenceGuard) : Drive UnwindEvent (List JournalSlot) := do
  let journal ← storageCall workflowId [] fun s =>
    let (s, journal) := s.loadJournal workflowId stepName
    (s, .ok journal)
  let cursor : JournalCursor := { workflowId, stepName, guard_, journal }
  (CompensationStack.registered cursor body).unwind rt

/-- Whether the row is a recorded failure of the attempt. -/
def JournalEntry.isFailedOutcome (entry : JournalEntry) : Bool :=
  (entry.stepType = .activity || entry.stepType = .child || entry.stepType = .compensation) &&
    entry.phase = .completed && entry.exit.any fun exit => !exit.isSuccess

/-- Drop what the next attempt must re-execute rather than replay. Best effort: a rejected
    write is passed over. -/
def discardFailedAttempt (s : InMemoryWorkflowStorage) (workflowId stepName : String)
    (rolledBack : List JournalSlot) (guard_ : FenceGuard) : InMemoryWorkflowStorage :=
  let (s, journal) := s.loadJournal workflowId stepName
  let failed := (journal.filter JournalEntry.isFailedOutcome).map JournalEntry.slot
  -- A map by slot key: every slot once.
  let slots := ((failed ++ rolledBack).foldl (fun m slot => m.set (slotKey slot) slot)
    (JsMap.empty : JsMap String JournalSlot)).values
  if slots = [] then s
  else (s.discardJournalEntries workflowId stepName slots guard_).1

end Promin.Durable
