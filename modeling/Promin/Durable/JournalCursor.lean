import Promin.Durable.Storage

/-!
# The journal cursor

`JournalCursor`: one journaled body run's view of its step journal.
-/

namespace Promin.Durable

/-- Kinds of yield that check a recorded entry before replaying it. -/
inductive JournalYieldKind where
  | activity
  | sleep
  | signal
  | child

/-- Answer of `complete`: whether this call's exit is the one stored, and the exit to go
    on with. -/
structure CompleteResult where
  won : Bool
  exit : JournalExit

/-- Where a replayed body has come to in its journal. -/
structure JournalCursor where
  workflowId : String
  stepName : String
  guard_ : FenceGuard
  journal : List JournalEntry
  /-- Top-level slot counter. -/
  nextIndex : Nat := 0

namespace JournalCursor

variable (c : JournalCursor)

def entries : JsMap String JournalEntry :=
  c.journal.foldl (fun m e => m.set (slotKey e.slot) e) JsMap.empty

/-- The entry of a slot, from the journal as it was loaded. -/
def recorded (slot : JournalSlot) : Option JournalEntry :=
  c.entries.get (slotKey slot)

def address (slot : JournalSlot) : EntryAddress where
  workflowId := c.workflowId
  stepName := c.stepName
  activityIndex := slot.activityIndex
  branchPath := some slot.branchPath

def writePending (s : InMemoryWorkflowStorage) (slot : JournalSlot) (kind : JournalStepType)
    (name : String) (payloadHash : Option String) (wakeAt : Option Int) :
    InMemoryWorkflowStorage × Except StorageError Unit :=
  s.appendPendingEntry (c.address slot) name payloadHash kind wakeAt c.guard_

/-- Complete the pending row of `slot` and answer the exit the journal now holds: another
    writer's when it completed the slot first. -/
def complete (s : InMemoryWorkflowStorage) (slot : JournalSlot) (exit : JournalExit) :
    InMemoryWorkflowStorage × Except StorageError CompleteResult :=
  let r := s.completePendingEntry (c.address slot) exit c.guard_
  (r.1, r.2.map fun result =>
    match result.completed, result.exit with
    | true, _ => ⟨true, exit⟩
    -- No stored exit means the entry is gone: keep the local outcome.
    | false, none => ⟨true, exit⟩
    | false, some stored => ⟨false, stored⟩)

end JournalCursor

end Promin.Durable
