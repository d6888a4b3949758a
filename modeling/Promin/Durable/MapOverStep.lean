import Promin.Durable.LoopStep

/-!
# Map steps

`.mapOver()`: one task row for each element of the source array. The elements
run at the same time and finish in any order; each writes its task row before
the step settles.
-/

namespace Promin.Durable

variable {α : Type}

/-- How running an element ends. -/
inductive ElementExit (α : Type) where
  | ok (result : α)
  /-- A typed failure, after the element's retries. -/
  | fail (error : Thrown)
  /-- A throw or rejection. -/
  | die (error : Thrown)

/-- A map step over a source array. The elements are given by how running them ends. -/
structure MapOverStep (α : Type) where
  name : String
  length : Nat
  element : Nat → ElementExit α
  codec : Codec α

/-- What the running map step holds in memory. -/
structure MapProcess (α : Type) where
  /-- The lock the step was started under. -/
  guard_ : FenceGuard
  /-- Decoded results of the elements that had a completed task row. -/
  saved : JsMap Nat α
  missing : List Nat
  /-- How the elements ended whose row is not written. -/
  ended : JsMap Nat (ElementExit α)
  /-- Results of the elements that ran and whose row is written. -/
  fresh : JsMap Nat α
  /-- What the first element failed with. -/
  failed : Option Thrown

/-- The storage, the elements that ran so far, newest last, and the running step. -/
structure MapWorld (α : Type) where
  storage : InMemoryWorkflowStorage
  events : List Nat
  process : Option (MapProcess α)

/-- What can happen next. -/
inductive MapEvent where
  | traffic (t : LockTraffic)
  /-- The step is started: it reads its task rows. -/
  | load (guard_ : FenceGuard)
  | run (taskIndex : Nat)
  /-- The row of an element that ended is written. -/
  | save (taskIndex : Nat)
  /-- The process crashes, or the step is over. -/
  | stop

def failureMessage : Thrown → String
  | .error message _ => message
  | error => error.tag.getD (errorMessage error)

namespace MapOverStep

variable (m : MapOverStep α) (x : StepExec)

def decodeCompletedTasks (row : Option StepState) : JsMap Nat α :=
  ((row.bind (·.tasks)).getD []).foldl (fun saved task =>
    if task.status ≠ .completed then saved
    else if task.taskIndex < 0 ∨ task.taskIndex ≥ (m.length : Int) then saved
    else saved.set task.taskIndex.toNat (m.codec.decode (task.result.getD .undefined))) JsMap.empty

def rowIn (s : InMemoryWorkflowStorage) : Option StepState :=
  (s.workflows.get x.workflowId).bind fun wf => wf.steps.get m.name

def start (guard_ : FenceGuard) (s : InMemoryWorkflowStorage) : MapProcess α :=
  let saved := m.decodeCompletedTasks (m.rowIn x s)
  { guard_ := guard_
    saved := saved
    missing := (List.range m.length).filter fun i => !saved.has i
    ended := JsMap.empty
    fresh := JsMap.empty
    failed := none }

def runElement (w : MapWorld α) (p : MapProcess α) (taskIndex : Nat) : MapWorld α :=
  if p.failed.isNone && p.missing.contains taskIndex && !p.ended.has taskIndex &&
      !p.fresh.has taskIndex then
    { w with
      events := w.events ++ [taskIndex]
      process := some { p with ended := p.ended.set taskIndex (m.element taskIndex) } }
  else w

/-- Write the row of an element that ended. A failure of the element or of the write fails
    the step. -/
def saveElement (w : MapWorld α) (p : MapProcess α) (taskIndex : Nat) : MapWorld α :=
  let settled := { p with ended := p.ended.delete taskIndex }
  let failedWith (error : Thrown) : MapProcess α :=
    { settled with failed := p.failed.or (some error) }
  match p.ended.get taskIndex with
  | none => w
  | some (.ok result) =>
    match w.storage.saveTask x.workflowId m.name taskIndex
        (.completed (m.codec.encode result)) p.guard_ with
    | (s, .ok ()) =>
      { w with
        storage := s, process := some { settled with fresh := p.fresh.set taskIndex result } }
    | (s, .error e) => { w with storage := s, process := some (failedWith e.thrown) }
  | some (.fail error) =>
    -- Control flow passes through untouched.
    if isControlFlowExit error then { w with process := some (failedWith error) }
    else
      match w.storage.saveTask x.workflowId m.name taskIndex
          (.failed (failureMessage error)) p.guard_ with
      | (s, .ok ()) => { w with storage := s, process := some (failedWith error) }
      | (s, .error e) => { w with storage := s, process := some (failedWith e.thrown) }
  | some (.die error) => { w with process := some (failedWith error) }

def stepMap (w : MapWorld α) : MapEvent → MapWorld α
  | .traffic t => { w with storage := storage.next w.storage (t.op x.workflowId) }
  | .load guard_ =>
    match w.process with
    | none => { w with process := some (m.start x guard_ w.storage) }
    | some _ => w
  | .run taskIndex =>
    match w.process with
    | none => w
    | some p => m.runElement w p taskIndex
  | .save taskIndex =>
    match w.process with
    | none => w
    | some p => m.saveElement x w p taskIndex
  | .stop => { w with process := none }

def machine : Machine (MapWorld α) MapEvent Unit where
  step w e := (m.stepMap x w e, ())

/-- The joined results; `none` is `undefined`. -/
def joined (p : MapProcess α) : List (Option α) :=
  if p.missing.isEmpty then (List.range m.length).map fun i => p.saved.get i
  else if p.saved.size = 0 then p.missing.map fun i => p.fresh.get i
  else (List.range m.length).map fun i =>
    if p.saved.has i then p.saved.get i else p.fresh.get i

/-- How the step ended, once it did. -/
def result (p : MapProcess α) : Option (Except Thrown (List (Option α))) :=
  match p.failed with
  | some e => some (.error e)
  | none => if p.missing.all p.fresh.has then some (.ok (m.joined p)) else none

end MapOverStep

end Promin.Durable
