import Promin.Durable.JournalCursor

/-!
# The yields of a journaled body

What a body run yields is a tree: activities, sleeps, signals and children, and
`ctx.parallel` calls whose branches yield in turn.
-/

namespace Promin.Durable

def branchPrefix (parallelPath : String) (branch : Nat) : String :=
  parallelPath ++ "/" ++ toString branch

def pathInBranch (branchPath : String) (seq : Nat) : String :=
  branchPath ++ "." ++ toString seq

structure ActivityScope where
  parallelActivityIndex : Nat
  /-- Path of the branch; each yield's path extends it via `pathInBranch`. -/
  pathPrefix : String
  localCounter : Nat

def nextPathInScope (scope : ActivityScope) : String × ActivityScope :=
  (pathInBranch scope.pathPrefix scope.localCounter,
    { scope with localCounter := scope.localCounter + 1 })

namespace JournalCursor

/-- Allocate the slot of one yield: inside a parallel branch the branch scope supplies it, at
    top level the step's counter does. -/
def allocateSlot (c : JournalCursor) (scope : Option ActivityScope) :
    JournalSlot × JournalCursor × Option ActivityScope :=
  match scope with
  | some scope =>
    let (path, scope') := nextPathInScope scope
    (⟨scope.parallelActivityIndex, path⟩, c, some scope')
  | none => (⟨c.nextIndex, ""⟩, { c with nextIndex := c.nextIndex + 1 }, none)

def reserveTopLevelIndex (c : JournalCursor) : Nat × JournalCursor :=
  (c.nextIndex, { c with nextIndex := c.nextIndex + 1 })

end JournalCursor

/-! ## Trees of yields -/

/-- One yield of a body or a branch. -/
inductive JournaledYield where
  /-- An activity, a sleep, a signal or a child. -/
  | leaf (kind : JournalYieldKind) (name : String)
  | parallel (branches : List (List JournaledYield))

/-- What a body draws from the top-level counter. -/
inductive BodyItem where
  | yielded (y : JournaledYield)
  /-- The compensation of an activity that has succeeded. Inside a branch
      `compensate` is rejected. -/
  | compensation (activityName : String)

/-- A place in a tree of yields: an item of the body, and from there on a branch and a yield
    of it for each enclosing parallel, outermost first. -/
structure YieldPosition where
  item : Nat
  path : List (Nat × Nat)

namespace YieldPosition

def inBranch (position : YieldPosition) (branch seq : Nat) : YieldPosition :=
  ⟨position.item, position.path ++ [(branch, seq)]⟩

end YieldPosition

structure BranchRun where
  scope : ActivityScope
  rest : List JournaledYield
  parallel : YieldPosition
  branch : Nat
  /-- How many yields it has made. -/
  made : Nat

/-- A slot that was drawn, for what and where. -/
structure DrawnSlot where
  position : YieldPosition
  item : BodyItem
  slot : JournalSlot

structure BodyRun where
  cursor : JournalCursor
  rest : List BodyItem
  /-- How many items the body has come past. -/
  made : Nat
  branches : List BranchRun
  drawn : List DrawnSlot

namespace BodyRun

def start (cursor : JournalCursor) (body : List BodyItem) : BodyRun where
  cursor := { cursor with nextIndex := 0 }
  rest := body
  made := 0
  branches := []
  drawn := []

def makeParallel (position : YieldPosition) (slot : JournalSlot) : JournaledYield → List BranchRun
  | .leaf _ _ => []
  | .parallel branches => branches.mapIdx fun i rest =>
    { scope :=
        { parallelActivityIndex := slot.activityIndex
          pathPrefix := branchPrefix slot.branchPath i
          localCounter := 0 }
      rest := rest
      parallel := position
      branch := i
      made := 0 }

def stepBody (run : BodyRun) : BodyRun :=
  let position : YieldPosition := ⟨run.made, []⟩
  match run.rest with
  | [] => run
  | .yielded y :: rest =>
    let (slot, cursor, _) := run.cursor.allocateSlot none
    { cursor := cursor
      rest := rest
      made := run.made + 1
      branches := run.branches ++ makeParallel position slot y
      drawn := run.drawn ++ [⟨position, .yielded y, slot⟩] }
  | .compensation activityName :: rest =>
    let (index, cursor) := run.cursor.reserveTopLevelIndex
    { run with
      cursor := cursor
      rest := rest
      made := run.made + 1
      drawn := run.drawn ++ [⟨position, .compensation activityName, ⟨index, ""⟩⟩] }

/-- The `i`-th branch that was started goes on to its next yield. -/
def stepBranch (run : BodyRun) (i : Nat) : BodyRun :=
  match run.branches[i]? with
  | none => run
  | some b =>
    match b.rest with
    | [] => run
    | y :: rest =>
      let position := b.parallel.inBranch b.branch b.made
      let (slot, cursor, scope) := run.cursor.allocateSlot (some b.scope)
      { run with
        cursor := cursor
        branches := run.branches.set i
            { b with scope := scope.getD b.scope, rest := rest, made := b.made + 1 } ++
          makeParallel position slot y
        drawn := run.drawn ++ [⟨position, .yielded y, slot⟩] }

/-- Nobody has anything left to yield. -/
def Finished (run : BodyRun) : Prop := run.rest = [] ∧ ∀ b ∈ run.branches, b.rest = []

end BodyRun

/-- Who goes on next. -/
inductive BodyChoice where
  | body
  | branch (i : Nat)

/-- A body and its parallel branches, in any interleaving. -/
def bodyRun : Machine BodyRun BodyChoice Unit where
  step run choice := match choice with
    | .body => (run.stepBody, ())
    | .branch i => (run.stepBranch i, ())

end Promin.Durable

/-!
## Child workflows

What `ctx.child` derives for the child of a slot.
-/

namespace Promin.Durable

/-- The default id of a child: `${workflowId}.${stepName}.${activityIndex}` and the branch path,
    with "/" written as "~". -/
def defaultChildId (workflowId stepName : String) (slot : JournalSlot) : String :=
  workflowId ++ "." ++ stepName ++ "." ++ toString slot.activityIndex ++
    String.ofList (slot.branchPath.toList.map fun c => if c = '/' then '~' else c)

def childWorkflowId (option : Option String) (workflowId stepName : String)
    (slot : JournalSlot) : String :=
  option.getD (defaultChildId workflowId stepName slot)

end Promin.Durable
