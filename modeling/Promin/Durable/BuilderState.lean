import Promin.Durable.DagExecutor

/-!
# Step lists of workflow builders

The steps of a `WorkflowBuilder` are a `StepSeq`: the first `length` entries of
an append-only array that all builders of a chain share, with an index from step
names to positions.
-/

namespace Promin.Durable

/-- The array a family of `StepSeq`s shares. -/
structure StepStore (V : Type) where
  defs : List (StepDefinition V)
  /-- Step name to its index in `defs`. -/
  index : JsMap String Nat

structure StepSeq where
  store : Nat
  length : Nat

/-- The stores there are, at the addresses below `size`. -/
structure StepHeap (V : Type) where
  stores : Nat → StepStore V
  size : Nat

variable {V : Type}

def StepStore.empty : StepStore V where
  defs := []
  index := JsMap.empty

def StepHeap.empty : StepHeap V where
  stores _ := .empty
  size := 0

namespace StepHeap

variable (heap : StepHeap V)

def allocate (store : StepStore V) : StepHeap V × Nat :=
  ({ stores := Function.update heap.stores heap.size store, size := heap.size + 1 }, heap.size)

def emptySteps : StepHeap V × StepSeq :=
  let (heap, store) := heap.allocate .empty
  (heap, { store := store, length := 0 })

def hasStep (seq : StepSeq) (name : String) : Bool :=
  match (heap.stores seq.store).index.get name with
  | none => false
  | some i => decide (i < seq.length)

def findStep (seq : StepSeq) (name : String) : Option (StepDefinition V) :=
  match (heap.stores seq.store).index.get name with
  | none => none
  | some i => if i < seq.length then (heap.stores seq.store).defs[i]? else none

def lastStep (seq : StepSeq) : Option (StepDefinition V) :=
  if seq.length = 0 then none else (heap.stores seq.store).defs[seq.length - 1]?

def stepsToArray (seq : StepSeq) : List (StepDefinition V) :=
  (heap.stores seq.store).defs.take seq.length

/-- A store of the first `length` steps: a copy of the index without the tail's names, or, past
    a long tail, a new one. -/
def copyPrefix (store : StepStore V) (length : Nat) : StepStore V :=
  let defs := store.defs.take length
  if store.defs.length - length ≤ length then
    { defs := defs
      index := ((store.defs.drop length).map (·.name)).foldl (fun index name => index.delete name)
        store.index }
  else
    { defs := defs
      index := defs.zipIdx.foldl (fun index (step, i) => index.set step.name i) JsMap.empty }

def duplicateName (heap : StepHeap V) (seq : StepSeq) (batch : List String) :
    List (StepDefinition V) → Option String
  | [] => none
  | step :: rest =>
    if batch.contains step.name || heap.hasStep seq step.name then some step.name
    else heap.duplicateName seq (step.name :: batch) rest

end StepHeap

def StepStore.push (store : StepStore V) (defs : List (StepDefinition V)) : StepStore V :=
  defs.foldl (fun store step =>
    { defs := store.defs ++ [step], index := store.index.set step.name store.defs.length }) store

/-- `seq` followed by `defs`, or the name `onDuplicate` is thrown for. -/
def StepHeap.appendSteps (heap : StepHeap V) (seq : StepSeq) (defs : List (StepDefinition V)) :
    Except String (StepHeap V × StepSeq) :=
  match heap.duplicateName seq [] defs with
  | some name => .error name
  | none =>
    let store := heap.stores seq.store
    if seq.length = store.defs.length then
      let store := store.push defs
      .ok ({ heap with stores := Function.update heap.stores seq.store store },
        { store := seq.store, length := store.defs.length })
    else
      let store := (StepHeap.copyPrefix store seq.length).push defs
      let (heap, address) := heap.allocate store
      .ok (heap, { store := address, length := store.defs.length })

/-! ## Builders -/

/-- The heap and every seq that was returned, oldest first. -/
structure StepBuilders (V : Type) where
  heap : StepHeap V
  seqs : List StepSeq

def StepBuilders.new : StepBuilders V where
  heap := .empty
  seqs := []

/-- A builder begins, or one is extended. -/
inductive StepsOp (V : Type) where
  | emptySteps
  | appendSteps (k : Nat) (defs : List (StepDefinition V))

inductive StepsAnswer where
  | none
  | returned
  | duplicate (name : String)

def stepBuilders : Machine (StepBuilders V) (StepsOp V) StepsAnswer where
  step s o := match o with
    | .emptySteps =>
      let (heap, seq) := s.heap.emptySteps
      ({ heap := heap, seqs := s.seqs ++ [seq] }, .returned)
    | .appendSteps k defs =>
      match s.seqs[k]? with
      | none => (s, .none)
      | some seq =>
        match s.heap.appendSteps seq defs with
        | .error name => (s, .duplicate name)
        | .ok (heap, seq) => ({ heap := heap, seqs := s.seqs ++ [seq] }, .returned)

end Promin.Durable
