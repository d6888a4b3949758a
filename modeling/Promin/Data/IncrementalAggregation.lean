import Promin.Data.StreamingAgg

/-!
# Incremental aggregation

`IncrementalAggregation` keeps the accumulators of its groups in memory and,
with a state backend, stores each group that a batch has changed.
-/

namespace Promin.Data

structure StreamGroup (κ : Type) where
  keyValues : Row κ
  accs : List (GroupAccumulator κ)

/-- A stored accumulator: sets and maps are lists. -/
structure SerializableAccumulator (κ : Type) where
  count : Nat
  sum : κ
  min : Option κ
  max : Option κ
  first : κ
  last : κ
  values : List κ
  distinct : List κ
  sumSq : κ
  freqMap : List (κ × Nat)
  customAcc : κ

structure StoredGroup (κ : Type) where
  keyValues : Row κ
  accs : List (SerializableAccumulator κ)

structure IncrementalAggregationConfig (κ : Type) where
  groupBy : List String
  agg : List (String × AggFn κ)
  hasState : Bool

/-- The memory of an instance. -/
structure IncrementalAggregation (κ : Type) where
  groups : JsMap String (StreamGroup κ)
  loaded : Bool

/-- The backend: it keeps what is put, and lists the keys in the order in which they came. -/
abbrev AggStateBackend (κ : Type) := JsMap String (StoredGroup κ)

/-- A new instance. -/
def IncrementalAggregation.create {κ : Type} : IncrementalAggregation κ := ⟨JsMap.empty, false⟩

section Incremental

variable {κ : Type} [DecidableEq κ] [StreamCells κ]

open JsCells

/-! ## Stored groups -/

def toSerializable (acc : GroupAccumulator κ) : SerializableAccumulator κ where
  count := acc.count
  sum := acc.sum
  min := acc.min
  max := acc.max
  first := acc.first
  last := acc.last
  values := acc.values
  distinct := acc.distinct.keys
  sumSq := acc.sumSq
  freqMap := acc.freqMap.entries
  customAcc := acc.customAcc

def fromSerializable (s : SerializableAccumulator κ) : GroupAccumulator κ where
  count := s.count
  sum := s.sum
  min := s.min
  max := s.max
  first := s.first
  last := s.last
  values := s.values
  distinct := s.distinct.foldl (fun set v => set.set v ()) JsMap.empty
  sumSq := s.sumSq
  freqMap := s.freqMap.foldl (fun map e => map.set e.1 e.2) JsMap.empty
  customAcc := s.customAcc

def StreamGroup.store (group : StreamGroup κ) : StoredGroup κ :=
  ⟨group.keyValues, group.accs.map toSerializable⟩

def StoredGroup.load (stored : StoredGroup κ) : StreamGroup κ :=
  ⟨stored.keyValues, stored.accs.map fromSerializable⟩

/-- The key of a row's group. -/
def groupKey (groupBy : List String) (row : Row κ) : String :=
  "\x00".intercalate (groupBy.map fun c => text (cell row c))

variable (config : IncrementalAggregationConfig κ)

def StreamGroup.start (row : Row κ) : StreamGroup κ :=
  { keyValues := selectRow config.groupBy row
    accs := config.agg.map fun agg => createAccumulator agg.2.agg }

def GroupAccumulator.addRow (name : String) (fn : AggFn κ) (acc : GroupAccumulator κ)
    (row : Row κ) : GroupAccumulator κ :=
  match fn with
  | .column agg => acc.accumulate agg (cell row name)
  | .expr expr agg filter =>
    match filter with
    | some keep => if JsCells.truthy (keep row) then acc.accumulate agg (expr row) else acc
    | none => acc.accumulate agg (expr row)

def StreamGroup.addRow (group : StreamGroup κ) (row : Row κ) : StreamGroup κ :=
  { group with
    accs := List.zipWith (fun agg acc => acc.addRow agg.1 agg.2 row) config.agg group.accs }

def addRows (groups : JsMap String (StreamGroup κ)) (rows : List (Row κ)) :
    JsMap String (StreamGroup κ) :=
  rows.foldl (fun groups row =>
    let key := groupKey config.groupBy row
    let group := (groups.get key).getD (StreamGroup.start config row)
    groups.set key (group.addRow config row)) groups

def dirtyKeys (rows : List (Row κ)) : List String :=
  (rows.map (groupKey config.groupBy)).eraseDups

def StreamGroup.result (group : StreamGroup κ) : Row κ :=
  (config.agg.zip group.accs).foldl (fun row p => row.set p.1.1 (p.2.finalize p.1.2.agg))
    (spread group.keyValues)

/-! ## One operation at a time -/

structure AggState (κ : Type) where
  inst : IncrementalAggregation κ
  store : AggStateBackend κ

def takeOver (groups : JsMap String (StreamGroup κ)) (key : String)
    (stored : Option (StoredGroup κ)) : JsMap String (StreamGroup κ) :=
  match stored with
  | some stored => groups.set key stored.load
  | none => groups

/-- Takes over the stored groups, once. -/
def loadState (s : AggState κ) : AggState κ :=
  if s.inst.loaded || !config.hasState then { s with inst := { s.inst with loaded := true } }
  else
    { s with
      inst :=
        { groups := s.store.keys.foldl (fun groups key => takeOver groups key (s.store.get key))
            s.inst.groups
          loaded := true } }

def saveGroup (groups : JsMap String (StreamGroup κ)) (store : AggStateBackend κ) (key : String) :
    AggStateBackend κ :=
  if config.hasState then
    match groups.get key with
    | some group => store.set key group.store
    | none => store
  else store

/-- Adds rows to their groups and saves the groups they changed. -/
def ingest (s : AggState κ) (rows : List (Row κ)) : AggState κ :=
  let s := loadState config s
  let groups := addRows config s.inst.groups rows
  { inst := { s.inst with groups }
    store := (dirtyKeys config rows).foldl (saveGroup config groups) s.store }

/-- The results of all groups. -/
def snapshot (s : AggState κ) : AggState κ × List (Row κ) :=
  let s := loadState config s
  (s, s.inst.groups.values.map (StreamGroup.result config))

/-- Forgets every group, the stored ones too. -/
def reset (s : AggState κ) : AggState κ :=
  { inst := ⟨JsMap.empty, false⟩
    store := if config.hasState then s.inst.groups.keys.foldl JsMap.delete s.store else s.store }

/-- A new instance over the same backend. -/
def reload (s : AggState κ) : AggState κ := { s with inst := IncrementalAggregation.create }

/-! ## Between two awaits -/

/-- Where a call of `ingest` waits: for its turn, for an operation of the backend, or for its turn
after the operation. -/
inductive IngestTask (κ : Type) where
  /-- not called yet -/
  | waiting (rows : List (Row κ))
  /-- nothing more to load -/
  | ready (rows : List (Row κ))
  | listing (rows : List (Row κ))
  | listed (rows : List (Row κ)) (keys : List String)
  | getting (rows : List (Row κ)) (key : String) (keys : List String)
  | got (rows : List (Row κ)) (key : String) (stored : Option (StoredGroup κ)) (keys : List String)
  | putting (key : String) (stored : StoredGroup κ) (keys : List String)
  | put (keys : List String)
  | done

def IngestTask.saveNext (groups : JsMap String (StreamGroup κ)) : List String → IngestTask κ
  | [] => .done
  | key :: keys =>
    if config.hasState then
      match groups.get key with
      | some group => .putting key group.store keys
      | none => .put keys
    else .put keys

def IngestTask.addBatch (s : AggState κ) (rows : List (Row κ)) : AggState κ × IngestTask κ :=
  let groups := addRows config s.inst.groups rows
  ({ s with inst := ⟨groups, true⟩ }, saveNext config groups (dirtyKeys config rows))

/-- The rest of `loadState`, which its caller awaits. -/
def IngestTask.loadNext (s : AggState κ) (rows : List (Row κ)) :
    List String → AggState κ × IngestTask κ
  | [] => ({ s with inst := { s.inst with loaded := true } }, .ready rows)
  | key :: keys => (s, .getting rows key keys)

/-- One step of a call: up to its next await, or an operation of the backend. -/
def IngestTask.step (s : AggState κ) : IngestTask κ → AggState κ × IngestTask κ
  | .waiting rows =>
    if s.inst.loaded || !config.hasState then
      ({ s with inst := { s.inst with loaded := true } }, .ready rows)
    else (s, .listing rows)
  | .ready rows => addBatch config s rows
  | .listing rows => (s, .listed rows s.store.keys)
  | .listed rows keys => loadNext s rows keys
  | .getting rows key keys => (s, .got rows key (s.store.get key) keys)
  | .got rows key stored keys =>
    loadNext { s with inst := { s.inst with groups := takeOver s.inst.groups key stored } }
      rows keys
  | .putting key stored keys => ({ s with store := s.store.set key stored }, .put keys)
  | .put keys => (s, saveNext config s.inst.groups keys)
  | .done => (s, .done)

/-- Two calls on one instance. -/
structure Overlap (κ : Type) where
  shared : AggState κ
  task : Bool → IngestTask κ

/-- One of the two calls makes its next move. -/
def Overlap.step (s : Overlap κ) (i : Bool) : Overlap κ :=
  let next := (s.task i).step config s.shared
  { shared := next.1, task := Function.update s.task i next.2 }

def Overlap.run (s : Overlap κ) (schedule : List Bool) : Overlap κ :=
  schedule.foldl (Overlap.step config) s

/-- Two calls that are about to be made. -/
def Overlap.start (s : AggState κ) (rows : Bool → List (Row κ)) : Overlap κ :=
  { shared := s, task := fun i => .waiting (rows i) }

end Incremental

end Promin.Data
