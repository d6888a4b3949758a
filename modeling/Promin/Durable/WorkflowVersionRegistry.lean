import Promin.ForStd.Machine
import Promin.Durable.WorkflowState

/-!
# The registry of workflow versions

`InMemoryWorkflowVersionRegistry`: versions by name with their lifecycle status,
the latest version of each name, and a mark on each version whose drain was
notified.
-/

namespace Promin.Durable

inductive VersionStatus where
  | inactive
  | active
  | archived
  deriving DecidableEq

/-- Lifecycle metadata beside a definition. -/
structure VersionEntry (δ : Type) where
  definition : δ
  status : VersionStatus
  contentHash : Option String
  registeredAt : Int
  activeAt : Option Int
  archivedAt : Option Int

structure VersionRecord where
  name : String
  version : String
  status : VersionStatus
  contentHash : Option String
  registeredAt : Int
  activeAt : Option Int
  archivedAt : Option Int

structure WorkflowVersionRegistryConfig where
  autoDeregister : Bool := false
  /-- An `onDrained` callback is given. -/
  hasOnDrained : Bool := false

/-- Per-version run counts. -/
structure VersionRunCounts where
  /-- Non-terminal runs. -/
  running : Nat := 0
  completed : Nat := 0
  failed : Nat := 0
  tripwire : Nat := 0

def addRunCount (counts : VersionRunCounts) (status : WorkflowStatus) (n : Nat) :
    VersionRunCounts :=
  match status with
  | .completed => { counts with completed := counts.completed + n }
  | .failed => { counts with failed := counts.failed + n }
  | .tripwire => { counts with tripwire := counts.tripwire + n }
  | .pending | .running | .suspended | .compensating =>
    { counts with running := counts.running + n }

def WORKFLOW_STATUSES : List WorkflowStatus :=
  [.pending, .running, .completed, .failed, .suspended, .compensating, .tripwire]

def runCounts (count : WorkflowStatus → Nat) : VersionRunCounts :=
  WORKFLOW_STATUSES.foldl
    (fun counts status =>
      if 0 < count status then addRunCount counts status (count status) else counts) {}

structure VersionCount where
  name : String
  /-- The versions that were registered when it began. -/
  registered : List String
  count : String → WorkflowStatus → Nat
  /-- The versions it has yet to look at. -/
  rest : List String
  /-- The version whose hook it waits for. -/
  awaiting : Option String

def VersionCount.counts (call : VersionCount) (version : String) : VersionRunCounts :=
  runCounts (call.count version)

def VersionCount.result (call : VersionCount) : List (String × VersionRunCounts) :=
  call.registered.map fun version => (version, call.counts version)

/-- The definitions, the counts in flight by number, and the clock. -/
structure WorkflowVersionRegistry (δ : Type) where
  definitions : JsMap String (JsMap String (VersionEntry δ))
  latestVersions : JsMap String String
  drainedNotified : List String
  counting : JsMap Nat VersionCount
  now : Int

inductive RegistryCall (δ : Type) where
  | advance (ms : Nat)
  | register (definition : δ) (name : String) (version contentHash : Option String)
  | promote (name version : String)
  | rollback (name toVersion : String)
  | deregister (name version : String)
  /-- `countByVersion`, up to what the storage answered. -/
  | countByVersion (c : Nat) (name : String)
      (answer : Except String (String → WorkflowStatus → Nat))
  | look (c : Nat)
  /-- The hook the count waits for returned, or threw. -/
  | hookDone (c : Nat) (outcome : Except String Unit)

inductive RegistryAnswer where
  | none
  | promoted (active : VersionRecord)
  | rolledBack (previous active : VersionRecord)
  | counted (result : List (String × VersionRunCounts))
  | threw (message : String)

namespace WorkflowVersionRegistry

variable {δ : Type}

def new (now : Int) : WorkflowVersionRegistry δ where
  definitions := JsMap.empty
  latestVersions := JsMap.empty
  drainedNotified := []
  counting := JsMap.empty
  now := now

def toRecord (name version : String) (entry : VersionEntry δ) : VersionRecord where
  name := name
  version := version
  status := entry.status
  contentHash := entry.contentHash
  registeredAt := entry.registeredAt
  activeAt := entry.activeAt
  archivedAt := entry.archivedAt

variable (r : WorkflowVersionRegistry δ)

def entry (name version : String) : Option (VersionEntry δ) :=
  (r.definitions.get name).bind (·.get version)

def latest (name : String) : Option String :=
  r.latestVersions.get name

def versionsOf (name : String) : List String :=
  ((r.definitions.get name).map (·.keys)).getD []

def registeredEntry (definition : δ) (contentHash : Option String) :
    Option (VersionEntry δ) → VersionEntry δ
  | some existing =>
    { existing with
      definition := definition
      contentHash := contentHash.orElse fun _ => existing.contentHash }
  | none =>
    { definition := definition
      status := .inactive
      contentHash := contentHash
      registeredAt := r.now
      activeAt := none
      archivedAt := none }

def register (r : WorkflowVersionRegistry δ) (definition : δ) (name : String)
    (version contentHash : Option String) : WorkflowVersionRegistry δ × RegistryAnswer :=
  match version.filter (· ≠ "") with
  | none =>
    (r, .threw ("Workflow \"" ++ name ++ "\" must have a version to register in the registry"))
  | some version =>
    let versions := (r.definitions.get name).getD JsMap.empty
    let entry := r.registeredEntry definition contentHash (versions.get version)
    ({ r with
        definitions := r.definitions.set name (versions.set version entry)
        latestVersions := r.latestVersions.set name version }, .none)

def activated (entry : VersionEntry δ) : VersionEntry δ :=
  { entry with status := .active, activeAt := some r.now, archivedAt := none }

def promote (r : WorkflowVersionRegistry δ) (name version : String) :
    WorkflowVersionRegistry δ × RegistryAnswer :=
  match r.definitions.get name with
  | none => (r, .threw ("promote: workflow \"" ++ name ++ "\" has no registered versions"))
  | some versions =>
    match versions.get version with
    | none => (r, .threw ("promote: " ++ name ++ "@" ++ version ++ " not registered"))
    | some target =>
      if target.status = .active then (r, .promoted (toRecord name version target))
      else
        let demoted := versions.mapValues fun v entry =>
          if v ≠ version ∧ entry.status = .active then { entry with status := .inactive } else entry
        ({ r with
            definitions := r.definitions.set name (demoted.set version (r.activated target)) },
          .promoted (toRecord name version (r.activated target)))

def previousActive (versions : JsMap String (VersionEntry δ)) (toVersion : String) :
    Option (String × VersionEntry δ) :=
  (versions.entries.filter fun e => e.2.status == .active && e.1 != toVersion).getLast?

def rollback (r : WorkflowVersionRegistry δ) (name toVersion : String) :
    WorkflowVersionRegistry δ × RegistryAnswer :=
  match r.definitions.get name with
  | none => (r, .threw ("rollback: workflow \"" ++ name ++ "\" has no registered versions"))
  | some versions =>
    match versions.get toVersion with
    | none => (r, .threw ("rollback: " ++ name ++ "@" ++ toVersion ++ " not registered"))
    | some target =>
      match previousActive versions toVersion with
      | none => (r, .threw ("rollback: no active version for \"" ++ name ++ "\" to roll back"))
      | some (previousVersion, previous) =>
        let archived := { previous with status := .archived, archivedAt := some r.now }
        ({ r with
            definitions := r.definitions.set name
              ((versions.set previousVersion archived).set toVersion (r.activated target)) },
          .rolledBack (toRecord name previousVersion archived)
            (toRecord name toVersion (r.activated target)))

/-- Remove a version; without the latest one, the last remaining one is. -/
def deregisterNow (name version : String) : WorkflowVersionRegistry δ :=
  let definitions := match r.definitions.get name with
    | none => r.definitions
    | some versions => r.definitions.set name (versions.delete version)
  { r with
    definitions := definitions
    latestVersions :=
      if r.latestVersions.get name = some version then
        match ((definitions.get name).map (·.keys)).bind (·.getLast?) with
        | none => r.latestVersions.delete name
        | some last => r.latestVersions.set name last
      else r.latestVersions }

def isRoutable (name version : String) : Bool :=
  r.latestVersions.get name == some version ||
    (r.entry name version).any fun entry => entry.status == .active

def drainKey (name version : String) : String := name ++ "::" ++ version

def countByVersion (c : Nat) (name : String)
    (answer : Except String (String → WorkflowStatus → Nat)) :
    WorkflowVersionRegistry δ × RegistryAnswer :=
  match answer with
  | .error message => (r, .threw message)
  | .ok count =>
    if r.counting.has c then (r, .none)
    else
      ({ r with
          counting := r.counting.set c {
            name := name
            registered := r.versionsOf name
            count := count
            rest := r.versionsOf name
            awaiting := none } }, .none)

def setCount (c : Nat) (call : VersionCount) : WorkflowVersionRegistry δ :=
  { r with counting := r.counting.set c call }

def endCount (c : Nat) : WorkflowVersionRegistry δ :=
  { r with counting := r.counting.delete c }

def drained (config : WorkflowVersionRegistryConfig) (r : WorkflowVersionRegistry δ)
    (name version : String) : WorkflowVersionRegistry δ :=
  if config.autoDeregister && !r.isRoutable name version then r.deregisterNow name version else r

def lookAt (config : WorkflowVersionRegistryConfig) (r : WorkflowVersionRegistry δ) (c : Nat)
    (call : VersionCount) (version : String) (rest : List String) : WorkflowVersionRegistry δ :=
  let key := drainKey call.name version
  let next := r.setCount c { call with rest := rest }
  -- A hook may have deregistered it meanwhile.
  if (r.entry call.name version).isNone then next
  else if 0 < (call.counts version).running then
    { next with drainedNotified := r.drainedNotified.filter (· ≠ key) }
  else if r.drainedNotified.contains key then next
  else
    let marked := { r with drainedNotified := key :: r.drainedNotified }
    if config.hasOnDrained then
      marked.setCount c { call with rest := rest, awaiting := some version }
    else (marked.setCount c { call with rest := rest }).drained config call.name version

def look (config : WorkflowVersionRegistryConfig) (r : WorkflowVersionRegistry δ) (c : Nat) :
    WorkflowVersionRegistry δ × RegistryAnswer :=
  match r.counting.get c with
  | none => (r, .none)
  | some call =>
    match call.awaiting, call.rest with
    | some _, _ => (r, .none)
    | none, [] => (r.endCount c, .counted call.result)
    | none, version :: rest => (r.lookAt config c call version rest, .none)

def hookDone (config : WorkflowVersionRegistryConfig) (r : WorkflowVersionRegistry δ) (c : Nat)
    (outcome : Except String Unit) : WorkflowVersionRegistry δ × RegistryAnswer :=
  match r.counting.get c with
  | none => (r, .none)
  | some call =>
    match call.awaiting, outcome with
    | none, _ => (r, .none)
    | some _, .error message => (r.endCount c, .threw message)
    | some version, .ok () =>
      ((r.setCount c { call with awaiting := none }).drained config call.name version, .none)

end WorkflowVersionRegistry

def workflowVersionRegistry {δ : Type} (config : WorkflowVersionRegistryConfig) :
    Machine (WorkflowVersionRegistry δ) (RegistryCall δ) RegistryAnswer where
  step r o := match o with
    | .advance ms => ({ r with now := r.now + ms }, .none)
    | .register definition name version contentHash =>
      r.register definition name version contentHash
    | .promote name version => r.promote name version
    | .rollback name toVersion => r.rollback name toVersion
    | .deregister name version => (r.deregisterNow name version, .none)
    | .countByVersion c name answer => r.countByVersion c name answer
    | .look c => r.look config c
    | .hookDone c outcome => r.hookDone config c outcome

end Promin.Durable
