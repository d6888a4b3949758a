import Promin.ForStd.Comparators
import Promin.ForStd.JsMap
import Promin.Shared.JsValue

/-!
# The sources of knowledge bases

`InMemoryKnowledgeBaseStore`, of which the queue over its source rows: a worker
claims a source, renews its claim, and records the outcome while it holds the
claim.
-/

namespace Promin.Agent

inductive KnowledgeSourceStatus where
  | pending
  | ingesting
  | ready
  | failed
  deriving DecidableEq

structure KnowledgeSourceRecord where
  id : String
  title : Option String := none
  uri : Option String := none
  mimeType : Option String := none
  tags : List String := []
  metadata : List (String × JsValue) := []
  text : String
  status : KnowledgeSourceStatus
  error : Option String := none
  chunkCount : Nat := 0
  createdAt : Int
  updatedAt : Int

structure KnowledgeSourceKey where
  namespaceId : String
  baseId : String
  sourceId : String
  deriving DecidableEq

structure ClaimedKnowledgeSource where
  namespaceId : String
  baseId : String
  source : KnowledgeSourceRecord

def ClaimedKnowledgeSource.key (claimed : ClaimedKnowledgeSource) : KnowledgeSourceKey :=
  ⟨claimed.namespaceId, claimed.baseId, claimed.source.id⟩

structure SourceClaim where
  workerId : String
  «at» : Int

structure InMemorySource where
  record : KnowledgeSourceRecord
  claim : Option SourceClaim := none

def InMemorySource.heldBy (entry : InMemorySource) (workerId : String) : Bool :=
  entry.record.status == .ingesting && entry.claim.map (·.workerId) == some workerId

/-- Pending, or held by a worker that has gone silent. -/
def InMemorySource.claimable (entry : InMemorySource) (now staleAfterMs : Int) : Bool :=
  entry.record.status == .pending || entry.record.status == .ingesting &&
    match entry.claim with
    | none => true
    | some claim => decide (claim.at < now - staleAfterMs)

/-- What `releaseClaims` leaves of a row. -/
def InMemorySource.released (entry : InMemorySource) (workerId : String) : InMemorySource :=
  if entry.heldBy workerId then { record := { entry.record with status := .pending } } else entry

structure InMemoryKnowledgeBaseStore where
  /-- By namespace and base, then by source id. -/
  sources : JsMap (String × String) (JsMap String InMemorySource)
  now : Int

namespace InMemoryKnowledgeBaseStore

variable (s : InMemoryKnowledgeBaseStore)

def entry (key : KnowledgeSourceKey) : Option InMemorySource :=
  (s.sources.get (key.namespaceId, key.baseId)).bind (·.get key.sourceId)

/-- Write a row; the map of the base is made if there is none. -/
def put (key : KnowledgeSourceKey) (entry : InMemorySource) : InMemoryKnowledgeBaseStore :=
  let sources := (s.sources.get (key.namespaceId, key.baseId)).getD JsMap.empty
  { s with sources := s.sources.set (key.namespaceId, key.baseId) (sources.set key.sourceId entry) }

def saveSource (namespaceId baseId : String) (source : KnowledgeSourceRecord) :
    InMemoryKnowledgeBaseStore :=
  s.put ⟨namespaceId, baseId, source.id⟩ { record := source }

def deleteSource (key : KnowledgeSourceKey) : InMemoryKnowledgeBaseStore :=
  match s.sources.get (key.namespaceId, key.baseId) with
  | none => s
  | some sources =>
    { s with sources := s.sources.set (key.namespaceId, key.baseId) (sources.delete key.sourceId) }

/-- All rows, in the order the loops go over them. -/
def rows : List (KnowledgeSourceKey × InMemorySource) :=
  s.sources.entries.flatMap fun base => base.2.entries.map fun source =>
    (⟨base.1.1, base.1.2, source.1⟩, source.2)

/-- The first of the claimable rows that were written the longest ago. -/
def best (staleAfterMs : Int) : Option (KnowledgeSourceKey × InMemorySource) :=
  Comparators.greatest (fun a b => compare b.2.record.updatedAt a.2.record.updatedAt)
    (s.rows.filter fun row => row.2.claimable s.now staleAfterMs)

def claimSource (workerId : String) (staleAfterMs : Int) :
    InMemoryKnowledgeBaseStore × Option ClaimedKnowledgeSource :=
  match s.best staleAfterMs with
  | none => (s, none)
  | some (key, entry) =>
    let record := { entry.record with status := .ingesting }
    (s.put key { record := record, claim := some ⟨workerId, s.now⟩ },
      some ⟨key.namespaceId, key.baseId, record⟩)

def completeSource (namespaceId baseId workerId : String) (source : KnowledgeSourceRecord) :
    InMemoryKnowledgeBaseStore × Bool :=
  let key : KnowledgeSourceKey := ⟨namespaceId, baseId, source.id⟩
  if (s.entry key).any (·.heldBy workerId) then (s.put key { record := source }, true)
  else (s, false)

def heartbeatClaim (key : KnowledgeSourceKey) (workerId : String) :
    InMemoryKnowledgeBaseStore × Bool :=
  match (s.entry key).filter (·.heldBy workerId) with
  | some entry => (s.put key { entry with claim := some ⟨workerId, s.now⟩ }, true)
  | none => (s, false)

def releaseClaims (workerId : String) : InMemoryKnowledgeBaseStore × Nat :=
  ({ s with
      sources := s.sources.mapValues fun _ sources =>
        sources.mapValues fun _ entry => entry.released workerId },
    s.rows.countP fun row => row.2.heldBy workerId)

end InMemoryKnowledgeBaseStore

end Promin.Agent
