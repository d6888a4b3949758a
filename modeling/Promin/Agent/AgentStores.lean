import Promin.ForStd.Machine
import Promin.Agent.MemoryStore

/-!
# The agent's stores as a machine

Every operation of the memory store and of the lease store, one after the other,
with the answers they give.
-/

/-!
## The agent's lease store

`InMemoryLeaseStore`: one lease per thread, stored under the joined key, and for each lease
id the key it was granted for.  An expired lease stays until it is released or stolen.
-/

namespace Promin.Agent

structure ThreadLeaseKey where
  namespaceId : String
  threadId : String

def ThreadLeaseKey.encodeKey (k : ThreadLeaseKey) : String := joinKey k.namespaceId k.threadId

structure ThreadLease where
  key : ThreadLeaseKey
  ownerId : String
  leaseId : String
  acquiredAt : Int
  expiresAt : Int

inductive AcquireResult where
  | acquired (lease : ThreadLease)
  | held (currentLease : ThreadLease)

inductive ExtendResult where
  | extended (lease : ThreadLease)
  | refused (currentLease : Option ThreadLease)

structure InMemoryLeaseStore where
  byKey : JsMap String ThreadLease
  leaseIdToKey : JsMap String String
  now : Int

namespace InMemoryLeaseStore

def new (now : Int) : InMemoryLeaseStore where
  byKey := JsMap.empty
  leaseIdToKey := JsMap.empty
  now := now

variable (s : InMemoryLeaseStore)

def grant (key : ThreadLeaseKey) (ownerId : String) (ttlMs : Int) (uuid : String)
    (stolen : JsMap String String) : InMemoryLeaseStore × AcquireResult :=
  let lease : ThreadLease :=
    { key := key
      ownerId := ownerId
      leaseId := uuid
      acquiredAt := s.now
      expiresAt := s.now + ttlMs }
  ({ s with
      byKey := s.byKey.set key.encodeKey lease
      leaseIdToKey := stolen.set uuid key.encodeKey }, .acquired lease)

def acquire (key : ThreadLeaseKey) (ownerId : String) (ttlMs : Int) (uuid : String) :
    InMemoryLeaseStore × AcquireResult :=
  match s.byKey.get key.encodeKey with
  | none => s.grant key ownerId ttlMs uuid s.leaseIdToKey
  | some existing =>
    if existing.expiresAt > s.now then (s, .held existing)
    else s.grant key ownerId ttlMs uuid (s.leaseIdToKey.delete existing.leaseId)

/-- The source reads the empty key as no key; a joined key is never empty. -/
def extend (leaseId : String) (additionalMs : Int) : InMemoryLeaseStore × ExtendResult :=
  match s.leaseIdToKey.get leaseId with
  | none => (s, .refused none)
  | some k =>
    match s.byKey.get k with
    | none => ({ s with leaseIdToKey := s.leaseIdToKey.delete leaseId }, .refused none)
    | some current =>
      if current.leaseId ≠ leaseId then
        ({ s with leaseIdToKey := s.leaseIdToKey.delete leaseId }, .refused (some current))
      else if current.expiresAt ≤ s.now then (s, .refused (some current))
      else
        let updated := { current with expiresAt := current.expiresAt + additionalMs }
        ({ s with byKey := s.byKey.set k updated }, .extended updated)

def release (leaseId : String) : InMemoryLeaseStore :=
  match s.leaseIdToKey.get leaseId with
  | none => s
  | some k =>
    let s := { s with leaseIdToKey := s.leaseIdToKey.delete leaseId }
    match s.byKey.get k with
    | none => s
    | some current =>
      if current.leaseId = leaseId then { s with byKey := s.byKey.delete k } else s

def get (key : ThreadLeaseKey) : Option ThreadLease :=
  s.byKey.get key.encodeKey

end InMemoryLeaseStore

end Promin.Agent

namespace Promin.Agent

/-! ## Operations and answers -/

inductive MemoryOp (μ : Type) where
  | getNamespace (namespaceId : String)
  | upsertNamespace (namespaceId : String) (patch : NamespacePatch)
  | appendNamespaceFact (namespaceId : String) (input : FactInput) (uuid : String)
  | listNamespaceFacts (namespaceId : String)
  | deleteNamespaceFact (namespaceId factId : String)
  | appendNamespaceEpisode (namespaceId : String) (input : EpisodeInput) (uuid : String)
  | listNamespaceEpisodes (namespaceId : String) (params : EpisodeListParams)
  | deleteNamespaceEpisode (namespaceId episodeId : String)
  | getResource (key : ScopedKey)
  | upsertResource (key : ScopedKey) (patch : NamespacePatch)
  | appendResourceFact (key : ScopedKey) (input : FactInput) (uuid : String)
  | listResourceFacts (key : ScopedKey)
  | deleteResourceFact (key : ScopedKey) (factId : String)
  | appendResourceEpisode (key : ScopedKey) (input : EpisodeInput) (uuid : String)
  | listResourceEpisodes (key : ScopedKey) (params : EpisodeListParams)
  | deleteResourceEpisode (key : ScopedKey) (episodeId : String)
  | createThread (key : ThreadKey) (init : ThreadInit)
  | getThread (key : ThreadKey)
  | listThreads (params : ListThreadsParams)
  | setThreadWorking (key : ThreadKey) (content : Option String)
  | setThreadTitle (key : ThreadKey) (title : Option String)
  | setThreadMetadata (key : ThreadKey) (metadata : Metadata)
  | setThreadInheritFromParent (key : ThreadKey) (inherit : Bool)
  | setThreadArchived (key : ThreadKey) (archivedAt : Option Int)
  | appendThreadFact (key : ThreadKey) (input : FactInput) (uuid : String)
  | listThreadFacts (key : ThreadKey)
  | deleteThreadFact (key : ThreadKey) (factId : String)
  | appendMessages (key : ThreadKey) (msgs : List μ) (idempotencyKey : Option String)
  | getMessages (key : ThreadKey) (range : MessageRange)
  | appendThreadEpisode (key : ThreadKey) (input : EpisodeInput) (uuid : String)
  | listThreadEpisodes (key : ThreadKey) (params : EpisodeListParams)
  | deleteThreadEpisode (key : ThreadKey) (episodeId : String)
  | deleteThread (key : ThreadKey)
  | reserveConsolidation (request : ConsolidationReservationRequest) (uuid : String)
  | releaseConsolidation (namespaceId reservationId : String)
  | resolveContext (key : ThreadKey) (budget : TokenBudget μ)

def MemoryOp.namespaceId {μ : Type} : MemoryOp μ → String
  | .getNamespace ns | .upsertNamespace ns _ | .appendNamespaceFact ns _ _
  | .listNamespaceFacts ns | .deleteNamespaceFact ns _ | .appendNamespaceEpisode ns _ _
  | .listNamespaceEpisodes ns _ | .deleteNamespaceEpisode ns _ | .releaseConsolidation ns _ => ns
  | .getResource key | .upsertResource key _ | .appendResourceFact key _ _
  | .listResourceFacts key | .deleteResourceFact key _ | .appendResourceEpisode key _ _
  | .listResourceEpisodes key _ | .deleteResourceEpisode key _ => key.namespaceId
  | .createThread key _ | .getThread key | .setThreadWorking key _ | .setThreadTitle key _
  | .setThreadMetadata key _ | .setThreadInheritFromParent key _ | .setThreadArchived key _
  | .appendThreadFact key _ _ | .listThreadFacts key | .deleteThreadFact key _
  | .appendMessages key _ _ | .getMessages key _ | .appendThreadEpisode key _ _
  | .listThreadEpisodes key _ | .deleteThreadEpisode key _ | .deleteThread key
  | .resolveContext key _ => key.namespaceId
  | .listThreads params => params.namespaceId
  | .reserveConsolidation request _ => request.namespaceId

inductive MemoryAnswer (μ ρ : Type) where
  | unit
  | «namespace» (row : Option NamespaceRow)
  | resource (row : Option ResourceRow)
  | thread (row : Option ThreadRow)
  | fact (f : Fact)
  | facts (list : List Fact)
  | episode (ep : EpisodicRecord)
  | episodes (list : List EpisodicRecord)
  | threads (page : List ThreadSummary)
  | messages (list : List (StoredMessage μ))
  | reservation (r : ConsolidationReservation)
  | context (c : ρ)
  | threw (message : String)

inductive LeaseOp where
  | acquire (key : ThreadLeaseKey) (ownerId : String) (ttlMs : Int) (uuid : String)
  | extend (leaseId : String) (additionalMs : Int)
  | release (leaseId : String)
  | get (key : ThreadLeaseKey)

inductive LeaseAnswer where
  | acquired (result : AcquireResult)
  | extended (result : ExtendResult)
  | released
  | lease (current : Option ThreadLease)

/-- A call on the stores of an agent, or time passing. -/
inductive AgentOp (μ : Type) where
  | advance (ms : Nat)
  | memory (op : MemoryOp μ)
  | lease (op : LeaseOp)

inductive AgentAnswer (μ ρ : Type) where
  | none
  | memory (answer : MemoryAnswer μ ρ)
  | lease (answer : LeaseAnswer)

variable {μ ρ : Type}

def updated (r : InMemoryMemoryStore μ × Except String Unit) :
    InMemoryMemoryStore μ × MemoryAnswer μ ρ :=
  match r with
  | (s, .ok ()) => (s, .unit)
  | (s, .error message) => (s, .threw message)

namespace InMemoryMemoryStore

def apply (env : MemoryEnv μ ρ) (s : InMemoryMemoryStore μ) :
    MemoryOp μ → InMemoryMemoryStore μ × MemoryAnswer μ ρ
  | .getNamespace ns => (s, .namespace (s.getNamespace ns))
  | .upsertNamespace ns patch =>
    let (s, row) := s.upsertNamespace ns patch
    (s, .namespace (some row))
  | .appendNamespaceFact ns input uuid =>
    let (s, f) := s.appendNamespaceFact ns input uuid
    (s, .fact f)
  | .listNamespaceFacts ns => (s, .facts (s.listNamespaceFacts ns))
  | .deleteNamespaceFact ns factId => (s.deleteNamespaceFact ns factId, .unit)
  | .appendNamespaceEpisode ns input uuid =>
    let (s, ep) := s.appendNamespaceEpisode ns input uuid
    (s, .episode ep)
  | .listNamespaceEpisodes ns params => (s, .episodes (s.listNamespaceEpisodes ns params))
  | .deleteNamespaceEpisode ns episodeId => (s.deleteNamespaceEpisode ns episodeId, .unit)
  | .getResource key => (s, .resource (s.getResource key))
  | .upsertResource key patch =>
    let (s, row) := s.upsertResource key patch
    (s, .resource (some row))
  | .appendResourceFact key input uuid =>
    let (s, f) := s.appendResourceFact key input uuid
    (s, .fact f)
  | .listResourceFacts key => (s, .facts (s.listResourceFacts key))
  | .deleteResourceFact key factId => (s.deleteResourceFact key factId, .unit)
  | .appendResourceEpisode key input uuid =>
    let (s, ep) := s.appendResourceEpisode key input uuid
    (s, .episode ep)
  | .listResourceEpisodes key params => (s, .episodes (s.listResourceEpisodes key params))
  | .deleteResourceEpisode key episodeId => (s.deleteResourceEpisode key episodeId, .unit)
  | .createThread key init =>
    match s.createThread key init with
    | (s, .ok row) => (s, .thread (some row))
    | (s, .error message) => (s, .threw message)
  | .getThread key => (s, .thread (s.getThread key))
  | .listThreads params => (s, .threads (s.listThreads env params))
  | .setThreadWorking key content => updated (s.setThreadWorking key content)
  | .setThreadTitle key title => updated (s.setThreadTitle key title)
  | .setThreadMetadata key metadata => updated (s.setThreadMetadata key metadata)
  | .setThreadInheritFromParent key inherit => updated (s.setThreadInheritFromParent key inherit)
  | .setThreadArchived key archivedAt => updated (s.setThreadArchived key archivedAt)
  | .appendThreadFact key input uuid =>
    let (s, f) := s.appendThreadFact key input uuid
    (s, .fact f)
  | .listThreadFacts key => (s, .facts (s.listThreadFacts key))
  | .deleteThreadFact key factId => (s.deleteThreadFact key factId, .unit)
  | .appendMessages key msgs idempotencyKey =>
    let (s, stored) := s.appendMessages key msgs idempotencyKey
    (s, .messages stored)
  | .getMessages key range => (s, .messages (s.getMessages key range))
  | .appendThreadEpisode key input uuid =>
    let (s, ep) := s.appendThreadEpisode key input uuid
    (s, .episode ep)
  | .listThreadEpisodes key params => (s, .episodes (s.listThreadEpisodes key params))
  | .deleteThreadEpisode key episodeId => (s.deleteThreadEpisode key episodeId, .unit)
  | .deleteThread key => (s.deleteThread key, .unit)
  | .reserveConsolidation request uuid =>
    let (s, r) := s.reserveConsolidation request uuid
    (s, .reservation r)
  | .releaseConsolidation ns reservationId => (s.releaseConsolidation ns reservationId, .unit)
  | .resolveContext key budget => (s, .context (s.resolveContext env key budget))

end InMemoryMemoryStore

namespace InMemoryLeaseStore

def apply (s : InMemoryLeaseStore) : LeaseOp → InMemoryLeaseStore × LeaseAnswer
  | .acquire key ownerId ttlMs uuid =>
    let (s, result) := s.acquire key ownerId ttlMs uuid
    (s, .acquired result)
  | .extend leaseId additionalMs =>
    let (s, result) := s.extend leaseId additionalMs
    (s, .extended result)
  | .release leaseId => (s.release leaseId, .released)
  | .get key => (s, .lease (s.get key))

end InMemoryLeaseStore

/-! ## The machine -/

structure AgentStores (μ : Type) where
  memory : InMemoryMemoryStore μ
  leases : InMemoryLeaseStore

def AgentStores.new (now : Int) : AgentStores μ where
  memory := .new now
  leases := .new now

/-- Both stores, on one clock. -/
def agentStores (env : MemoryEnv μ ρ) :
    Machine (AgentStores μ) (AgentOp μ) (AgentAnswer μ ρ) where
  step s o := match o with
    | .advance ms =>
      ({ memory := { s.memory with now := s.memory.now + ms }
         leases := { s.leases with now := s.leases.now + ms } }, .none)
    | .memory op =>
      let (memory, answer) := s.memory.apply env op
      ({ s with memory := memory }, .memory answer)
    | .lease op =>
      let (leases, answer) := s.leases.apply op
      ({ s with leases := leases }, .lease answer)

/-- The lease id a call draws, and the namespace it draws it for. -/
def AgentOp.drawn : AgentOp μ → Option (String × String)
  | .lease (.acquire key _ _ uuid) => some (uuid, key.namespaceId)
  | .lease (.extend _ _) | .lease (.release _) | .lease (.get _) | .advance _ | .memory _ => none

/-- The namespace the operations of a run draw a lease id for. -/
def issuedFor (ops : List (AgentOp μ)) (leaseId : String) : Option String :=
  JsMap.lookup leaseId (ops.filterMap AgentOp.drawn)

/-- The namespace a call is for, that of a lease by the call it came from. -/
def AgentOp.namespaceId (ops : List (AgentOp μ)) : AgentOp μ → Option String
  | .advance _ => none
  | .memory op => some op.namespaceId
  | .lease (.acquire key _ _ _) => some key.namespaceId
  | .lease (.get key) => some key.namespaceId
  | .lease (.extend leaseId _) => issuedFor ops leaseId
  | .lease (.release leaseId) => issuedFor ops leaseId

end Promin.Agent
