import Promin.ForStd.JsMap
import Promin.Shared.JsValue
import Mathlib.Algebra.Order.Ring.Rat

/-!
# The agent's memory store

`InMemoryMemoryStore`: rows, facts and episodes of namespaces, resources and
threads, the messages of threads, and the reservations of the consolidation rate
limit.
-/

namespace Promin.Agent

open JsMap

/-- A `Record<string, unknown>`. -/
abbrev Metadata := List (String × JsValue)

structure ScopedKey where
  namespaceId : String
  resourceId : String

/-- What a thread is stored under. -/
structure ThreadKey where
  namespaceId : String
  threadId : String
  resourceId : Option String := none

inductive FactSource where
  | operator
  | user
  | model

structure Fact where
  id : String
  text : String
  source : FactSource
  createdAt : Int
  updatedAt : Int

structure FactInput where
  text : String
  source : FactSource

structure SeqRange where
  fromSeq : Int
  toSeq : Int
  deriving DecidableEq

structure EpisodicRecord where
  id : String
  summary : String
  outcome : Option String
  salience : ℚ
  sourceThreadId : Option String
  sourceMessageRange : Option SeqRange
  occurredAt : Int
  createdAt : Int
  metadata : Metadata
  deriving DecidableEq

structure EpisodeInput where
  summary : String
  outcome : Option String := none
  salience : Option ℚ := none
  sourceThreadId : Option String := none
  sourceMessageRange : Option SeqRange := none
  occurredAt : Option Int := none
  metadata : Option Metadata := none

inductive EpisodeOrder where
  | salienceDesc
  | createdDesc
  | occurredDesc
  | sourceRangeDesc

structure EpisodeListParams where
  limit : Option Nat := none
  minSalience : Option ℚ := none
  order : Option EpisodeOrder := none
  kind : Option String := none
  sourceThreadId : Option String := none

/-- The slots namespaces and resources carry. -/
structure NamespaceLikeRow where
  staticRules : Option String
  workingMemory : Option String
  inheritFromParent : Bool
  metadata : Metadata
  createdAt : Int
  updatedAt : Int

structure NamespaceRow extends NamespaceLikeRow where
  namespaceId : String

structure ResourceRow extends NamespaceLikeRow where
  namespaceId : String
  resourceId : String

structure ThreadRow where
  namespaceId : String
  resourceId : Option String
  threadId : String
  title : Option String
  workingMemory : Option String
  inheritFromParent : Bool
  metadata : Metadata
  archivedAt : Option Int
  createdAt : Int
  updatedAt : Int

structure ThreadSummary where
  namespaceId : String
  resourceId : Option String
  threadId : String
  title : Option String
  metadata : Metadata
  archivedAt : Option Int
  messageCount : Nat
  lastActiveAt : Int
  createdAt : Int

/-- A patch; an absent slot is kept, `some none` clears it. -/
structure NamespacePatch where
  staticRules : Option (Option String) := none
  workingMemory : Option (Option String) := none
  inheritFromParent : Option Bool := none
  metadata : Option Metadata := none

structure ThreadInit where
  resourceId : Option String := none
  title : Option String := none
  workingMemory : Option String := none
  inheritFromParent : Option Bool := none
  metadata : Option Metadata := none
  archivedAt : Option Int := none

inductive ThreadOrder where
  | lastActiveDesc
  | createdAsc
  | createdDesc
  deriving DecidableEq

structure ListThreadsParams where
  namespaceId : String
  resourceId : Option String := none
  metadataFilter : Option Metadata := none
  q : Option String := none
  limit : Option Nat := none
  cursor : Option String := none
  order : Option ThreadOrder := none
  archived : Option Bool := none

def DEFAULT_THREAD_PAGE_SIZE : Nat := 50

/-- Position a `listThreads` page continues after. -/
structure ThreadCursorPosition where
  key : Int
  threadId : String

/-- A message with its place in the thread. `μ` is what a message carries. -/
structure StoredMessage (μ : Type) where
  message : μ
  seq : Int
  createdAt : Int

/-- `getMessages` goes from the newest on when `newestFirst` is set. -/
structure MessageRange where
  fromSeq : Option Int := none
  toSeq : Option Int := none
  limit : Option Nat := none
  newestFirst : Bool := false

/-- How many tokens of messages and episodes a context has room for. -/
structure TokenBudget (μ : Type) where
  maxMessageTokens : Int
  maxEpisodeTokens : Option Int := none
  estimate : StoredMessage μ → Nat
  estimateEpisode : EpisodicRecord → Nat

structure ConsolidationReservationRequest where
  namespaceId : String
  resourceId : String
  kind : String
  windowMs : Int
  maxPerResource : Int
  maxPerNamespace : Option Int := none

inductive ReservationScope where
  | resource
  | «namespace»

/-- `retryAfterMs` is absent where the source answers `Infinity`. -/
inductive ConsolidationReservation where
  | granted (reservationId : String)
  | denied (scope : ReservationScope) (seen : Nat) (max : Int) (retryAfterMs : Option Int)

structure Reservation where
  id : String
  namespaceId : String
  resourceId : String
  kind : String
  «at» : Int

structure ResolveContextInput (μ : Type) where
  «namespace» : Option NamespaceRow
  namespaceFacts : List Fact
  resource : Option ResourceRow
  resourceFacts : List Fact
  resourceEpisodes : List EpisodicRecord
  thread : ThreadRow
  threadFacts : List Fact
  compaction : Option EpisodicRecord
  messages : List (StoredMessage μ)
  budget : TokenBudget μ

/-- What the store uses from elsewhere; `ρ` is what a resolved context is. -/
structure MemoryEnv (μ ρ : Type) where
  trim : String → String
  toLowerCase : String → String
  parseThreadCursor : String → Option ThreadCursorPosition
  resolveContext : ResolveContextInput μ → ρ

/-! ## The store -/

structure InMemoryMemoryStore (μ : Type) where
  namespaces : JsMap String NamespaceRow
  resources : JsMap String ResourceRow
  threads : JsMap String ThreadRow
  namespaceFacts : JsMap String (List Fact)
  resourceFacts : JsMap String (List Fact)
  threadFacts : JsMap String (List Fact)
  messages : JsMap String (List (StoredMessage μ))
  seqByThread : JsMap String Int
  appendsByThread : JsMap String (JsMap String (List (StoredMessage μ)))
  lastActiveByThread : JsMap String Int
  namespaceEpisodes : JsMap String (List EpisodicRecord)
  resourceEpisodes : JsMap String (List EpisodicRecord)
  threadEpisodes : JsMap String (List EpisodicRecord)
  reservations : List Reservation
  now : Int

def joinKey (namespaceId id : String) : String := namespaceId ++ "|" ++ id

def ScopedKey.resourceK (key : ScopedKey) : String := joinKey key.namespaceId key.resourceId

def ThreadKey.threadK (key : ThreadKey) : String := joinKey key.namespaceId key.threadId

def NamespaceLikeRow.patched (row : NamespaceLikeRow) (patch : NamespacePatch) (now : Int) :
    NamespaceLikeRow where
  staticRules := patch.staticRules.getD row.staticRules
  workingMemory := patch.workingMemory.getD row.workingMemory
  inheritFromParent := patch.inheritFromParent.getD row.inheritFromParent
  metadata := patch.metadata.getD row.metadata
  createdAt := row.createdAt
  updatedAt := now

/-- The row an upsert makes where none exists. -/
def NamespacePatch.newRow (patch : NamespacePatch) (now : Int) : NamespaceLikeRow where
  staticRules := patch.staticRules.getD none
  workingMemory := patch.workingMemory.getD none
  inheritFromParent := patch.inheritFromParent.getD true
  metadata := patch.metadata.getD []
  createdAt := now
  updatedAt := now

def includes (text part : String) : Bool := text.toList.tails.any part.toList.isPrefixOf

def clamp01 (n : ℚ) : ℚ := if n < 0 then 0 else if 1 < n then 1 else n

/-! ### Deep equality -/

def insertMember (member : String × JsValue) : Metadata → Metadata
  | [] => [member]
  | other :: rest =>
    if member.1 < other.1 then member :: other :: rest else other :: insertMember member rest

mutual

def ordered : JsValue → JsValue
  | .undefined => .undefined
  | .null => .null
  | .bool b => .bool b
  | .num n => .num n
  | .str s => .str s
  | .date ms => .date ms
  | .arr items => .arr (orderedItems items)
  | .obj members => .obj (orderedMembers members)

def orderedItems : List JsValue → List JsValue
  | [] => []
  | v :: rest => ordered v :: orderedItems rest

def orderedMembers : List (String × JsValue) → List (String × JsValue)
  | [] => []
  | (k, v) :: rest => insertMember (k, ordered v) (orderedMembers rest)

end

/-- `isDeepStrictEqual`: the order of members does not count. -/
def isDeepStrictEqual (a b : JsValue) : Bool := ordered a == ordered b

/-! ### Listings -/

def ThreadOrder.key (order : ThreadOrder) (t : ThreadSummary) : Int :=
  match order with
  | .lastActiveDesc => t.lastActiveAt
  | .createdAsc | .createdDesc => t.createdAt

def ThreadOrder.before (order : ThreadOrder) (a b : ThreadSummary) : Bool :=
  if order.key a = order.key b then decide (a.threadId ≤ b.threadId)
  else if order = .createdAsc then decide (order.key a < order.key b)
  else decide (order.key b < order.key a)

namespace InMemoryMemoryStore

variable {μ ρ : Type}

def new (now : Int) : InMemoryMemoryStore μ where
  namespaces := empty
  resources := empty
  threads := empty
  namespaceFacts := empty
  resourceFacts := empty
  threadFacts := empty
  messages := empty
  seqByThread := empty
  appendsByThread := empty
  lastActiveByThread := empty
  namespaceEpisodes := empty
  resourceEpisodes := empty
  threadEpisodes := empty
  reservations := []
  now := now

variable (s : InMemoryMemoryStore μ)

def makeFact (input : FactInput) (uuid : String) : Fact where
  id := uuid
  text := input.text
  source := input.source
  createdAt := s.now
  updatedAt := s.now

def makeEpisode (input : EpisodeInput) (uuid : String) : EpisodicRecord where
  id := uuid
  summary := input.summary
  outcome := input.outcome
  salience := clamp01 (input.salience.getD (1 / 2))
  sourceThreadId := input.sourceThreadId
  sourceMessageRange := input.sourceMessageRange
  occurredAt := input.occurredAt.getD s.now
  createdAt := s.now
  metadata := input.metadata.getD []

def episodeKey (order : EpisodeOrder) (e : EpisodicRecord) : ℚ :=
  match order with
  | .salienceDesc => e.salience
  | .createdDesc => e.createdAt
  | .occurredDesc => e.occurredAt
  | .sourceRangeDesc => (e.sourceMessageRange.map (·.toSeq)).getD (-1)

/-- Highest key first; ties go to the later insert. -/
def rankedBefore (order : EpisodeOrder) (a b : EpisodicRecord × Nat) : Bool :=
  decide (episodeKey order b.1 < episodeKey order a.1 ∨
    episodeKey order b.1 = episodeKey order a.1 ∧ b.2 ≤ a.2)

def queryEpisodes (list : List EpisodicRecord) (params : EpisodeListParams) :
    List EpisodicRecord :=
  let kept := list.filter fun e =>
    (match params.kind with
      | none => true
      | some kind => lookup "kind" e.metadata == some (.str kind)) &&
    (match params.sourceThreadId with
      | none => true
      | some source => e.sourceThreadId == some source) &&
    (match params.minSalience with
      | none => true
      | some threshold => decide (threshold ≤ e.salience))
  let order := params.order.getD .salienceDesc
  let ranked := (kept.zipIdx.mergeSort (rankedBefore order)).map (·.1)
  match params.limit with
  | none => ranked
  | some limit => ranked.take limit

/-! ### Namespaces -/

def getNamespace (namespaceId : String) : Option NamespaceRow :=
  s.namespaces.get namespaceId

def upsertNamespace (namespaceId : String) (patch : NamespacePatch) :
    InMemoryMemoryStore μ × NamespaceRow :=
  let next : NamespaceRow :=
    match s.namespaces.get namespaceId with
    | some row => { row with toNamespaceLikeRow := row.toNamespaceLikeRow.patched patch s.now }
    | none => { patch.newRow s.now with namespaceId := namespaceId }
  ({ s with namespaces := s.namespaces.set namespaceId next }, next)

def ensureNamespace (namespaceId : String) : InMemoryMemoryStore μ :=
  if s.namespaces.has namespaceId then s else (s.upsertNamespace namespaceId {}).1

def appendNamespaceFact (namespaceId : String) (input : FactInput) (uuid : String) :
    InMemoryMemoryStore μ × Fact :=
  let s := s.ensureNamespace namespaceId
  let f := s.makeFact input uuid
  ({ s with namespaceFacts := s.namespaceFacts.push namespaceId f }, f)

def listNamespaceFacts (namespaceId : String) : List Fact :=
  (s.namespaceFacts.get namespaceId).getD []

def deleteNamespaceFact (namespaceId factId : String) : InMemoryMemoryStore μ :=
  { s with namespaceFacts := s.namespaceFacts.filterAt namespaceId fun f => f.id != factId }

def appendNamespaceEpisode (namespaceId : String) (input : EpisodeInput) (uuid : String) :
    InMemoryMemoryStore μ × EpisodicRecord :=
  let s := s.ensureNamespace namespaceId
  let ep := s.makeEpisode input uuid
  ({ s with namespaceEpisodes := s.namespaceEpisodes.push namespaceId ep }, ep)

def listNamespaceEpisodes (namespaceId : String) (params : EpisodeListParams) :
    List EpisodicRecord :=
  queryEpisodes ((s.namespaceEpisodes.get namespaceId).getD []) params

def deleteNamespaceEpisode (namespaceId episodeId : String) : InMemoryMemoryStore μ :=
  { s with
    namespaceEpisodes := s.namespaceEpisodes.filterAt namespaceId fun e => e.id != episodeId }

/-! ### Resources -/

def getResource (key : ScopedKey) : Option ResourceRow :=
  s.resources.get key.resourceK

def upsertResource (key : ScopedKey) (patch : NamespacePatch) :
    InMemoryMemoryStore μ × ResourceRow :=
  let next : ResourceRow :=
    match s.resources.get key.resourceK with
    | some row => { row with toNamespaceLikeRow := row.toNamespaceLikeRow.patched patch s.now }
    | none => { patch.newRow s.now with
        namespaceId := key.namespaceId
        resourceId := key.resourceId }
  ({ s with resources := s.resources.set key.resourceK next }, next)

def ensureResource (key : ScopedKey) : InMemoryMemoryStore μ :=
  if s.resources.has key.resourceK then s else (s.upsertResource key {}).1

def appendResourceFact (key : ScopedKey) (input : FactInput) (uuid : String) :
    InMemoryMemoryStore μ × Fact :=
  let s := s.ensureResource key
  let f := s.makeFact input uuid
  ({ s with resourceFacts := s.resourceFacts.push key.resourceK f }, f)

def listResourceFacts (key : ScopedKey) : List Fact :=
  (s.resourceFacts.get key.resourceK).getD []

def deleteResourceFact (key : ScopedKey) (factId : String) : InMemoryMemoryStore μ :=
  { s with resourceFacts := s.resourceFacts.filterAt key.resourceK fun f => f.id != factId }

def appendResourceEpisode (key : ScopedKey) (input : EpisodeInput) (uuid : String) :
    InMemoryMemoryStore μ × EpisodicRecord :=
  let s := s.ensureResource key
  let ep := s.makeEpisode input uuid
  ({ s with resourceEpisodes := s.resourceEpisodes.push key.resourceK ep }, ep)

def listResourceEpisodes (key : ScopedKey) (params : EpisodeListParams) : List EpisodicRecord :=
  queryEpisodes ((s.resourceEpisodes.get key.resourceK).getD []) params

def deleteResourceEpisode (key : ScopedKey) (episodeId : String) : InMemoryMemoryStore μ :=
  { s with
    resourceEpisodes := s.resourceEpisodes.filterAt key.resourceK fun e => e.id != episodeId }

/-! ### Threads -/

def alreadyExists (key : ThreadKey) : String :=
  "Thread already exists: " ++ key.namespaceId ++ "/" ++ key.threadId

def newThread (key : ThreadKey) (init : ThreadInit) : ThreadRow where
  namespaceId := key.namespaceId
  resourceId := key.resourceId <|> init.resourceId
  threadId := key.threadId
  title := init.title
  workingMemory := init.workingMemory
  inheritFromParent := init.inheritFromParent.getD true
  metadata := init.metadata.getD []
  archivedAt := init.archivedAt
  createdAt := s.now
  updatedAt := s.now

def createThread (key : ThreadKey) (init : ThreadInit) :
    InMemoryMemoryStore μ × Except String ThreadRow :=
  if s.threads.has key.threadK then (s, .error (alreadyExists key))
  else
    let row := s.newThread key init
    ({ s with
        threads := s.threads.set key.threadK row
        lastActiveByThread := s.lastActiveByThread.set key.threadK s.now }, .ok row)

def getThread (key : ThreadKey) : Option ThreadRow :=
  s.threads.get key.threadK

def matchesFilter (env : MemoryEnv μ ρ) (params : ListThreadsParams) (t : ThreadRow) : Bool :=
  (match params.resourceId with
    | none => true
    | some resourceId => t.resourceId == some resourceId) &&
  (match params.q with
    | none => true
    | some q =>
      let q := env.toLowerCase (env.trim q)
      q == "" || includes (env.toLowerCase t.threadId) q) &&
  (match params.metadataFilter with
    | none => true
    | some wanted => wanted.all fun (k, v) =>
      v == .undefined ||
        (match lookup k t.metadata with
          | none => false
          | some value => isDeepStrictEqual value v)) &&
  (match params.archived with
    | none => true
    | some archived => t.archivedAt.isSome == archived)

def summary (t : ThreadRow) : ThreadSummary :=
  let k := joinKey t.namespaceId t.threadId
  { namespaceId := t.namespaceId
    resourceId := t.resourceId
    threadId := t.threadId
    title := t.title
    metadata := t.metadata
    archivedAt := t.archivedAt
    messageCount := ((s.messages.get k).getD []).length
    lastActiveAt := (s.lastActiveByThread.get k).getD t.updatedAt
    createdAt := t.createdAt }

def isAfterThreadCursor (position : ThreadCursorPosition) (key : Int) (threadId : String)
    (order : ThreadOrder) : Bool :=
  if key = position.key then decide (position.threadId < threadId)
  else if order = .createdAsc then decide (position.key < key)
  else decide (key < position.key)

def listThreads (env : MemoryEnv μ ρ) (s : InMemoryMemoryStore μ) (params : ListThreadsParams) :
    List ThreadSummary :=
  let all := s.threads.values.filter fun t => t.namespaceId == params.namespaceId
  let order := params.order.getD .lastActiveDesc
  let summaries := ((all.filter (matchesFilter env params)).map s.summary).mergeSort order.before
  let position :=
    if truthy params.cursor then env.parseThreadCursor (params.cursor.getD "") else none
  let page :=
    match position with
    | none => summaries
    | some position => summaries.filter fun t =>
      isAfterThreadCursor position (order.key t) t.threadId order
  page.take (params.limit.getD DEFAULT_THREAD_PAGE_SIZE)

def notFound (key : ThreadKey) : String :=
  "Thread not found: " ++ key.namespaceId ++ "/" ++ key.threadId

def updateThread (key : ThreadKey) (change : ThreadRow → ThreadRow) :
    InMemoryMemoryStore μ × Except String Unit :=
  match s.getThread key with
  | none => (s, .error (notFound key))
  | some row =>
    ({ s with
        threads := s.threads.set key.threadK { change row with updatedAt := s.now } }, .ok ())

def setThreadWorking (key : ThreadKey) (content : Option String) :
    InMemoryMemoryStore μ × Except String Unit :=
  s.updateThread key fun row => { row with workingMemory := content }

def setThreadTitle (key : ThreadKey) (title : Option String) :
    InMemoryMemoryStore μ × Except String Unit :=
  s.updateThread key fun row => { row with title := title }

def setThreadMetadata (key : ThreadKey) (metadata : Metadata) :
    InMemoryMemoryStore μ × Except String Unit :=
  s.updateThread key fun row => { row with metadata := metadata }

def setThreadInheritFromParent (key : ThreadKey) (inherit : Bool) :
    InMemoryMemoryStore μ × Except String Unit :=
  s.updateThread key fun row => { row with inheritFromParent := inherit }

def setThreadArchived (key : ThreadKey) (archivedAt : Option Int) :
    InMemoryMemoryStore μ × Except String Unit :=
  s.updateThread key fun row => { row with archivedAt := archivedAt }

def ensureThread (key : ThreadKey) : InMemoryMemoryStore μ :=
  if s.threads.has key.threadK then s else (s.createThread key {}).1

def appendThreadFact (key : ThreadKey) (input : FactInput) (uuid : String) :
    InMemoryMemoryStore μ × Fact :=
  let s := s.ensureThread key
  let f := s.makeFact input uuid
  ({ s with threadFacts := s.threadFacts.push key.threadK f }, f)

def listThreadFacts (key : ThreadKey) : List Fact :=
  (s.threadFacts.get key.threadK).getD []

def deleteThreadFact (key : ThreadKey) (factId : String) : InMemoryMemoryStore μ :=
  { s with threadFacts := s.threadFacts.filterAt key.threadK fun f => f.id != factId }

def appendsOf (k : String) : JsMap String (List (StoredMessage μ)) :=
  (s.appendsByThread.get k).getD empty

def numbered (msgs : List μ) (seq now : Int) : List (StoredMessage μ) :=
  msgs.zipIdx.map fun (m, i) => { message := m, seq := seq + 1 + i, createdAt := now }

/-- The part of `appendMessages` after the idempotency check. -/
def storeMessages (k : String) (msgs : List μ) (idempotencyKey : Option String) :
    InMemoryMemoryStore μ × List (StoredMessage μ) :=
  let seq := (s.seqByThread.get k).getD 0
  let stored := numbered msgs seq s.now
  ({ s with
      messages := s.messages.set k ((s.messages.get k).getD [] ++ stored)
      seqByThread := s.seqByThread.set k (seq + msgs.length)
      lastActiveByThread := s.lastActiveByThread.set k s.now
      appendsByThread :=
        match idempotencyKey with
        | none => s.appendsByThread
        | some idempotencyKey =>
          s.appendsByThread.set k ((s.appendsOf k).set idempotencyKey stored) }, stored)

def appendMessages (key : ThreadKey) (msgs : List μ) (idempotencyKey : Option String) :
    InMemoryMemoryStore μ × List (StoredMessage μ) :=
  let s := s.ensureThread key
  let k := key.threadK
  match idempotencyKey.bind (s.appendsOf k).get with
  | some done => (s, done)
  | none => s.storeMessages k msgs idempotencyKey

def getMessages (key : ThreadKey) (range : MessageRange) : List (StoredMessage μ) :=
  let list := (s.messages.get key.threadK).getD []
  let kept := list.filter fun m =>
    (match range.fromSeq with
      | none => true
      | some fromSeq => decide (fromSeq ≤ m.seq)) &&
    (match range.toSeq with
      | none => true
      | some toSeq => decide (m.seq ≤ toSeq))
  let directed := if range.newestFirst then kept.reverse else kept
  match range.limit with
  | none => directed
  | some limit => directed.take limit

def appendThreadEpisode (key : ThreadKey) (input : EpisodeInput) (uuid : String) :
    InMemoryMemoryStore μ × EpisodicRecord :=
  let s := s.ensureThread key
  let ep := s.makeEpisode input uuid
  ({ s with threadEpisodes := s.threadEpisodes.push key.threadK ep }, ep)

def listThreadEpisodes (key : ThreadKey) (params : EpisodeListParams) : List EpisodicRecord :=
  queryEpisodes ((s.threadEpisodes.get key.threadK).getD []) params

def deleteThreadEpisode (key : ThreadKey) (episodeId : String) : InMemoryMemoryStore μ :=
  { s with
    threadEpisodes := s.threadEpisodes.filterAt key.threadK fun e => e.id != episodeId }

/-- Removes the thread with all that is stored under its key. -/
def deleteThread (key : ThreadKey) : InMemoryMemoryStore μ :=
  { s with
    threads := s.threads.delete key.threadK
    threadFacts := s.threadFacts.delete key.threadK
    threadEpisodes := s.threadEpisodes.delete key.threadK
    messages := s.messages.delete key.threadK
    seqByThread := s.seqByThread.delete key.threadK
    appendsByThread := s.appendsByThread.delete key.threadK
    lastActiveByThread := s.lastActiveByThread.delete key.threadK }

/-! ### The consolidation rate limit -/

def denied (scope : ReservationScope) (rows : List Reservation) (max windowMs now : Int) :
    ConsolidationReservation :=
  .denied scope rows.length max
    ((rows.map (·.at)).min?.map fun oldest => Max.max 0 (oldest + windowMs - now))

/-- Takes a slot where the window has one left. -/
def reserveConsolidation (request : ConsolidationReservationRequest) (uuid : String) :
    InMemoryMemoryStore μ × ConsolidationReservation :=
  let since := s.now - request.windowMs
  let kept := s.reservations.filter fun r =>
    !(r.namespaceId == request.namespaceId && r.kind == request.kind && decide (r.at ≤ since))
  let inNamespace := kept.filter fun r =>
    r.namespaceId == request.namespaceId && r.kind == request.kind
  let inResource := inNamespace.filter fun r => r.resourceId == request.resourceId
  let swept := { s with reservations := kept }
  if request.maxPerResource ≤ inResource.length then
    (swept, denied .resource inResource request.maxPerResource request.windowMs s.now)
  else
    let full :=
      match request.maxPerNamespace with
      | none => none
      | some max => if max ≤ inNamespace.length then some max else none
    match full with
    | some max => (swept, denied .namespace inNamespace max request.windowMs s.now)
    | none =>
      let reservation : Reservation :=
        { id := uuid
          namespaceId := request.namespaceId
          resourceId := request.resourceId
          kind := request.kind
          «at» := s.now }
      ({ s with reservations := kept ++ [reservation] }, .granted uuid)

def releaseConsolidation (namespaceId reservationId : String) : InMemoryMemoryStore μ :=
  { s with
    reservations := s.reservations.filter fun r =>
      !(r.namespaceId == namespaceId && r.id == reservationId) }

/-! ### Resolving a context -/

def TAIL_PAGE_SIZE : Nat := 100
def MIN_EPISODE_TOKENS : Int := 8
def MAX_EPISODES_READ : Int := 500
def COMPACT_EPISODE_KIND : String := "compact"

def takePage (budget : TokenBudget μ) (taken : List (StoredMessage μ)) (total : Int) :
    List (StoredMessage μ) → List (StoredMessage μ) × Int × Bool
  | [] => (taken, total, false)
  | m :: page =>
    if budget.maxMessageTokens < total + budget.estimate m then
      (taken ++ [m], total + budget.estimate m, true)
    else takePage budget (taken ++ [m]) (total + budget.estimate m) page

/-- The loop of `readMessageTail`; each full page moves `beforeSeq` down, so a fuel of the
    number of messages ends it. -/
def readPages (s : InMemoryMemoryStore μ) (key : ThreadKey) (afterSeq : Int)
    (budget : TokenBudget μ) : (fuel : Nat) → (newestFirst : List (StoredMessage μ)) →
    (total : Int) → (beforeSeq : Option Int) → List (StoredMessage μ)
  | 0, newestFirst, _, _ => newestFirst.reverse
  | fuel + 1, newestFirst, total, beforeSeq =>
    let page := s.getMessages key {
      fromSeq := some (afterSeq + 1)
      toSeq := beforeSeq.map (· - 1)
      newestFirst := true
      limit := some TAIL_PAGE_SIZE }
    match takePage budget newestFirst total page with
    | (taken, _, true) => taken.reverse
    | (taken, total, false) =>
      if page.length < TAIL_PAGE_SIZE then taken.reverse
      else readPages s key afterSeq budget fuel taken total (page.getLast?.map (·.seq))

def readMessageTail (key : ThreadKey) (afterSeq : Int) (budget : TokenBudget μ) :
    List (StoredMessage μ) :=
  readPages s key afterSeq budget ((s.getMessages key {}).length + 1) [] 0 none

def emptyThread (key : ThreadKey) : ThreadRow where
  namespaceId := key.namespaceId
  resourceId := key.resourceId
  threadId := key.threadId
  title := none
  workingMemory := none
  inheritFromParent := true
  metadata := []
  archivedAt := none
  createdAt := 0
  updatedAt := 0

def contextResource (key : ThreadKey) (thread : ThreadRow) : Option ScopedKey :=
  let resourceId := thread.resourceId <|> key.resourceId
  if truthy resourceId then
    some { namespaceId := key.namespaceId, resourceId := resourceId.getD "" }
  else none

def episodesRead (maxEpisodeTokens : Int) : Nat :=
  (min MAX_EPISODES_READ ((maxEpisodeTokens + MIN_EPISODE_TOKENS - 1) / MIN_EPISODE_TOKENS)).toNat

/-- The rows `loadResolvedContext` reads. -/
def contextInput (key : ThreadKey) (budget : TokenBudget μ) : ResolveContextInput μ :=
  let stored := s.getThread key
  let thread := stored.getD (emptyThread key)
  let resourceKey := contextResource key thread
  let maxEpisodeTokens := budget.maxEpisodeTokens.getD 0
  let compaction := if stored.isSome then
      (s.listThreadEpisodes key {
        kind := some COMPACT_EPISODE_KIND
        order := some .sourceRangeDesc
        limit := some 1 }).head?
    else none
  { «namespace» := s.getNamespace key.namespaceId
    namespaceFacts := s.listNamespaceFacts key.namespaceId
    resource := resourceKey.bind s.getResource
    resourceFacts := (resourceKey.map s.listResourceFacts).getD []
    resourceEpisodes :=
      match resourceKey with
      | none => []
      | some resourceKey =>
        if 0 < maxEpisodeTokens then
          s.listResourceEpisodes resourceKey {
            order := some .salienceDesc
            limit := some (episodesRead maxEpisodeTokens) }
        else []
    thread := thread
    threadFacts := if stored.isSome then s.listThreadFacts key else []
    compaction := compaction
    messages := if stored.isSome then
        s.readMessageTail key
          (((compaction.bind (·.sourceMessageRange)).map (·.toSeq)).getD 0) budget
      else []
    budget := budget }

def total (budget : TokenBudget μ) (msgs : List (StoredMessage μ)) : Int :=
  (msgs.map fun m => (budget.estimate m : Int)).sum

def turnEnd (isUser : μ → Bool) (remaining : List (StoredMessage μ)) : Nat :=
  1 + (remaining.drop 1).findIdx fun m => isUser m.message

/-- The loop of `trimMessages`. -/
def trimTurns (isUser : μ → Bool) (budget : TokenBudget μ) (remaining : List (StoredMessage μ))
    (cost : Int) : List (StoredMessage μ) :=
  if _h : remaining ≠ [] ∧ budget.maxMessageTokens < cost then
    trimTurns isUser budget (remaining.drop (turnEnd isUser remaining))
      (cost - total budget (remaining.take (turnEnd isUser remaining)))
  else remaining
termination_by remaining.length
decreasing_by
  have hpos := List.length_pos_of_ne_nil _h.1
  rw [List.length_drop, turnEnd]
  omega

def trimMessages (isUser : μ → Bool) (budget : TokenBudget μ) (msgs : List (StoredMessage μ)) :
    List (StoredMessage μ) :=
  if total budget msgs ≤ budget.maxMessageTokens then msgs
  else trimTurns isUser budget msgs (total budget msgs)

/-- The messages no compaction covers yet. -/
def liveMessages (input : ResolveContextInput μ) : List (StoredMessage μ) :=
  let foldedThrough := ((input.compaction.bind (·.sourceMessageRange)).map (·.toSeq)).getD 0
  input.messages.filter fun m => foldedThrough < m.seq

/-- The live messages, cut down to their budget. -/
def contextMessages (isUser : μ → Bool) (input : ResolveContextInput μ) :
    List (StoredMessage μ) :=
  trimMessages isUser input.budget (liveMessages input)

def resolveContext (env : MemoryEnv μ ρ) (s : InMemoryMemoryStore μ) (key : ThreadKey)
    (budget : TokenBudget μ) : ρ :=
  env.resolveContext (s.contextInput key budget)

end InMemoryMemoryStore

end Promin.Agent
