import Promin.ForStd.Machine
import Promin.Agent.MemoryStore

/-!
# Calls on one thread

The calls of `InMemoryMemoryStore` on one thread, cut at their awaits: between
two awaits a call runs without another one in between.
-/

namespace Promin.Agent

variable {μ : Type}

/-- The setters of a thread's row, each with the value it sets. -/
inductive ThreadSetter where
  | setThreadWorking (content : Option String)
  | setThreadTitle (title : Option String)
  | setThreadMetadata (metadata : Metadata)
  | setThreadInheritFromParent (inherit : Bool)
  | setThreadArchived (archivedAt : Option Int)

/-- What a setter changes of the row besides `updatedAt`. -/
def ThreadSetter.change : ThreadSetter → ThreadRow → ThreadRow
  | .setThreadWorking content, row => { row with workingMemory := content }
  | .setThreadTitle title, row => { row with title := title }
  | .setThreadMetadata metadata, row => { row with metadata := metadata }
  | .setThreadInheritFromParent inherit, row => { row with inheritFromParent := inherit }
  | .setThreadArchived archivedAt, row => { row with archivedAt := archivedAt }

inductive PendingCall (μ : Type) where
  /-- `appendMessages` after `createThread`. -/
  | append (msgs : List μ) (idempotencyKey : Option String)
  | set (setter : ThreadSetter) (row : Option ThreadRow)
  | episode (input : EpisodeInput) (uuid : String)

/-- The store, and the calls on one thread that wait for an answer of it. -/
structure ThreadCalls (μ : Type) where
  store : InMemoryMemoryStore μ
  pending : List (PendingCall μ) := []

/-- A call on one thread, or the next move of one that waits. -/
inductive ThreadOp (μ : Type) where
  | advance (ms : Nat)
  | createThread (init : ThreadInit)
  | appendMessages (msgs : List μ) (idempotencyKey : Option String)
  | set (setter : ThreadSetter)
  | appendThreadEpisode (input : EpisodeInput) (uuid : String)
  | deleteThreadEpisode (episodeId : String)
  | deleteThread
  | resume (place : Nat)

/-- An append that is done, with what it returned. -/
structure FinishedAppend (μ : Type) where
  msgs : List μ
  idempotencyKey : Option String
  stored : List (StoredMessage μ)

inductive ThreadAnswer (μ : Type) where
  | none
  | appended (done : FinishedAppend μ)
  | appendFailed (message : String)
  | set (setter : ThreadSetter)
  | deleted
  | threw (message : String)

namespace ThreadCalls

variable (key : ThreadKey)

/-- `appendMessages` once the thread exists. -/
def append (store : InMemoryMemoryStore μ) (msgs : List μ) (idempotencyKey : Option String) :
    InMemoryMemoryStore μ × List (StoredMessage μ) :=
  match idempotencyKey.bind (store.appendsOf key.threadK).get with
  | some done => (store, done)
  | none => store.storeMessages key.threadK msgs idempotencyKey

/-- The episode of `appendThreadEpisode` once the thread exists. -/
def pushEpisode (store : InMemoryMemoryStore μ) (input : EpisodeInput) (uuid : String) :
    InMemoryMemoryStore μ :=
  { store with
    threadEpisodes := store.threadEpisodes.push key.threadK (store.makeEpisode input uuid) }

variable (s : ThreadCalls μ)

def finishAppend (msgs : List μ) (idempotencyKey : Option String) :
    ThreadCalls μ × ThreadAnswer μ :=
  let (store, stored) := append key s.store msgs idempotencyKey
  ({ s with store := store }, .appended ⟨msgs, idempotencyKey, stored⟩)

def finishSet (setter : ThreadSetter) : Option ThreadRow → ThreadCalls μ × ThreadAnswer μ
  | none => (s, .threw (InMemoryMemoryStore.notFound key))
  | some row =>
    ({ s with
        store := { s.store with
          threads := s.store.threads.set key.threadK
            { setter.change row with updatedAt := s.store.now } } }, .set setter)

def finish : PendingCall μ → ThreadCalls μ × ThreadAnswer μ
  | .append msgs idempotencyKey => s.finishAppend key msgs idempotencyKey
  | .set setter row => s.finishSet key setter row
  | .episode input uuid => ({ s with store := pushEpisode key s.store input uuid }, .none)

/-- `if (!this.threads.has(k)) await this.createThread(key)`, then the rest of the call. -/
def withThread (call : PendingCall μ) : ThreadCalls μ × ThreadAnswer μ :=
  if s.store.threads.has key.threadK then s.finish key call
  else
    match s.store.createThread key {} with
    | (store, .ok _) => ({ s with store := store, pending := s.pending ++ [call] }, .none)
    | (store, .error message) => ({ s with store := store }, .appendFailed message)

def step : ThreadOp μ → ThreadCalls μ × ThreadAnswer μ
  | .advance ms => ({ s with store := { s.store with now := s.store.now + ms } }, .none)
  | .createThread init =>
    match s.store.createThread key init with
    | (store, .ok _) => ({ s with store := store }, .none)
    | (_, .error message) => (s, .threw message)
  | .appendMessages msgs idempotencyKey => s.withThread key (.append msgs idempotencyKey)
  | .set setter =>
    ({ s with pending := s.pending ++ [.set setter (s.store.getThread key)] }, .none)
  | .appendThreadEpisode input uuid => s.withThread key (.episode input uuid)
  | .deleteThreadEpisode episodeId =>
    ({ s with store := s.store.deleteThreadEpisode key episodeId }, .none)
  | .deleteThread => ({ s with store := s.store.deleteThread key }, .deleted)
  | .resume place =>
    match s.pending[place]? with
    | none => (s, .none)
    | some call => { s with pending := s.pending.eraseIdx place }.finish key call

end ThreadCalls

/-- Calls on one thread, in any interleaving. -/
def threadCalls (key : ThreadKey) : Machine (ThreadCalls μ) (ThreadOp μ) (ThreadAnswer μ) where
  step := ThreadCalls.step key

end Promin.Agent
