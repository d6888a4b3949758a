import Promin.ForStd.JsMap
import Promin.Shared.JsValue

/-!
# Signal tokens and streams

The two side stores of a run: `InMemorySignalTokens`, the public-bearer signal
tokens, and `InMemoryStreams`, append-only chunks per (workflow, stream).
-/

namespace Promin.Durable

/-! ## Signal tokens -/

structure SignalTokenRecord where
  tokenId : String
  workflowId : String
  signalName : String
  bearer : String
  tags : List String
  idempotencyKey : Option String
  expiresAt : Int
  completedAt : Option Int
  completedValue : JsValue
  createdAt : Int
  deriving DecidableEq

structure CreateSignalTokenParams where
  tokenId : String
  workflowId : String
  signalName : String
  bearer : String
  tags : List String
  idempotencyKey : Option String := none
  expiresAt : Int

inductive CompleteSignalTokenOutcome where
  | delivered
  | alreadyCompleted
  deriving DecidableEq

def sameSignalTokenCreate (existing : SignalTokenRecord) (requested : CreateSignalTokenParams) :
    Bool :=
  existing.workflowId == requested.workflowId && existing.signalName == requested.signalName &&
    existing.bearer == requested.bearer

structure InMemorySignalTokens where
  tokens : JsMap String SignalTokenRecord
  deriving DecidableEq

namespace InMemorySignalTokens

def new : InMemorySignalTokens := ⟨JsMap.empty⟩

variable (t : InMemorySignalTokens)

def findById (tokenId : String) : Option SignalTokenRecord :=
  t.tokens.get tokenId

/-- The token and whether it is an earlier one of the same idempotency key. -/
def create (now : Int) (p : CreateSignalTokenParams) :
    InMemorySignalTokens × Except String (SignalTokenRecord × Bool) :=
  match t.tokens.get p.tokenId with
  | some taken =>
    if sameSignalTokenCreate taken p then (t, .ok (taken, false))
    else (t, .error ("createSignalToken: token id " ++ p.tokenId ++ " already exists"))
  | none =>
    let cached := if truthy p.idempotencyKey then
        t.tokens.values.find? fun r =>
          r.workflowId == p.workflowId && r.idempotencyKey == p.idempotencyKey
      else none
    match cached with
    | some record => (t, .ok (record, true))
    | none =>
      let record : SignalTokenRecord := {
        tokenId := p.tokenId
        workflowId := p.workflowId
        signalName := p.signalName
        bearer := p.bearer
        tags := p.tags
        idempotencyKey := p.idempotencyKey
        expiresAt := p.expiresAt
        completedAt := none
        completedValue := .null
        createdAt := now }
      (⟨t.tokens.set p.tokenId record⟩, .ok (record, false))

def markCompleted (tokenId : String) (value : JsValue) (now : Int) :
    InMemorySignalTokens × Except String (CompleteSignalTokenOutcome × SignalTokenRecord) :=
  match t.tokens.get tokenId with
  | none => (t, .error ("signal token " ++ tokenId ++ " not found"))
  | some record =>
    if record.completedAt.isSome then
      let again := sameStoredValue record.completedValue value
      (t, .ok (if again then .delivered else .alreadyCompleted, record))
    else
      let record := { record with completedAt := some now, completedValue := value }
      (⟨t.tokens.set tokenId record⟩, .ok (.delivered, record))

def deleteWorkflow (workflowId : String) : InMemorySignalTokens :=
  ⟨t.tokens.filter fun _ record => record.workflowId != workflowId⟩

end InMemorySignalTokens

/-! ## Streams -/

inductive StreamAppender where
  | workflow
  | external
  deriving DecidableEq

structure StreamChunk where
  chunkIndex : Nat
  payload : JsValue
  appendedBy : StreamAppender
  appendedAt : Int
  deriving DecidableEq

structure AppendStreamChunkParams where
  workflowId : String
  streamId : String
  payload : JsValue
  appendedBy : StreamAppender
  chunkId : Option String := none

structure InMemoryStreams where
  chunks : JsMap String (List StreamChunk)
  byChunkId : JsMap String Nat
  deriving DecidableEq

namespace InMemoryStreams

def new : InMemoryStreams := ⟨JsMap.empty, JsMap.empty⟩

def streamKey (workflowId streamId : String) : String := workflowId ++ "::" ++ streamId

def append (s : InMemoryStreams) (now : Int) (p : AppendStreamChunkParams) :
    InMemoryStreams × Nat :=
  let key := streamKey p.workflowId p.streamId
  let idKey := p.chunkId.map fun chunkId => key ++ "::" ++ chunkId
  match idKey.bind s.byChunkId.get with
  | some seen => (s, seen)
  | none =>
    let existing := (s.chunks.get key).getD []
    let chunkIndex := existing.length
    let chunk : StreamChunk := {
      chunkIndex := chunkIndex, payload := p.payload, appendedBy := p.appendedBy
      appendedAt := now }
    ({ chunks := s.chunks.set key (existing ++ [chunk])
       byChunkId := match idKey with
         | some k => s.byChunkId.set k chunkIndex
         | none => s.byChunkId }, chunkIndex)

def read (s : InMemoryStreams) (workflowId streamId : String) (since : Option Int)
    (limit : Option Nat) : List StreamChunk :=
  let all := (s.chunks.get (streamKey workflowId streamId)).getD []
  let filtered := match since with
    | some since => all.filter fun c => decide (since < c.chunkIndex)
    | none => all
  match limit with
  | some limit => filtered.take limit
  | none => filtered

def deleteWorkflow (s : InMemoryStreams) (workflowId : String) : InMemoryStreams :=
  let dropped (key : String) : Bool := (workflowId ++ "::").toList.isPrefixOf key.toList
  { chunks := s.chunks.filter fun key _ => !dropped key
    byChunkId := s.byChunkId.filter fun key _ => !dropped key }

end InMemoryStreams

end Promin.Durable
