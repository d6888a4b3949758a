import Promin.Shared.JsonValue
import Promin.Durable.Journal

/-!
# Journaled failures

`failureExit` stores what an activity threw as a journal exit, and
`rehydrateFailure` rebuilds an error from it on replay.
-/

namespace Promin.Durable

open JsMap

structure ErrorValue (V : Type) where
  tag : Option String
  name : String
  message : String
  /-- The own enumerable fields; a `name` or `_tag` that was assigned is not listed. -/
  fields : JsMap String V
  /-- The own fields that are not enumerable, as the `cause` given to a constructor;
      `message` and `stack` aside. -/
  hidden : JsMap String V
  terminal : Bool
  /-- `instanceof RetryableError`. -/
  retryable : Bool

/-- A thrown value. Tags and messages are those that are strings. -/
inductive Raised (V : Type) where
  | error (e : ErrorValue V)
  /-- An object that is neither an `Error` nor an array. -/
  | record (tag message errorTag : Option String) (printed : String)
  | array (tag : Option String) (printed : String)
  /-- Any other value; `printed` is `String(value)`. -/
  | primitive (printed : String)

/-- What is not the engine's own. -/
structure ErrorRuntime (V : Type) where
  /-- `LosslessJsonCodec.encode(value)`; `none` stands for a throw. -/
  encodeValue : V → Option JsValue
  encode : JsMap String V → Option JsValue
  /-- `LosslessJsonCodec.decode(data)`; `none` stands for a throw, or a value that is no record. -/
  decode : JsValue → Option (JsMap String V)
  text : V → Option String
  /-- `new cls({ ...fields, message })` for the engine class with the tag. -/
  construct : (tag : String) → (fields : JsMap String V) → (message : String) → ErrorValue V

def knownTaggedErrors : List String :=
  ["TerminalError", "RetryableError", "AmbiguousActivityOutcome", "FenceTokenMismatchError",
    "GuardError", "LoopLimitExceededError", "StepError", "StepTimeoutError", "StorageError",
    "WorkflowDeadlineError", "WorkflowError", "WorkflowLockError", "WorkflowTimeoutError"]

def builtinErrors : List String :=
  ["TypeError", "RangeError", "SyntaxError", "ReferenceError", "EvalError", "URIError"]

/-- Names a lookup in `BUILTIN_ERRORS` finds on `Object.prototype`, `constructor` aside. -/
def inheritedNames : List String :=
  ["__defineGetter__", "__defineSetter__", "hasOwnProperty", "__lookupGetter__",
    "__lookupSetter__", "isPrototypeOf", "propertyIsEnumerable", "toString", "valueOf",
    "__proto__", "toLocaleString"]

def reservedErrorKeys : List String := ["_tag", "name", "message", "stack"]

variable {V : Type}

/-- A plain `Error`, or one of the built-in classes. -/
def ErrorValue.untagged (name message : String) (fields : JsMap String V) : ErrorValue V where
  tag := none
  name := name
  message := message
  fields := fields
  hidden := empty
  terminal := false
  retryable := false

section

variable (rt : ErrorRuntime V)

/-- Own enumerable fields other than the reserved ones. Fields that can't be encoded are
    dropped. -/
def encodeErrorFields (e : ErrorValue V) : Option JsValue :=
  let fields := e.fields.filter fun key _ => !reservedErrorKeys.contains key
  if fields.size = 0 then none
  else
    match rt.encode fields with
    | some data => some data
    | none =>
      let kept := fields.filter fun _ value => (rt.encodeValue value).isSome
      if 0 < kept.size then rt.encode kept else none

def failureExit : Raised V → JournalExit
  | .error e =>
    let errorName := if e.tag.isNone && e.name != "" && e.name != "Error" then some e.name else none
    .failure e.message e.tag errorName (encodeErrorFields rt e)
  | .record tag message _ printed => .failure (message.getD printed) tag none none
  | .array _ printed => .failure printed none none none
  | .primitive printed => .failure printed none none none

def decodeErrorFields (errorData : Option JsValue) : JsMap String V :=
  (errorData.bind rt.decode).getD empty

/-- Rebuild what a `Failure` exit recorded. The error is that of a `new` that throws. -/
def rehydrateFailure (error : String) (errorTag errorName : Option String)
    (errorData : Option JsValue) : Except Thrown (Raised V) :=
  let fields := decodeErrorFields rt errorData
  match errorTag with
  | some tag =>
    if knownTaggedErrors.contains tag then .ok (.error (rt.construct tag fields error))
    else .ok (.error {
      tag := some tag, name := tag, message := error, fields := fields
      hidden := empty, terminal := false, retryable := false })
  | none =>
    match errorName with
    | none => .ok (.error (.untagged "Error" error fields))
    | some name =>
      if builtinErrors.contains name then .ok (.error (.untagged name error fields))
      -- `new Object(message)`: a string object, no error.
      else if name = "constructor" then .ok (.record none none none error)
      else if inheritedNames.contains name then
        .error (.error "builtin is not a constructor" none)
      else .ok (.error (.untagged name error fields))

end

def textMember (members : List (String × JsValue)) (key : String) : Option String :=
  match lookup key members with
  | some (.str s) => some s
  | _ => none

def JournalExit.ofJs : JsValue → Option JournalExit
  | .obj members =>
    if textMember members "tag" = some "Success" then
      some (.success ((lookup "value" members).getD .undefined))
    else if textMember members "tag" = some "Failure" then
      (textMember members "error").map fun error =>
        .failure error (textMember members "errorTag") (textMember members "errorName")
          (lookup "errorData" members)
    else none
  | _ => none

/-- What a thrown value comes back as on replay: stored as JSON text, read back and rebuilt. -/
def replayed (rt : ErrorRuntime V) (err : Raised V) : Except Thrown (Raised V) :=
  match JournalExit.ofJs (JsValue.parsed (failureExit rt err).toJs) with
  | some (.failure error errorTag errorName errorData) =>
    rehydrateFailure rt error errorTag errorName errorData
  | some (.success _) => .error .undefined
  | none => .error .undefined

/-! ## Classification -/

def Raised.thrown : Raised V → Thrown
  | .error e => .error e.message e.tag
  | .record tag _ _ printed => .other printed tag
  | .array tag printed => .other printed tag
  | .primitive printed => .other printed none

def errorTagOf (rt : ErrorRuntime V) : Raised V → Option String
  | .error e =>
    if e.tag = some "StepError" then ((e.fields.get "errorTag").bind rt.text).or e.tag else e.tag
  | .record tag _ errorTag _ => if tag = some "StepError" then errorTag.or tag else tag
  | .array tag _ => tag
  | .primitive _ => none

/-- What the runner tells apart: control flow from failures, errors that abandon the run, the tag
    it stores, and whether an activity is never or always retried. -/
structure Classification where
  controlFlow : Bool
  abandonsRun : Bool
  storedTag : Option String
  terminal : Bool
  retryable : Bool

def classify (rt : ErrorRuntime V) (err : Raised V) : Classification where
  controlFlow := isControlFlowExit err.thrown
  abandonsRun := isAbandonRunExit err.thrown
  storedTag := errorTagOf rt err
  terminal := match err with
    | .error e => e.terminal
    | _ => false
  retryable := match err with
    | .error e => e.retryable
    | _ => false

end Promin.Durable
