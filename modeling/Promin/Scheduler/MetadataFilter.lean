import Promin.Durable.RunQueries

/-!
# Metadata filters of schedules

`scheduleMetadataContains` decides in memory whether the metadata of a schedule passes a
filter; the SQL backends ask for the leaves that `flattenLeafPaths` lists.
-/

namespace Promin.Scheduler

open Durable (deepEqual deepEqualItems Record)

/-- What `actual[k]` finds in Object.prototype.  Its functions match no filter, as `undefined`
    does; `__proto__` is the prototype itself, whose own prototype is `null`. -/
def inherited (k : String) : JsValue :=
  if k = "__proto__" then .obj [("__proto__", .null)] else .undefined

def memberAt (members : List (String × JsValue)) (k : String) : JsValue :=
  (JsMap.lookup k members).getD (inherited k)

mutual

/-- The value holds what the filter asks for. -/
def contains (actual : JsValue) : (filter : JsValue) → Bool
  | .arr items => match actual with
    | .arr xs => arraysEqual xs items
    | _ => false
  | .obj members => match actual with
    | .obj xs => containsAll xs members
    | .date _ => containsAll [] members
    | _ => false
  | .date _ => match actual with
    | .obj _ | .date _ => true
    | _ => false
  | filter => actual == filter

def arraysEqual : (actual filter : List JsValue) → Bool
  | x :: xs, y :: ys => contains x y && arraysEqual xs ys
  | [], [] => true
  | _, _ => false

/-- The loop over the keys of the filter. -/
def containsAll (actual : List (String × JsValue)) : List (String × JsValue) → Bool
  | [] => true
  | (k, v) :: rest => contains (memberAt actual k) v && containsAll actual rest

end

def scheduleMetadataContains (actual : Option Record) (filter : Record) : Bool :=
  if filter.isEmpty then true
  else match actual with
    | none => false
    | some actual => containsAll actual filter

mutual

def walk : JsValue → List (List String × JsValue)
  | .obj members => flattenLeafPaths members
  | .date _ => []
  | leaf => [([], leaf)]

def flattenLeafPaths : List (String × JsValue) → List (List String × JsValue)
  | [] => []
  | (k, v) :: rest => (walk v).map (fun e => (k :: e.1, e.2)) ++ flattenLeafPaths rest

end

/-! ## What the leaves ask for -/

def valueAt : JsValue → List String → Option JsValue
  | v, [] => some v
  | .obj members, k :: path => (JsMap.lookup k members).bind (valueAt · path)
  | _, _ :: _ => none

def Present (actual : JsValue) (leaf : List String × JsValue) : Prop :=
  ∃ v, valueAt actual leaf.1 = some v ∧ deepEqual v leaf.2 = true

/-- Memory and SQL select the same schedules. -/
def MeansTheSame (filter : Record) : Prop :=
  ∀ actual : Record, (JsValue.obj actual).isJson = true →
    (scheduleMetadataContains (some actual) filter = true ↔
      ∀ leaf ∈ flattenLeafPaths filter, Present (.obj actual) leaf)

mutual

def holdsObject : JsValue → Bool
  | .arr items => someHoldsObject items
  | .obj _ => true
  | _ => false

def someHoldsObject : List JsValue → Bool
  | [] => false
  | v :: rest => holdsObject v || someHoldsObject rest

end

mutual

/-- A member of a filter: an object is neither empty nor what every object inherits, and no
    object is in an array. -/
def plain (k : String) : JsValue → Bool
  | .obj members => !members.isEmpty && !(inherited k == .obj members) && allPlain members
  | v => !holdsObject v

def allPlain : List (String × JsValue) → Bool
  | [] => true
  | (k, v) :: rest => plain k v && allPlain rest

end

end Promin.Scheduler
