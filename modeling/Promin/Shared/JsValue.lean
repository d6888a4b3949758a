import Mathlib.Data.List.Sort

/-!
# Stored values

The `unknown` payloads of the engine (inputs, results, signal payloads, journal
exits, metadata) are JSON-shaped JavaScript values.
-/

namespace Promin

def truthy (s : Option String) : Bool :=
  match s with
  | some text => text != ""
  | none => false

/-- A JSON-shaped JavaScript value. Object members are in enumeration order. -/
inductive JsValue where
  | undefined
  | null
  | bool (b : Bool)
  | num (n : Int)
  | str (s : String)
  /-- A `Date`, by its epoch milliseconds. -/
  | date (ms : Int)
  | arr (items : List JsValue)
  | obj (members : List (String × JsValue))
  deriving Repr, Inhabited

namespace JsValue

mutual

protected def decEq : (a b : JsValue) → Decidable (a = b)
  | .undefined, b => match b with
    | .undefined => isTrue rfl
    | .null | .bool _ | .num _ | .str _ | .date _ | .arr _ | .obj _ => isFalse nofun
  | .null, b => match b with
    | .null => isTrue rfl
    | .undefined | .bool _ | .num _ | .str _ | .date _ | .arr _ | .obj _ => isFalse nofun
  | .bool x, b => match b with
    | .bool y => decidable_of_iff (x = y) (by simp)
    | .undefined | .null | .num _ | .str _ | .date _ | .arr _ | .obj _ => isFalse nofun
  | .num x, b => match b with
    | .num y => decidable_of_iff (x = y) (by simp)
    | .undefined | .null | .bool _ | .str _ | .date _ | .arr _ | .obj _ => isFalse nofun
  | .str x, b => match b with
    | .str y => decidable_of_iff (x = y) (by simp)
    | .undefined | .null | .bool _ | .num _ | .date _ | .arr _ | .obj _ => isFalse nofun
  | .date x, b => match b with
    | .date y => decidable_of_iff (x = y) (by simp)
    | .undefined | .null | .bool _ | .num _ | .str _ | .arr _ | .obj _ => isFalse nofun
  | .arr xs, b => match b with
    | .arr ys => match JsValue.decEqItems xs ys with
      | isTrue h => isTrue (h ▸ rfl)
      | isFalse h => isFalse fun he => h (arr.inj he)
    | .undefined | .null | .bool _ | .num _ | .str _ | .date _ | .obj _ => isFalse nofun
  | .obj xs, b => match b with
    | .obj ys => match JsValue.decEqMembers xs ys with
      | isTrue h => isTrue (h ▸ rfl)
      | isFalse h => isFalse fun he => h (obj.inj he)
    | .undefined | .null | .bool _ | .num _ | .str _ | .date _ | .arr _ => isFalse nofun

protected def decEqItems : (xs ys : List JsValue) → Decidable (xs = ys)
  | [], [] => isTrue rfl
  | [], _ :: _ => isFalse nofun
  | _ :: _, [] => isFalse nofun
  | x :: xs, y :: ys => match JsValue.decEq x y, JsValue.decEqItems xs ys with
    | isTrue hx, isTrue hxs => isTrue (hx ▸ hxs ▸ rfl)
    | isFalse hx, _ => isFalse fun he => hx (List.cons.inj he).1
    | _, isFalse hxs => isFalse fun he => hxs (List.cons.inj he).2

protected def decEqMembers : (xs ys : List (String × JsValue)) → Decidable (xs = ys)
  | [], [] => isTrue rfl
  | [], _ :: _ => isFalse nofun
  | _ :: _, [] => isFalse nofun
  | (k, x) :: xs, (k', y) :: ys =>
    if hk : k = k' then
      match JsValue.decEq x y, JsValue.decEqMembers xs ys with
      | isTrue hx, isTrue hxs => isTrue (hk ▸ hx ▸ hxs ▸ rfl)
      | isFalse hx, _ => isFalse fun he => hx (Prod.mk.inj (List.cons.inj he).1).2
      | _, isFalse hxs => isFalse fun he => hxs (List.cons.inj he).2
    else isFalse fun he => hk (Prod.mk.inj (List.cons.inj he).1).1

end

instance : DecidableEq JsValue := JsValue.decEq

end JsValue

/-! ## Dates as text -/

def padded (width : Nat) (n : Nat) : String :=
  String.ofList (List.replicate (width - (toString n).length) '0') ++ toString n

/-- Year, month and day of the day number `days` counted from 1970-01-01
    (proleptic Gregorian calendar, 400-year eras starting on March 1st). -/
def civilOfDays (days : Int) : Int × Nat × Nat :=
  let z := days + 719468
  let era := z.fdiv 146097
  let doe := (z - era * 146097).toNat
  let yoe := (doe - doe / 1460 + doe / 36524 - doe / 146096) / 365
  let doy := doe - (365 * yoe + yoe / 4 - yoe / 100)
  let mp := (5 * doy + 2) / 153
  let day := doy - (153 * mp + 2) / 5 + 1
  let month := if mp < 10 then mp + 3 else mp - 9
  let year := (yoe : Int) + era * 400 + (if month ≤ 2 then 1 else 0)
  (year, month, day)

def toISOString (ms : Int) : String :=
  let days := ms.fdiv 86400000
  let inDay := (ms - days * 86400000).toNat
  let (year, month, day) := civilOfDays days
  let yearText :=
    if 0 ≤ year ∧ year ≤ 9999 then padded 4 year.toNat
    else (if year < 0 then "-" else "+") ++ padded 6 year.natAbs
  yearText ++ "-" ++ padded 2 month ++ "-" ++ padded 2 day ++ "T" ++
    padded 2 (inDay / 3600000) ++ ":" ++ padded 2 (inDay / 60000 % 60) ++ ":" ++
    padded 2 (inDay / 1000 % 60) ++ "." ++ padded 3 (inDay % 1000) ++ "Z"

/-! ## `JSON.stringify` -/

def escapeChar (c : Char) : String :=
  if c = '"' then "\\\""
  else if c = '\\' then "\\\\"
  else if c = '\n' then "\\n"
  else if c = '\r' then "\\r"
  else if c = '\t' then "\\t"
  else if c.toNat = 8 then "\\b"
  else if c.toNat = 12 then "\\f"
  else if c.toNat < 32 then
    "\\u00" ++ padded 1 (c.toNat / 16) ++ String.singleton (Nat.digitChar (c.toNat % 16))
  else String.singleton c

def quoted (s : String) : String :=
  "\"" ++ String.join (s.toList.map escapeChar) ++ "\""

mutual

def stringify : JsValue → Option String
  | .undefined => none
  | .null => some "null"
  | .bool b => some (if b then "true" else "false")
  | .num n => some (toString n)
  | .str s => some (quoted s)
  | .date ms => some (quoted (toISOString ms))
  | .arr items => some ("[" ++ ",".intercalate (stringifyItems items) ++ "]")
  | .obj members => some ("\x7b" ++ ",".intercalate (stringifyMembers members) ++ "\x7d")

/-- Texts of an array's items: `undefined` prints as `null`. -/
def stringifyItems : List JsValue → List String
  | [] => []
  | v :: rest => (stringify v).getD "null" :: stringifyItems rest

/-- Texts of an object's members: `undefined` members are left out. -/
def stringifyMembers : List (String × JsValue) → List String
  | [] => []
  | (k, v) :: rest => match stringify v with
    | some text => (quoted k ++ ":" ++ text) :: stringifyMembers rest
    | none => stringifyMembers rest

end

/-! ## Canonical form -/

mutual

/-- `canonical`: keys sorted, `undefined` members dropped, dates as ISO strings. -/
def canonical : JsValue → JsValue
  | .undefined => .undefined
  | .null => .null
  | .bool b => .bool b
  | .num n => .num n
  | .str s => .str s
  | .date ms => .str (toISOString ms)
  | .arr items => .arr (canonicalItems items)
  | .obj members =>
    .obj ((canonicalMembers members).insertionSort fun a b => a.1 ≤ b.1)

def canonicalItems : List JsValue → List JsValue
  | [] => []
  | v :: rest => canonical v :: canonicalItems rest

/-- `canonical` on every member that is not `undefined`. -/
def canonicalMembers : List (String × JsValue) → List (String × JsValue)
  | [] => []
  | (k, v) :: rest =>
    if v = .undefined then canonicalMembers rest
    else (k, canonical v) :: canonicalMembers rest

end

/-- `canonicalJson`: the text two stored values are compared by. -/
def canonicalJson (value : JsValue) : String :=
  (stringify (canonical value)).getD "undefined"

/-- The values have one canonical text. -/
def sameStoredValue (stored requested : JsValue) : Bool :=
  canonicalJson stored == canonicalJson requested

theorem sameStoredValue_refl (a : JsValue) : sameStoredValue a a = true := by
  simp [sameStoredValue]

end Promin

/-!
## Thrown values

JavaScript throws any value.  The engine looks at three things of it: the message it
stores, the `_tag` it tells control flow from failures by, and whether it is `undefined`.
-/

namespace Promin

inductive Thrown where
  /-- An `Error`, with its message and its `_tag`. -/
  | error (message : String) (tag : Option String)
  | undefined
  | text (s : String)
  | other (printed : String) (tag : Option String)
  deriving DecidableEq

def errorMessage : Thrown → String
  | .error message _ => message
  | .undefined => "undefined"
  | .text s => s
  | .other printed _ => printed

def Thrown.tag : Thrown → Option String
  | .error _ tag => tag
  | .undefined => none
  | .text _ => none
  | .other _ tag => tag

def abandonRunExits : List String :=
  ["FenceTokenMismatchError", "WorkflowLockLostError", "CheckpointError"]

def controlFlowExits : List String :=
  ["WorkflowSuspendedError", "WorkflowContinueAsNewError", "WorkflowTripwireError",
    "JournalNonDeterminismError", "AmbiguousActivityOutcome", "WorkflowLockError",
    "FenceTokenMismatchError", "WorkflowLockLostError", "CheckpointError"]

def isAbandonRunExit (error : Thrown) : Bool :=
  error.tag.any abandonRunExits.contains

def isControlFlowExit (error : Thrown) : Bool :=
  error.tag.any controlFlowExits.contains

end Promin
