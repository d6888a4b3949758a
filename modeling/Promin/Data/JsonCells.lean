import Promin.Shared.JsValue
import Promin.Data.Row
import Mathlib.Data.List.Infix

/-!
# JSON cells

The values of JSON documents, with dates and `undefined`, are cells. Their
numbers are integers: what is no integer in JavaScript (a fraction, `NaN`) shows
as `undefined`.
-/

namespace Promin.Data

namespace JsonCells

/-- `String(date)`, on a host in UTC. -/
def dateText (ms : Int) : String :=
  let days := ms.fdiv 86400000
  let inDay := (ms - days * 86400000).toNat
  let (year, month, day) := civilOfDays days
  ["Sun", "Mon", "Tue", "Wed", "Thu", "Fri", "Sat"].getD ((days + 4) % 7).toNat "" ++ " " ++
    ["Jan", "Feb", "Mar", "Apr", "May", "Jun", "Jul", "Aug", "Sep", "Oct", "Nov", "Dec"].getD
      (month - 1) "" ++ " " ++ padded 2 day ++ " " ++
    (if year < 0 then "-" else "") ++ padded 4 year.natAbs ++ " " ++
    padded 2 (inDay / 3600000) ++ ":" ++ padded 2 (inDay / 60000 % 60) ++ ":" ++
    padded 2 (inDay / 1000 % 60) ++ " GMT+0000 (Coordinated Universal Time)"

mutual

def text : JsValue → String
  | .undefined => "undefined"
  | .null => "null"
  | .bool b => if b then "true" else "false"
  | .num n => toString n
  | .str s => s
  | .date ms => dateText ms
  | .arr items => ",".intercalate (itemTexts items)
  | .obj _ => "[object Object]"

/-- The texts `join` puts together. -/
def itemTexts : List JsValue → List String
  | [] => []
  | v :: rest => (if v = .undefined ∨ v = .null then "" else text v) :: itemTexts rest

end

/-- `Number(text)`, an integer or nothing. -/
def numberOfText (s : String) : Option Int :=
  if s.trimAscii.isEmpty then some 0 else s.trimAscii.toString.toInt?

/-- `Number(v)`, an integer or nothing. -/
def toNumber : JsValue → Option Int
  | .undefined => none
  | .null => some 0
  | .bool b => some (if b then 1 else 0)
  | .num n => some n
  | .str s => numberOfText s
  | .date ms => some ms
  | v@(.arr _) => numberOfText (text v)
  | .obj _ => none

def ofNumber : Option Int → JsValue
  | some n => .num n
  | none => .undefined

def comparesAsText : JsValue → Bool
  | .str _ | .arr _ | .obj _ => true
  | _ => false

def truthy : JsValue → Bool
  | .undefined | .null => false
  | .bool b => b
  | .num n => n != 0
  | .str s => s != ""
  | .date _ | .arr _ | .obj _ => true

def nullish (v : JsValue) : Bool := decide (v = .undefined ∨ v = .null)

def less (a b : JsValue) : Bool :=
  if comparesAsText a && comparesAsText b then decide (text a < text b)
  else match toNumber a, toNumber b with
    | some x, some y => decide (x < y)
    | _, _ => false

def lessEq (a b : JsValue) : Bool :=
  if comparesAsText a && comparesAsText b then decide (¬ text b < text a)
  else match toNumber a, toNumber b with
    | some x, some y => decide (x ≤ y)
    | _, _ => false

def arith (op : ArithOp) (a b : JsValue) : JsValue :=
  let onNumbers : (Int → Int → Option Int) → JsValue := fun f =>
    ofNumber (do
      let x ← toNumber a
      let y ← toNumber b
      f x y)
  match op with
  | .add =>
    let addsText : JsValue → Bool := fun v =>
      match v with
      | .str _ | .arr _ | .obj _ | .date _ => true
      | _ => false
    if addsText a || addsText b then .str (text a ++ text b)
    else onNumbers fun x y => some (x + y)
  | .sub => onNumbers fun x y => some (x - y)
  | .mul => onNumbers fun x y => some (x * y)
  | .div => onNumbers fun x y => if y ≠ 0 ∧ y ∣ x then some (x / y) else none
  | .mod => onNumbers fun x y => if y ≠ 0 then some (x.tmod y) else none

def call : CallName → List JsValue → JsValue
  | .lower, [v] => .str (text v).toLower
  | .upper, [v] => .str (text v).toUpper
  | .contains, [v, part] => .bool (decide ((text part).toList <:+: (text v).toList))
  | .startsWith, [v, part] => .bool ((text part).toList.isPrefixOf (text v).toList)
  | .endsWith, [v, part] => .bool ((text part).toList.isSuffixOf (text v).toList)
  | _, _ => .undefined

def cast : CastType → JsValue → JsValue
  | .double, v => ofNumber (toNumber v)
  | .varchar, v => .str (text v)
  | .boolean, v => .bool (truthy v)

def member : JsValue → String → JsValue
  | .obj members, name => ((members.find? fun m => m.1 == name).map Prod.snd).getD .undefined
  | .arr items, "length" => .num items.length
  | .str s, "length" => .num s.length
  | _, _ => .undefined

/-- `arr[i]`, a negative index counting from the end. -/
def itemAt (items : List JsValue) (index : Int) : JsValue :=
  let i := if index < 0 then items.length + index else index
  if i < 0 then .undefined else (items[i.toNat]?).getD .undefined

def sum (items : List JsValue) : Option Int :=
  items.foldl (fun acc v => do
    let total ← acc
    let n ← toNumber v
    return total + n) (some 0)

def best (prefers : JsValue → JsValue → Bool) : List JsValue → JsValue
  | [] => .null
  | first :: rest => rest.foldl (fun a b => if prefers a b then a else b) first

def listOp : ListOp → List JsValue → List JsValue → JsValue
  | .length, _, items => .num items.length
  | .get, .num index :: _, items => itemAt items index
  | .contains, v :: _, items => .bool (items.contains v)
  | .unique, _, items => .arr items.eraseDups
  | .sort, _, items =>
    let present := items.filter (· != .undefined)
    let absent := items.filter (· == .undefined)
    .arr (StableSort.sort (fun a b => decide (text b < text a)) present ++ absent)
  | .join, separator :: _, items => .str ((text separator).intercalate (itemTexts items))
  | .sum, _, items => ofNumber (sum items)
  | .mean, _, [] => .null
  | .mean, _, items => arith .div (ofNumber (sum items)) (.num items.length)
  | .min, _, items => best less items
  | .max, _, items => best (fun a b => less b a) items
  | .get, _, _ | .contains, _, _ | .join, _, _ => .undefined

end JsonCells

instance : JsCells JsValue where
  undefined := .undefined
  null := .null
  ofBool := .bool
  truthy := JsonCells.truthy
  nullish := JsonCells.nullish
  less := JsonCells.less
  lessEq := JsonCells.lessEq
  strictEq a b := decide (a = b)
  sameValueZero a b := decide (a = b)
  arith := JsonCells.arith
  neg v := JsonCells.ofNumber ((JsonCells.toNumber v).map Neg.neg)
  isNumber v := match v with
    | .num _ => true
    | _ => false
  isPositive v := match v with
    | .num n => decide (0 < n)
    | _ => false
  text := JsonCells.text
  call := JsonCells.call
  cast := JsonCells.cast
  member := JsonCells.member
  items v := match v with
    | .arr items => some items
    | _ => none
  listOp := JsonCells.listOp
  json v := (Promin.stringify v).getD "undefined"
  stringify entries := (Promin.stringify (.obj entries)).getD ""

end Promin.Data
