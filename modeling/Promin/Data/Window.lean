import Promin.Data.ArrayExecutor
import Promin.Data.JsonCells

/-!
# Window functions

`executeWindow` sorts each partition by one column and gives every row a value
that depends on its position.
-/

namespace Promin.Data

class WindowCells (κ : Type) extends JsCells κ where
  ofNat : Nat → κ
  ofNat_injective : Function.Injective ofNat
  mathMin : κ → κ → κ
  mathMax : κ → κ → κ

instance : WindowCells JsValue where
  ofNat n := .num n
  ofNat_injective := fun _ _ h => Int.ofNat.inj (JsValue.num.inj h)
  mathMin a b := JsonCells.ofNumber (do
    let x ← JsonCells.toNumber a
    let y ← JsonCells.toNumber b
    return min x y)
  mathMax a b := JsonCells.ofNumber (do
    let x ← JsonCells.toNumber a
    let y ← JsonCells.toNumber b
    return max x y)

inductive WindowFn where
  | rowNumber | rank | denseRank | lag | lead | sum | avg | min | max | runningTotal | first | last
  | ntile

structure WindowArgs (κ : Type) where
  offset : Option Nat := none
  n : Option Nat := none
  default : Option κ := none

section Window

variable {κ : Type} [DecidableEq κ] [WindowCells κ]

open JsCells WindowCells

def groupRowsBy (rows : List (Row κ)) (column : String) : List (List (Row κ)) :=
  (rows.foldl (fun groups row => groups.push (cell row column) row) JsMap.empty).values

/-- The partitions of a window function. -/
def partitionRows (rows : List (Row κ)) (partitionBy : Option String) : List (List (Row κ)) :=
  match partitionBy with
  | some column => if column ≠ "" then groupRowsBy rows column else [rows]
  | none => [rows]

def sortPartition (orderBy : String) (partition : List (Row κ)) : List (Row κ) :=
  StableSort.sort (afterByComparing .asc orderBy) partition

def keyAt (sorted : List (Row κ)) (orderBy : String) (j : Nat) : κ :=
  match sorted[j]? with
  | some row => cell row orderBy
  | none => undefined

def rankAt (sorted : List (Row κ)) (orderBy : String) (i : Nat) : Nat :=
  let key := keyAt sorted orderBy i
  let rank := (List.range i).foldl (fun rank j =>
    if !strictEq (keyAt sorted orderBy j) key then j + 1 else rank) 1
  if decide (i > 0) && !strictEq (keyAt sorted orderBy (i - 1)) key then i + 1 else rank

/-- The `dense_rank` branch; `indexOf` gives `-1` for what it does not find. -/
def denseRankAt (sorted : List (Row κ)) (orderBy : String) (i : Nat) : Nat :=
  let uniqueVals := (sorted.map fun row => cell row orderBy).eraseDups
  match uniqueVals.findIdx? fun v => strictEq v (keyAt sorted orderBy i) with
  | some position => position + 1
  | none => 0

def sumUpTo (sorted : List (Row κ)) (orderBy : String) (i : Nat) : κ :=
  (List.range (i + 1)).foldl (fun sum j =>
    let v := keyAt sorted orderBy j
    arith .add sum (cast .double (if nullish v then ofNat 0 else v))) (ofNat 0)

/-- The least or greatest key up to a position, as a number. -/
def bestUpTo (choose : κ → κ → κ) (sorted : List (Row κ)) (orderBy : String) (i : Nat) : κ :=
  (List.range' 1 i).foldl (fun best j => choose best (cast .double (keyAt sorted orderBy j)))
    (cast .double (keyAt sorted orderBy 0))

/-- `args?.default ?? null`. -/
def WindowArgs.fallback (args : WindowArgs κ) : κ :=
  match args.default with
  | some v => if nullish v then null else v
  | none => null

def windowValue (fn : WindowFn) (orderBy : String) (args : WindowArgs κ) (sorted : List (Row κ))
    (i : Nat) : κ :=
  match fn with
  | .rowNumber => ofNat (i + 1)
  | .rank => ofNat (rankAt sorted orderBy i)
  | .denseRank => ofNat (denseRankAt sorted orderBy i)
  | .lag =>
    let offset := args.offset.getD 1
    if i ≥ offset then keyAt sorted orderBy (i - offset) else args.fallback
  | .lead =>
    let offset := args.offset.getD 1
    if i + offset < sorted.length then keyAt sorted orderBy (i + offset) else args.fallback
  | .runningTotal | .sum => sumUpTo sorted orderBy i
  | .avg => arith .div (sumUpTo sorted orderBy i) (ofNat (i + 1))
  | .min => bestUpTo mathMin sorted orderBy i
  | .max => bestUpTo mathMax sorted orderBy i
  | .first => keyAt sorted orderBy 0
  | .last => keyAt sorted orderBy i
  | .ntile => ofNat (i * args.n.getD 4 / sorted.length + 1)

def windowPartition (name : String) (fn : WindowFn) (orderBy : String) (args : WindowArgs κ)
    (partition : List (Row κ)) : List (Row κ) :=
  let sorted := sortPartition orderBy partition
  sorted.mapIdx fun i row => withColumnRow name (windowValue fn orderBy args sorted i) row

def executeWindow (rows : List (Row κ)) (name : String) (fn : WindowFn) (orderBy : String)
    (partitionBy : Option String) (args : WindowArgs κ) : List (Row κ) :=
  (partitionRows rows partitionBy).flatMap (windowPartition name fn orderBy args)

def UnaryNode.window (name : String) (fn : WindowFn) (orderBy : String)
    (partitionBy : Option String) (args : WindowArgs κ) : UnaryNode κ :=
  .rows fun rows => executeWindow rows name fn orderBy partitionBy args

end Window

end Promin.Data
