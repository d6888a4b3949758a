import Mathlib.Algebra.Group.Int.Defs
import Promin.Data.Window

/-!
# Group by

The `GroupBy` node makes one pass over its rows.
-/

namespace Promin.Data

/-- Cells with the numbers and arrays that aggregates compute. -/
class AggCells (κ : Type) extends WindowCells κ where
  /-- `Number.isNaN(v)` -/
  isNaN : κ → Bool
  /-- `Math.sqrt(v)` -/
  sqrt : κ → κ
  /-- The array of these values. -/
  ofItems : List κ → κ

instance : AggCells JsValue where
  isNaN v := decide (v = .undefined)
  sqrt v := match v with
    | .num n => if 0 ≤ n ∧ (n.toNat.sqrt : Int) ^ 2 = n then .num n.toNat.sqrt else .undefined
    | _ => .undefined
  ofItems := .arr

structure CustomAgg (κ : Type) where
  init : κ
  accumulate : κ → κ → κ
  finalize : κ → κ

inductive BaseAgg (κ : Type) where
  | sum | count | avg | min | max | first | last | collect | median | stddev | variance | mode
  | countDistinct
  | custom (agg : CustomAgg κ)

/-- An aggregate of the column it is named after, or of an expression over some of the rows. -/
inductive AggFn (κ : Type) where
  | column (agg : BaseAgg κ)
  | expr (expr : Row κ → κ) (agg : BaseAgg κ) (filter : Option (Row κ → κ))

/-- The accumulator of one aggregate; a minimum or maximum is `none` while it is `undefined`. -/
structure AggAcc (κ : Type) where
  count : Nat
  sum : κ
  min : Option κ
  max : Option κ
  first : κ
  last : κ
  collect : List κ
  distinct : List κ
  customAcc : κ

section GroupBy

variable {κ : Type} [DecidableEq κ] [AggCells κ]

open JsCells WindowCells AggCells

/-! ## Accumulators -/

/-- `fn` without its expression. -/
def AggFn.agg : AggFn κ → BaseAgg κ
  | .column agg => agg
  | .expr _ agg _ => agg

def AggAcc.start (agg : BaseAgg κ) : AggAcc κ where
  count := 0
  sum := ofNat 0
  min := none
  max := none
  first := undefined
  last := undefined
  collect := []
  distinct := []
  customAcc := match agg with
    | .custom agg => agg.init
    | _ => undefined

/-- Does a value take the place of the best so far? -/
def replaces (better : κ → κ → Bool) (best : Option κ) (v : κ) : Option κ :=
  match best with
  | none => some v
  | some m => if better v m then some v else some m

/-- One value of a group. -/
def AggAcc.accumulate (agg : BaseAgg κ) (acc : AggAcc κ) (v : κ) : AggAcc κ :=
  let acc := { acc with count := acc.count + 1 }
  let acc := if nullish v then acc else
    let num := cast .double v
    { acc with
      sum := if isNaN num then acc.sum else arith .add acc.sum num
      min := replaces less acc.min v
      max := replaces (fun v m => less m v) acc.max v
      distinct := if acc.distinct.contains v then acc.distinct else acc.distinct ++ [v] }
  { acc with
    first := if acc.first = undefined then v else acc.first
    last := v
    collect := acc.collect ++ [v]
    customAcc := match agg with
      | .custom agg => agg.accumulate acc.customAcc v
      | _ => acc.customAcc }

def AggAcc.addRow (name : String) (fn : AggFn κ) (acc : AggAcc κ) (row : Row κ) : AggAcc κ :=
  match fn with
  | .column agg => acc.accumulate agg (cell row name)
  | .expr expr agg filter =>
    match filter with
    | some keep => if JsCells.truthy (keep row) then acc.accumulate agg (expr row) else acc
    | none => acc.accumulate agg (expr row)

/-! ## Results -/

/-- `values.filter((v) => v != null).map(Number).filter((v) => !Number.isNaN(v))` -/
def numbersOf (values : List κ) : List κ :=
  ((values.filter fun v => !nullish v).map (cast .double)).filter fun v => !isNaN v

def sumOf (nums : List κ) : κ := nums.foldl (arith .add) (ofNat 0)

/-- The middle of sorted numbers, or the mean of the two in the middle. -/
def medianOf (nums : List κ) : κ :=
  let nums := StableSort.sort (fun a b => isPositive (arith .sub a b)) nums
  let item : Nat → κ := fun i => (nums[i]?).getD undefined
  if nums.length = 0 then null
  else
    let mid := nums.length / 2
    if nums.length % 2 ≠ 0 then item mid
    else arith .div (arith .add (item (mid - 1)) (item mid)) (ofNat 2)

/-- The variance of a sample; `null` for fewer than two numbers. -/
def varianceOf (nums : List κ) : κ :=
  if nums.length < 2 then null
  else
    let mean := arith .div (sumOf nums) (ofNat nums.length)
    arith .div (nums.foldl (fun a v =>
      arith .add a (arith .mul (arith .sub v mean) (arith .sub v mean))) (ofNat 0))
      (ofNat (nums.length - 1))

/-- The square root of the variance. -/
def stddevOf (nums : List κ) : κ := if nums.length < 2 then null else sqrt (varianceOf nums)

def modeOf (values : List κ) : κ :=
  let freq : JsMap κ Nat := values.foldl (fun freq v =>
    if nullish v then freq else freq.set v ((freq.get v).getD 0 + 1)) JsMap.empty
  (freq.entries.foldl (fun (best : Nat × κ) e => if e.2 > best.1 then (e.2, e.1) else best)
    (0, null)).2

/-- What an aggregate makes of its accumulator. -/
def AggAcc.result (agg : BaseAgg κ) (acc : AggAcc κ) : κ :=
  match agg with
  | .custom agg => agg.finalize acc.customAcc
  | .count => ofNat acc.count
  | .sum => acc.sum
  | .avg => if acc.count > 0 then arith .div acc.sum (ofNat acc.count) else null
  | .min => acc.min.getD undefined
  | .max => acc.max.getD undefined
  | .first => acc.first
  | .last => acc.last
  | .collect => ofItems acc.collect
  | .median => medianOf (numbersOf acc.collect)
  | .stddev => stddevOf (numbersOf acc.collect)
  | .variance => varianceOf (numbersOf acc.collect)
  | .mode => modeOf acc.collect
  | .countDistinct => ofNat acc.distinct.length

structure Group (κ : Type) where
  keyValues : Row κ
  accs : List (AggAcc κ)

/-- The text of the key cells: of one cell its `String`, of several `join`. -/
def keyOf : List κ → String
  | [v] => text v
  | vs => "\x00".intercalate (vs.map fun v => if nullish v then "" else text v)

/-- `plan.columns.map((c) => row[c])` -/
def keyCells (columns : List String) (row : Row κ) : List κ := columns.map fun c => cell row c

def Group.start (columns : List String) (aggs : List (String × AggFn κ)) (row : Row κ) : Group κ :=
  { keyValues := selectRow columns row
    accs := aggs.map fun agg => AggAcc.start agg.2.agg }

def Group.addRow (aggs : List (String × AggFn κ)) (group : Group κ) (row : Row κ) : Group κ :=
  { group with accs := List.zipWith (fun agg acc => acc.addRow agg.1 agg.2 row) aggs group.accs }

def Group.result (aggs : List (String × AggFn κ)) (group : Group κ) : Row κ :=
  (aggs.zip group.accs).foldl (fun agged p => agged.set p.1.1 (p.2.result p.1.2.agg))
    (spread group.keyValues)

def groupRows (columns : List String) (aggs : List (String × AggFn κ)) (rows : List (Row κ)) :
    JsMap String (Group κ) :=
  rows.foldl (fun groups row =>
    let key := keyOf (keyCells columns row)
    let group := (groups.get key).getD (Group.start columns aggs row)
    groups.set key (group.addRow aggs row)) JsMap.empty

/-- One row for each group, in the order of their first rows. -/
def executeGroupBy (columns : List String) (aggs : List (String × AggFn κ)) (rows : List (Row κ)) :
    List (Row κ) :=
  (groupRows columns aggs rows).values.map (Group.result aggs)

end GroupBy

end Promin.Data
