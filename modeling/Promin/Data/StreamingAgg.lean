import Promin.Data.GroupBy

/-!
# Streaming aggregation

The accumulators of `streaming-agg`, which see the values of a group one by one
and can be stored in between.
-/

namespace Promin.Data

/-- Cells with their order to the infinities. -/
class StreamCells (κ : Type) extends AggCells κ where
  /-- `v < Infinity` -/
  belowInfinity : κ → Bool
  aboveNegInfinity : κ → Bool

instance : StreamCells JsValue where
  belowInfinity v := decide (v ≠ .undefined)
  aboveNegInfinity v := decide (v ≠ .undefined)

/-- The accumulator of one aggregate; a minimum of `Infinity` and a maximum of `-Infinity` are
`none`, a `Set` is a map without values. -/
structure GroupAccumulator (κ : Type) where
  count : Nat
  sum : κ
  min : Option κ
  max : Option κ
  first : κ
  last : κ
  values : List κ
  distinct : JsMap κ Unit
  sumSq : κ
  freqMap : JsMap κ Nat
  customAcc : κ

section Streaming

variable {κ : Type} [DecidableEq κ] [StreamCells κ]

open JsCells WindowCells AggCells StreamCells

variable (agg : BaseAgg κ)

def createAccumulator : GroupAccumulator κ where
  count := 0
  sum := ofNat 0
  min := none
  max := none
  first := undefined
  last := undefined
  values := []
  distinct := JsMap.empty
  sumSq := ofNat 0
  freqMap := JsMap.empty
  customAcc := match agg with
    | .custom agg => agg.init
    | _ => undefined

/-- `num < min`, and `num > max` with the orders the other way. -/
def passesBound (below : κ → κ → Bool) (inRange : κ → Bool) (num : κ) : Option κ → Bool
  | some bound => below num bound
  | none => inRange num

/-- The numbers among the values that sums and extremes are of. -/
def GroupAccumulator.addNumber (acc : GroupAccumulator κ) (num : κ) : GroupAccumulator κ :=
  if isNaN num then acc
  else
    { acc with
      sum := arith .add acc.sum num
      sumSq := arith .add acc.sumSq (arith .mul num num)
      min := if passesBound less belowInfinity num acc.min then some num else acc.min
      max := if passesBound (fun v m => less m v) aboveNegInfinity num acc.max then some num
        else acc.max }

/-- The values that an aggregate keeps: all, or the numbers among them. -/
def keptValues (value : κ) : List κ :=
  match agg with
  | .collect => [value]
  | .median | .stddev | .variance =>
    if nullish value then []
    else if isNaN (cast .double value) then [] else [cast .double value]
  | _ => []

def GroupAccumulator.accumulate (acc : GroupAccumulator κ) (value : κ) : GroupAccumulator κ :=
  let acc := { acc with count := acc.count + 1 }
  let acc := if nullish value then acc
    else { acc.addNumber (cast .double value) with distinct := acc.distinct.set value () }
  { acc with
    first := if acc.first = undefined then value else acc.first
    last := value
    customAcc := match agg with
      | .custom agg => agg.accumulate acc.customAcc value
      | _ => acc.customAcc
    values := acc.values ++ keptValues agg value
    freqMap := match agg with
      | .mode => if nullish value then acc.freqMap
        else acc.freqMap.set value ((acc.freqMap.get value).getD 0 + 1)
      | _ => acc.freqMap }

def mostFrequent (freqMap : JsMap κ Nat) : κ :=
  (freqMap.entries.foldl (fun (best : Nat × κ) e => if e.2 > best.1 then (e.2, e.1) else best)
    (0, null)).2

def GroupAccumulator.finalize (acc : GroupAccumulator κ) : κ :=
  match agg with
  | .custom agg => agg.finalize acc.customAcc
  | .sum => acc.sum
  | .count => ofNat acc.count
  | .avg => if acc.count > 0 then arith .div acc.sum (ofNat acc.count) else null
  | .min => acc.min.getD undefined
  | .max => acc.max.getD undefined
  | .first => acc.first
  | .last => acc.last
  | .collect => ofItems acc.values
  | .median => medianOf acc.values
  | .mode => mostFrequent acc.freqMap
  | .stddev => stddevOf acc.values
  | .variance => varianceOf acc.values
  | .countDistinct => ofNat acc.distinct.size

end Streaming

end Promin.Data
