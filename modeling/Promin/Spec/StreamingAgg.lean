import Promin.Data.StreamingAgg
import Promin.Spec.GroupBy

/-!
# Streaming aggregates

A streaming accumulator holds what the accumulator of a `GroupBy` holds, except that it takes
minima and maxima of numbers.
-/

namespace Promin.Data

section Streaming

variable {κ : Type} [DecidableEq κ] [StreamCells κ]

open JsCells WindowCells AggCells StreamCells GroupAccumulator

def Comparable (agg : BaseAgg κ) (value : κ) : Prop :=
  nullish value = false → match agg with
    | .min => cast .double value = value ∧ isNaN value = false ∧ belowInfinity value = true
    | .max => cast .double value = value ∧ isNaN value = false ∧ aboveNegInfinity value = true
    | _ => True

def frequencies (values : List κ) : JsMap κ Nat :=
  values.foldl (fun freq v =>
    if nullish v then freq else freq.set v ((freq.get v).getD 0 + 1)) JsMap.empty

/-- Both accumulators have seen the same values. -/
structure SameAggregate (agg : BaseAgg κ) (acc : GroupAccumulator κ) (acc' : AggAcc κ) : Prop where
  count : acc.count = acc'.count
  sum : acc.sum = acc'.sum
  first : acc.first = acc'.first
  last : acc.last = acc'.last
  distinct : acc.distinct.keys = acc'.distinct
  customAcc : acc.customAcc = acc'.customAcc
  min : agg = .min → acc.min = acc'.min
  max : agg = .max → acc.max = acc'.max
  collect : agg = .collect → acc.values = acc'.collect
  numbers : agg = .median ∨ agg = .stddev ∨ agg = .variance →
    acc.values = numbersOf acc'.collect
  mode : agg = .mode → acc.freqMap = frequencies acc'.collect

theorem sameAggregate_start (agg : BaseAgg κ) :
    SameAggregate agg (createAccumulator agg) (AggAcc.start agg) where
  count := rfl
  sum := rfl
  first := rfl
  last := rfl
  distinct := rfl
  customAcc := rfl
  min := fun _ => rfl
  max := fun _ => rfl
  collect := fun _ => rfl
  numbers := fun _ => rfl
  mode := fun _ => rfl

theorem finalize_eq_result {agg : BaseAgg κ} {acc : GroupAccumulator κ} {acc' : AggAcc κ}
    (h : SameAggregate agg acc acc') : acc.finalize agg = acc'.result agg := by
  cases agg with
  | custom custom => exact congrArg custom.finalize h.customAcc
  | sum => exact h.sum
  | count => exact congrArg ofNat h.count
  | avg =>
    show (if acc.count > 0 then _ else _) = if acc'.count > 0 then _ else _
    rw [h.count, h.sum]
  | min => exact congrArg (Option.getD · undefined) (h.min rfl)
  | max => exact congrArg (Option.getD · undefined) (h.max rfl)
  | first => exact h.first
  | last => exact h.last
  | collect => exact congrArg ofItems (h.collect rfl)
  | median => exact congrArg medianOf (h.numbers (.inl rfl))
  | stddev => exact congrArg stddevOf (h.numbers (.inr (.inl rfl)))
  | variance => exact congrArg varianceOf (h.numbers (.inr (.inr rfl)))
  | mode => exact congrArg mostFrequent (h.mode rfl)
  | countDistinct =>
    have hlength := congrArg List.length h.distinct
    rw [JsMap.keys, List.length_map] at hlength
    exact congrArg ofNat hlength

omit [DecidableEq κ] in
theorem numbersOf_append (values : List κ) (v : κ) : numbersOf (values ++ [v]) =
    numbersOf values ++ if nullish v then []
      else if isNaN (cast .double v) then [] else [cast .double v] := by
  unfold numbersOf
  cases hv : nullish v with
  | true => simp [hv]
  | false => cases hnan : isNaN (cast .double v) <;> simp [hv, hnan]

/-! ## Fields of an accumulator -/

section Fields

variable (agg : BaseAgg κ) (v : κ) (acc : GroupAccumulator κ)

omit [DecidableEq κ] in
theorem addNumber_frame (num : κ) :
    (acc.addNumber num).count = acc.count ∧ (acc.addNumber num).first = acc.first ∧
      (acc.addNumber num).values = acc.values ∧ (acc.addNumber num).freqMap = acc.freqMap ∧
      (acc.addNumber num).customAcc = acc.customAcc := by
  unfold addNumber
  split
  · exact ⟨rfl, rfl, rfl, rfl, rfl⟩
  · exact ⟨rfl, rfl, rfl, rfl, rfl⟩

/-- The fields that do not depend on numbers. -/
theorem accumulate_frame :
    (acc.accumulate agg v).count = acc.count + 1 ∧
      (acc.accumulate agg v).first = (if acc.first = undefined then v else acc.first) ∧
      (acc.accumulate agg v).values = acc.values ++ keptValues agg v ∧
      (acc.accumulate agg v).freqMap = (match agg with
        | .mode => if nullish v then acc.freqMap
          else acc.freqMap.set v ((acc.freqMap.get v).getD 0 + 1)
        | _ => acc.freqMap) ∧
      (acc.accumulate agg v).customAcc = (match agg with
        | .custom agg => agg.accumulate acc.customAcc v
        | _ => acc.customAcc) := by
  obtain ⟨hcount, hfirst, hvalues, hfreq, hcustom⟩ :=
    addNumber_frame { acc with count := acc.count + 1 } (cast .double v)
  unfold accumulate
  cases nullish v with
  | true => exact ⟨rfl, rfl, rfl, rfl, rfl⟩
  | false =>
    simp only [Bool.false_eq_true, if_false]
    refine ⟨hcount, by rw [hfirst], by rw [hvalues], ?_, ?_⟩
    · cases agg <;> simp only [hfreq]
    · cases agg <;> simp only [hcustom]

theorem sum_accumulate : (acc.accumulate agg v).sum =
    if nullish v then acc.sum else (acc.addNumber (cast .double v)).sum := by
  unfold accumulate
  cases nullish v with
  | true => rfl
  | false =>
    unfold addNumber
    cases isNaN (cast .double v) <;> rfl

theorem distinct_accumulate : (acc.accumulate agg v).distinct =
    if nullish v then acc.distinct else acc.distinct.set v () := by
  unfold accumulate
  cases nullish v <;> rfl

theorem extremes_accumulate :
    (acc.accumulate agg v).min = (if nullish v then acc.min
      else (acc.addNumber (cast .double v)).min) ∧
    (acc.accumulate agg v).max = if nullish v then acc.max
      else (acc.addNumber (cast .double v)).max := by
  unfold accumulate
  cases nullish v with
  | true => exact ⟨rfl, rfl⟩
  | false =>
    unfold addNumber
    cases isNaN (cast .double v) <;> exact ⟨rfl, rfl⟩

theorem aggAcc_accumulate (acc : AggAcc κ) :
    (acc.accumulate agg v).count = acc.count + 1 ∧
      (acc.accumulate agg v).first = (if acc.first = undefined then v else acc.first) ∧
      (acc.accumulate agg v).last = v ∧
      (acc.accumulate agg v).collect = acc.collect ++ [v] ∧
      (acc.accumulate agg v).customAcc = (match agg with
        | .custom agg => agg.accumulate acc.customAcc v
        | _ => acc.customAcc) := by
  unfold AggAcc.accumulate
  cases nullish v <;> exact ⟨rfl, rfl, rfl, rfl, rfl⟩

theorem aggAcc_numbers (acc : AggAcc κ) :
    (acc.accumulate agg v).sum = (if nullish v then acc.sum
      else if isNaN (cast .double v) then acc.sum else arith .add acc.sum (cast .double v)) ∧
    (acc.accumulate agg v).min = (if nullish v then acc.min else replaces less acc.min v) ∧
    (acc.accumulate agg v).max = (if nullish v then acc.max
      else replaces (fun v m => less m v) acc.max v) ∧
    (acc.accumulate agg v).distinct = if nullish v then acc.distinct
      else if acc.distinct.contains v then acc.distinct else acc.distinct ++ [v] := by
  unfold AggAcc.accumulate
  cases nullish v <;> exact ⟨rfl, rfl, rfl, rfl⟩

end Fields

omit [StreamCells κ] in
theorem keys_set_eq (distinct : JsMap κ Unit) (v : κ) : (distinct.set v ()).keys =
    if distinct.keys.contains v then distinct.keys else distinct.keys ++ [v] := by
  have hmem : distinct.keys.contains v = (distinct.get v).isSome := by
    rw [Bool.eq_iff_iff, List.contains_iff_mem, JsMap.mem_keys_iff]
  rw [hmem]
  cases hget : distinct.get v with
  | some _ => exact JsMap.keys_set_of_get hget ()
  | none => exact JsMap.keys_set_of_none hget ()

omit [DecidableEq κ] [StreamCells κ] in
theorem replaces_eq (better : κ → κ → Bool) {inRange : κ → Bool} {v : κ} (h : inRange v = true)
    (best : Option κ) : (if passesBound better inRange v best then some v else best) =
      replaces better best v := by
  cases best with
  | none => rw [passesBound, h, if_pos rfl, replaces]
  | some m => rfl

theorem SameAggregate.next {agg : BaseAgg κ} {acc : GroupAccumulator κ} {acc' : AggAcc κ}
    (h : SameAggregate agg acc acc') {value : κ} (hvalue : Comparable agg value) :
    SameAggregate agg (acc.accumulate agg value) (acc'.accumulate agg value) := by
  obtain ⟨hcount, hfirst, hvalues, hfreq, hcustom⟩ := accumulate_frame agg value acc
  obtain ⟨hcount', hfirst', hlast', hcollect', hcustom'⟩ := aggAcc_accumulate agg value acc'
  obtain ⟨hsum', hmin', hmax', hdistinct'⟩ := aggAcc_numbers agg value acc'
  obtain ⟨hmin, hmax⟩ := extremes_accumulate agg value acc
  constructor
  case count => rw [hcount, hcount', h.count]
  case sum =>
    rw [sum_accumulate, hsum', addNumber, ← h.sum]
    split
    · rfl
    · split <;> rfl
  case first => rw [hfirst, hfirst', h.first]
  case last => rw [hlast']; rfl
  case distinct =>
    have hset := keys_set_eq acc.distinct value
    rw [h.distinct] at hset
    rw [distinct_accumulate, hdistinct', ← hset]
    split
    · exact h.distinct
    · rfl
  case customAcc => rw [hcustom, hcustom', h.customAcc]
  case min =>
    rintro rfl
    rw [hmin, hmin', h.min rfl]
    split
    · rfl
    · rename_i hnull
      obtain ⟨hnumber, hnan, hbelow⟩ := hvalue (by simpa using hnull)
      rw [hnumber, addNumber, hnan, if_neg Bool.false_ne_true, ← h.min rfl]
      exact replaces_eq less hbelow acc.min
  case max =>
    rintro rfl
    rw [hmax, hmax', h.max rfl]
    split
    · rfl
    · rename_i hnull
      obtain ⟨hnumber, hnan, habove⟩ := hvalue (by simpa using hnull)
      rw [hnumber, addNumber, hnan, if_neg Bool.false_ne_true, ← h.max rfl]
      exact replaces_eq (fun v m => less m v) habove acc.max
  case collect =>
    rintro rfl
    rw [hvalues, hcollect', h.collect rfl]
    rfl
  case numbers =>
    intro hagg
    have hkept : keptValues agg value = if nullish value then []
        else if isNaN (cast .double value) then [] else [cast .double value] := by
      rcases hagg with rfl | rfl | rfl <;> rfl
    rw [hvalues, hkept, hcollect', numbersOf_append, ← h.numbers hagg]
  case mode =>
    rintro rfl
    rw [hfreq, hcollect', frequencies, List.foldl_append, ← frequencies, ← h.mode rfl]
    rfl

end Streaming

end Promin.Data
