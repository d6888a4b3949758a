import Promin.Data.GroupBy
import Promin.ForStd.Grouping
import Promin.ForStd.Text

/-!
# Groups and aggregates

The rows with one key text make a group, in the order of the first of them, and
every accumulator holds what its aggregate is of the values of these rows.
-/

namespace Promin.Data

open List

section GroupBy

variable {κ : Type} [DecidableEq κ] [AggCells κ]

open JsCells WindowCells AggCells

/-! ## Aggregates of lists -/

def presentOf (values : List κ) : List κ := values.filter fun v => !nullish v

def bestOf (better : κ → κ → Bool) : List κ → Option κ
  | [] => none
  | v :: values => some (values.foldl (fun m v => if better v m then v else m) v)

def aggregate (agg : BaseAgg κ) (values : List κ) : κ :=
  match agg with
  | .custom agg => agg.finalize (values.foldl agg.accumulate agg.init)
  | .count => ofNat values.length
  | .sum => sumOf (numbersOf values)
  | .avg =>
    if values = [] then null else arith .div (sumOf (numbersOf values)) (ofNat values.length)
  | .min => (bestOf less (presentOf values)).getD undefined
  | .max => (bestOf (fun v m => less m v) (presentOf values)).getD undefined
  | .first => (values.find? fun v => decide (v ≠ undefined)).getD undefined
  | .last => values.getLast?.getD undefined
  | .collect => ofItems values
  | .median => medianOf (numbersOf values)
  | .stddev => stddevOf (numbersOf values)
  | .variance => varianceOf (numbersOf values)
  | .mode => modeOf values
  | .countDistinct => ofNat (presentOf values).eraseDups.length

def passes (filter : Option (Row κ → κ)) (row : Row κ) : Bool :=
  match filter with
  | some keep => JsCells.truthy (keep row)
  | none => true

/-- The values that an aggregate is of: the cells of its column, or what its expression gives for
the rows that pass its filter. -/
def valuesIn (name : String) (fn : AggFn κ) (rows : List (Row κ)) : List κ :=
  match fn with
  | .column _ => rows.map fun row => cell row name
  | .expr expr _ filter => (rows.filter (passes filter)).map expr

/-! ## Accumulators -/

/-- What an accumulator holds after these values. -/
structure Accumulated (agg : BaseAgg κ) (values : List κ) (acc : AggAcc κ) : Prop where
  count : acc.count = values.length
  sum : acc.sum = sumOf (numbersOf values)
  min : acc.min = bestOf less (presentOf values)
  max : acc.max = bestOf (fun v m => less m v) (presentOf values)
  first : acc.first = (values.find? fun v => decide (v ≠ undefined)).getD undefined
  last : acc.last = values.getLast?.getD undefined
  collect : acc.collect = values
  distinct : acc.distinct = (presentOf values).eraseDups
  customAcc : ∀ custom, agg = .custom custom →
    acc.customAcc = values.foldl custom.accumulate custom.init

theorem accumulated_start (agg : BaseAgg κ) : Accumulated agg [] (AggAcc.start agg) where
  count := rfl
  sum := rfl
  min := rfl
  max := rfl
  first := rfl
  last := rfl
  collect := rfl
  distinct := rfl
  customAcc := fun _ h => by rw [h]; rfl

omit [DecidableEq κ] [AggCells κ] in
theorem bestOf_append (better : κ → κ → Bool) (values : List κ) (v : κ) :
    bestOf better (values ++ [v]) = replaces better (bestOf better values) v := by
  cases values with
  | nil => rfl
  | cons w values =>
    show some ((values ++ [v]).foldl _ w) = replaces better (some (values.foldl _ w)) v
    rw [foldl_append]
    unfold replaces
    dsimp only [foldl_cons, foldl_nil]
    split <;> rfl

omit [AggCells κ] in
theorem eraseDups_append_singleton (values : List κ) (v : κ) :
    (values ++ [v]).eraseDups =
      if values.eraseDups.contains v then values.eraseDups else values.eraseDups ++ [v] := by
  rw [eraseDups_append]
  have hmem : values.eraseDups.contains v = decide (v ∈ values) := by
    rw [Bool.eq_iff_iff, contains_iff_mem, mem_eraseDups, decide_eq_true_eq]
  rw [hmem]
  by_cases hv : v ∈ values
  · simp [List.removeAll, hv]
  · simp [List.removeAll, hv, eraseDups_cons]

theorem first_append (values : List κ) (v : κ) :
    ((values ++ [v]).find? fun v => decide (v ≠ undefined)).getD undefined =
      if (values.find? fun v => decide (v ≠ undefined)).getD undefined = undefined then v
      else (values.find? fun v => decide (v ≠ undefined)).getD undefined := by
  rw [find?_append]
  cases hfound : values.find? fun v => decide (v ≠ undefined) with
  | some w =>
    have hw : w ≠ undefined := of_decide_eq_true (find?_some (p := fun v =>
      decide (v ≠ undefined)) hfound)
    rw [Option.getD_some, if_neg hw]
    rfl
  | none =>
    rw [Option.getD_none, if_pos rfl]
    by_cases hv : v = undefined
    · simp [hv]
    · simp [hv]

theorem Accumulated.next {agg : BaseAgg κ} {values : List κ} {acc : AggAcc κ}
    (h : Accumulated agg values acc) (v : κ) :
    Accumulated agg (values ++ [v]) (acc.accumulate agg v) := by
  have hpresent : presentOf (values ++ [v]) =
      presentOf values ++ if nullish v then [] else [v] := by
    unfold presentOf
    rw [filter_append]
    cases hv : nullish v <;> simp [hv]
  have hnumbers : numbersOf (values ++ [v]) = numbersOf values ++
      if nullish v || isNaN (cast .double v) then [] else [cast .double v] := by
    unfold numbersOf
    rw [← presentOf, hpresent]
    cases hv : nullish v with
    | true => simp [presentOf]
    | false => cases hnan : isNaN (cast .double v) <;> simp [presentOf, hnan]
  constructor
  · show (AggAcc.accumulate agg acc v).count = _
    rw [length_append, ← h.count]
    unfold AggAcc.accumulate
    dsimp only
    split <;> rfl
  · rw [hnumbers, sumOf, foldl_append, ← sumOf, ← h.sum]
    unfold AggAcc.accumulate
    cases hv : nullish v with
    | true => rfl
    | false =>
      show (if isNaN (cast .double v) then acc.sum else arith .add acc.sum (cast .double v)) = _
      cases isNaN (cast .double v) <;> rfl
  · rw [hpresent]
    unfold AggAcc.accumulate
    cases hv : nullish v with
    | true => rw [if_pos rfl, append_nil, ← h.min]; rfl
    | false => rw [if_neg Bool.false_ne_true, bestOf_append, ← h.min]; rfl
  · rw [hpresent]
    unfold AggAcc.accumulate
    cases hv : nullish v with
    | true => rw [if_pos rfl, append_nil, ← h.max]; rfl
    | false => rw [if_neg Bool.false_ne_true, bestOf_append, ← h.max]; rfl
  · rw [first_append, ← h.first]
    unfold AggAcc.accumulate
    cases hv : nullish v <;> rfl
  · rw [getLast?_append]
    unfold AggAcc.accumulate
    cases hv : nullish v <;> rfl
  · show _ = values ++ [v]
    rw [← h.collect]
    unfold AggAcc.accumulate
    cases hv : nullish v <;> rfl
  · rw [hpresent]
    unfold AggAcc.accumulate
    cases hv : nullish v with
    | true => rw [if_pos rfl, append_nil, ← h.distinct]; rfl
    | false => rw [if_neg Bool.false_ne_true, eraseDups_append_singleton, ← h.distinct]; rfl
  · rintro custom rfl
    rw [foldl_append, ← h.customAcc custom rfl]
    unfold AggAcc.accumulate
    cases hv : nullish v <;> rfl

theorem accumulated_foldl (agg : BaseAgg κ) (values : List κ) :
    Accumulated agg values (values.foldl (AggAcc.accumulate agg) (AggAcc.start agg)) := by
  induction values using List.reverseRecOn with
  | nil => exact accumulated_start agg
  | append_singleton values v ih =>
    rw [foldl_append]
    exact ih.next v

theorem Accumulated.result_eq {agg : BaseAgg κ} {values : List κ} {acc : AggAcc κ}
    (h : Accumulated agg values acc) : acc.result agg = aggregate agg values := by
  cases agg with
  | custom custom => exact congrArg custom.finalize (h.customAcc custom rfl)
  | avg =>
    show (if acc.count > 0 then _ else _) = if values = [] then _ else _
    rw [h.count, h.sum]
    cases values with
    | nil => rfl
    | cons v values =>
      have hne := cons_ne_nil v values
      rw [if_pos (length_pos_of_ne_nil hne), if_neg hne]
  | sum => exact h.sum
  | count => exact congrArg ofNat h.count
  | min => exact congrArg (Option.getD · undefined) h.min
  | max => exact congrArg (Option.getD · undefined) h.max
  | first => exact h.first
  | last => exact h.last
  | collect => exact congrArg ofItems h.collect
  | median => exact congrArg (fun values => medianOf (numbersOf values)) h.collect
  | stddev => exact congrArg (fun values => stddevOf (numbersOf values)) h.collect
  | variance => exact congrArg (fun values => varianceOf (numbersOf values)) h.collect
  | mode => exact congrArg modeOf h.collect
  | countDistinct =>
    exact congrArg (fun distinct : List κ => (ofNat distinct.length : κ)) h.distinct

theorem foldl_addRow (name : String) (fn : AggFn κ) (rows : List (Row κ)) (acc : AggAcc κ) :
    rows.foldl (AggAcc.addRow name fn) acc =
      (valuesIn name fn rows).foldl (AggAcc.accumulate fn.agg) acc := by
  induction rows generalizing acc with
  | nil => cases fn <;> rfl
  | cons row rows ih =>
    rw [foldl_cons, ih]
    cases fn with
    | column agg => rfl
    | expr expr agg filter =>
      show ((rows.filter (passes filter)).map expr).foldl _ _ =
        (((row :: rows).filter (passes filter)).map expr).foldl _ acc
      rw [filter_cons]
      cases filter with
      | none => rfl
      | some keep =>
        show List.foldl _
            (if JsCells.truthy (keep row) then acc.accumulate agg (expr row) else acc) _ =
          List.foldl _ acc (List.map expr (if JsCells.truthy (keep row) then _ else _))
        split <;> rfl

theorem result_foldl (name : String) (fn : AggFn κ) (rows : List (Row κ)) :
    (rows.foldl (AggAcc.addRow name fn) (AggAcc.start fn.agg)).result fn.agg =
      aggregate fn.agg (valuesIn name fn rows) := by
  rw [foldl_addRow]
  exact (accumulated_foldl fn.agg _).result_eq

/-! ## Groups of rows -/

def groupRow (columns : List String) (aggs : List (String × AggFn κ)) :
    List (Row κ) → Row κ
  | [] => JsMap.empty
  | first :: rest => aggs.foldl (fun agged agg =>
      agged.set agg.1 (aggregate agg.2.agg (valuesIn agg.1 agg.2 (first :: rest))))
      (spread (selectRow columns first))

/-- What a `GROUP BY` means: rows belong together if their key cells are equal, one by one. -/
def groupBy (columns : List String) (aggs : List (String × AggFn κ)) (rows : List (Row κ)) :
    List (Row κ) :=
  (Grouping.groups (keyCells columns) rows).map (groupRow columns aggs)

theorem foldl_group (aggs : List (String × AggFn κ)) (rows : List (Row κ)) (group : Group κ)
    (f : String × AggFn κ → AggAcc κ) (hgroup : group.accs = aggs.map f) :
    (rows.foldl (Group.addRow aggs) group).keyValues = group.keyValues ∧
    (rows.foldl (Group.addRow aggs) group).accs =
      aggs.map fun agg => rows.foldl (AggAcc.addRow agg.1 agg.2) (f agg) := by
  induction rows generalizing group f with
  | nil => exact ⟨rfl, hgroup⟩
  | cons row rows ih =>
    have hstep : (group.addRow aggs row).accs =
        aggs.map fun agg => (f agg).addRow agg.1 agg.2 row := by
      show List.zipWith _ aggs group.accs = _
      rw [hgroup, zipWith_map_right, zipWith_self]
    exact ih (group.addRow aggs row) _ hstep

variable (columns : List String)

theorem result_group (aggs : List (String × AggFn κ)) (first : Row κ) (rest : List (Row κ)) :
    ((first :: rest).foldl (Group.addRow aggs) (Group.start columns aggs first)).result aggs =
      groupRow columns aggs (first :: rest) := by
  obtain ⟨hkeys, haccs⟩ := foldl_group aggs (first :: rest) (Group.start columns aggs first)
    (fun agg => AggAcc.start agg.2.agg) rfl
  unfold Group.result
  rw [hkeys, haccs, zip_eq_zipWith, zipWith_map_right, zipWith_self, foldl_map]
  simp only [result_foldl]
  rfl

theorem executeGroupBy_eq (aggs : List (String × AggFn κ))
    (rows : List (Row κ)) : executeGroupBy columns aggs rows =
      (Grouping.groups (fun row => keyOf (keyCells columns row)) rows).map
        (groupRow columns aggs) := by
  have hvalues := Grouping.entries_accumulate (fun row => keyOf (keyCells columns row))
    (Group.start columns aggs) (Group.addRow aggs) rows
  have hresults := congrArg (List.map (Option.map (Group.result aggs))) hvalues
  rw [map_map, map_map] at hresults
  apply map_injective_iff.mpr (Option.some_injective _)
  rw [executeGroupBy, map_map, map_map]
  refine hresults.trans (map_congr_left fun group hgroup => ?_)
  cases group with
  | nil => exact absurd rfl (Grouping.ne_nil_of_mem_groups hgroup)
  | cons first rest => exact congrArg some (result_group columns aggs first rest)

/-! ## Key texts -/

/-- The text of a key cell in the group's key. -/
def keyText (columns : List String) (v : κ) : String :=
  if columns.length = 1 then text v else if nullish v then "" else text v

omit [DecidableEq κ] in
theorem keyOf_keyCells (row : Row κ) :
    keyOf (keyCells columns row) =
      "\x00".intercalate (columns.map fun c => keyText columns (cell row c)) := by
  unfold keyCells keyText
  match columns with
  | [] => rfl
  | [c] => rfl
  | c :: c' :: columns =>
    have hlength : (c :: c' :: columns).length ≠ 1 := fun h => nomatch Nat.succ.inj h
    simp only [if_neg hlength]
    show "\x00".intercalate (((c :: c' :: columns).map fun c => cell row c).map
      fun v => if nullish v then "" else text v) = _
    rw [map_map]
    rfl

omit [DecidableEq κ] in
theorem keyOf_inj {columns : List String} {rows : List (Row κ)}
    (htexts : ∀ c ∈ columns, ∀ a ∈ rows, ∀ b ∈ rows,
      keyText columns (cell a c) = keyText columns (cell b c) → cell a c = cell b c)
    (hseparator : columns.length ≠ 1 → ∀ c ∈ columns, ∀ a ∈ rows,
      '\x00' ∉ (text (cell a c)).toList) :
    ∀ a ∈ rows, ∀ b ∈ rows, keyOf (keyCells columns a) = keyOf (keyCells columns b) →
      keyCells columns a = keyCells columns b := by
  intro a ha b hb h
  have htuple : (columns.map fun c => keyText columns (cell a c)) =
      columns.map fun c => keyText columns (cell b c) := by
    rw [keyOf_keyCells, keyOf_keyCells] at h
    by_cases hone : columns.length = 1
    · obtain ⟨c, rfl⟩ := length_eq_one_iff.mp hone
      simpa using h
    · have hfree : ∀ row ∈ rows, ∀ x ∈ columns.map (fun c => keyText columns (cell row c)),
          '\x00' ∉ x.toList := by
        intro row hrow x hx
        obtain ⟨c, hc, rfl⟩ := mem_map.mp hx
        unfold keyText
        rw [if_neg hone]
        split
        · exact not_mem_nil
        · exact hseparator hone c hc row hrow
      exact String.intercalate_inj (c := '\x00') rfl (by simp) (hfree a ha) (hfree b hb) h
  exact map_congr_left fun c hc => htexts c hc a ha b hb (map_inj_left.mp htuple c hc)

/-! ## When the groups are right -/

theorem executeGroupBy_eq_groupBy (aggs : List (String × AggFn κ))
    (rows : List (Row κ)) : executeGroupBy columns aggs rows = groupBy columns aggs rows ↔
      ∀ a ∈ rows, ∀ b ∈ rows, keyOf (keyCells columns a) = keyOf (keyCells columns b) →
        keyCells columns a = keyCells columns b := by
  rw [executeGroupBy_eq, groupBy]
  constructor
  · intro h
    have hlength := congrArg List.length h
    rw [length_map, length_map] at hlength
    exact (Grouping.length_groups_comp (keyCells columns) keyOf rows).mp hlength
  · intro h
    rw [Grouping.groups_congr fun a ha b hb => ⟨h a ha b hb, congrArg keyOf⟩]

/-- The node groups by equal keys if and only if their texts tell the keys of the rows apart; so
it does if in each column the texts tell the cells apart, and with several columns none contains
the separator. -/
theorem groupBy_iff (columns : List String) (aggs : List (String × AggFn κ))
    (rows : List (Row κ)) :
    (executeGroupBy columns aggs rows = groupBy columns aggs rows ↔
      ∀ a ∈ rows, ∀ b ∈ rows, keyOf (keyCells columns a) = keyOf (keyCells columns b) →
        keyCells columns a = keyCells columns b) ∧
    ((∀ c ∈ columns, ∀ a ∈ rows, ∀ b ∈ rows,
        keyText columns (cell a c) = keyText columns (cell b c) → cell a c = cell b c) →
      (columns.length ≠ 1 → ∀ c ∈ columns, ∀ a ∈ rows, '\x00' ∉ (text (cell a c)).toList) →
      executeGroupBy columns aggs rows = groupBy columns aggs rows) :=
  ⟨executeGroupBy_eq_groupBy columns aggs rows, fun htexts hseparator =>
    (executeGroupBy_eq_groupBy columns aggs rows).mpr (keyOf_inj htexts hseparator)⟩

end GroupBy

/-- A number and its numeral are one group. -/
theorem groupBy_numeral :
    ¬ ∀ (columns : List String) (aggs : List (String × AggFn JsValue)) (rows : List (Row JsValue)),
      executeGroupBy columns aggs rows = groupBy columns aggs rows := by
  intro h
  have hkeys := (executeGroupBy_eq_groupBy ["k"] [] [⟨[("k", .num 1)], by decide⟩,
    ⟨[("k", .str "1")], by decide⟩]).mp (h _ _ _) _ mem_cons_self _
    (mem_cons_of_mem _ mem_cons_self)
  revert hkeys
  decide

end Promin.Data
