import Mathlib.Data.Finset.Card
import Promin.Data.DataDiff
import Promin.ForStd.NestedLoop

/-!
# Rows accounted for

Rows are matched through maps, so of the rows with one key the last is compared
and the others are in none of the counts.
-/

namespace Promin.Data

open JsMap
open List hiding all_eq_true filter
open Option hiding all all_eq_true

section DataDiff

variable {κ : Type} [DiffCells κ]

/-! ## Equal rows -/

theorem valuesEqual_comm (tolerance : ℚ) (a b : κ) :
    valuesEqual tolerance a b = valuesEqual tolerance b a := by
  unfold valuesEqual
  rw [DiffCells.strictEq_comm, Bool.and_comm (JsCells.nullish a), Bool.or_comm (JsCells.nullish a),
    Bool.and_comm (JsCells.isNumber a), DiffCells.within_comm, BEq.comm]

theorem valuesEqual_undefined (tolerance : ℚ) :
    valuesEqual tolerance (JsCells.undefined : κ) JsCells.undefined = true := by
  simp [valuesEqual, DiffCells.nullish_undefined]

/-- The rows agree on these columns. -/
def equalIn (tolerance : ℚ) (columns : List String) (b a : Row κ) : Bool :=
  columns.all fun col => valuesEqual tolerance (cell b col) (cell a col)

/-- The columns of both rows. -/
def columnsOfEither (b a : Row κ) : List String := b.keys ++ a.keys

theorem equalIn_comm (tolerance : ℚ) (columns : List String) (b a : Row κ) :
    equalIn tolerance columns b a = equalIn tolerance columns a b := by
  unfold equalIn
  congr 1
  funext col
  exact valuesEqual_comm tolerance _ _

variable {a b : Row κ} {tolerance : ℚ}

theorem equalIn_of_subset {columns columns' : List String}
    (hsub : columns' ⊆ columns) (h : equalIn tolerance columns b a = true) :
    equalIn tolerance columns' b a = true := by
  unfold equalIn at *
  rw [List.all_eq_true] at *
  exact fun col hcol => h col (hsub hcol)

/-- All columns of two matched rows are compared equal. -/
def sameRow (tolerance : ℚ) (p : Row κ × Row κ) : Bool :=
  equalIn tolerance (columnsOfEither p.1 p.2) p.1 p.2

theorem equalIn_of_sameRow (h : sameRow tolerance (b, a) = true)
    (columns : List String) : equalIn tolerance columns b a = true := by
  have hsame : equalIn tolerance (b.keys ++ a.keys) b a = true := h
  unfold equalIn at hsame ⊢
  rw [List.all_eq_true] at hsame ⊢
  intro col _
  by_cases hcol : col ∈ b.keys ++ a.keys
  · exact hsame col hcol
  · rw [mem_append, mem_keys_iff, mem_keys_iff, not_or, Bool.not_eq_true,
      Bool.not_eq_true, isSome_eq_false_iff, isSome_eq_false_iff,
      isNone_iff_eq_none, isNone_iff_eq_none] at hcol
    rw [cell, cell, hcol.1, hcol.2]
    exact valuesEqual_undefined tolerance

theorem equalIn_allColumns (key : String) (sample : Nat) (beforeRows afterRows : List (Row κ)) :
    equalIn tolerance (allColumns ⟨key, none, tolerance, sample⟩ beforeRows afterRows) b a =
      equalIn tolerance
        ((columnsOfFirst beforeRows ++ columnsOfFirst afterRows).filter (· ≠ key)) b a := by
  rw [Bool.eq_iff_iff]
  unfold equalIn allColumns
  simp only [getD_none, List.all_eq_true, mem_filter, mem_eraseDups, bne_iff_ne, decide_eq_true_eq]

variable (options : DiffOptions)

theorem compareRows_counts (columns : List String) (k : κ) (b a : Row κ) (counts : DiffCounts κ) :
    (compareRows options columns k b a counts).unchangedCount =
      counts.unchangedCount + (if equalIn options.tolerance columns b a then 1 else 0) ∧
    (compareRows options columns k b a counts).modifiedCount =
      counts.modifiedCount + if equalIn options.tolerance columns b a then 0 else 1 := by
  have hflag : ∀ (cols : List String) (flag : Bool) (mods : List (Modification κ)),
      (cols.foldl (fun (p : Bool × List (Modification κ)) col =>
        if valuesEqual options.tolerance (cell b col) (cell a col) then p
        else (true, if p.2.length < options.sampleModifications
          then p.2 ++ [⟨k, col, cell b col, cell a col⟩] else p.2)) (flag, mods)).1 =
        (flag || !equalIn options.tolerance cols b a) := by
    intro cols
    induction cols with
    | nil => simp [equalIn]
    | cons col cols ih =>
      intro flag mods
      rw [foldl_cons]
      unfold equalIn at ih ⊢
      rw [all_cons]
      cases valuesEqual options.tolerance (cell b col) (cell a col) with
      | true => exact ih flag mods
      | false =>
        have := ih true (if mods.length < options.sampleModifications
          then mods ++ [⟨k, col, cell b col, cell a col⟩] else mods)
        simpa using this
  have hmodified := hflag columns false counts.modifications
  rw [Bool.false_or] at hmodified
  unfold compareRows
  dsimp only
  rw [hmodified]
  cases equalIn options.tolerance columns b a <;> exact ⟨rfl, rfl⟩

theorem allColumns_comm (hcolumns : options.columns = none)
    (beforeRows afterRows : List (Row κ)) (b a : Row κ) :
    equalIn options.tolerance (allColumns options afterRows beforeRows) b a =
      equalIn options.tolerance (allColumns options beforeRows afterRows) b a := by
  have hsub : ∀ rows rows' : List (Row κ),
      allColumns options rows rows' ⊆ allColumns options rows' rows := by
    intro rows rows' col hcol
    rw [allColumns, hcolumns, getD_none, mem_filter, mem_eraseDups] at hcol ⊢
    exact ⟨mem_append.mpr (mem_append.mp hcol.1).symm, hcol.2⟩
  rw [Bool.eq_iff_iff]
  exact ⟨equalIn_of_subset (hsub _ _), equalIn_of_subset (hsub _ _)⟩

variable [DecidableEq κ]

def matchedPairs (beforeMap afterMap : JsMap κ (Row κ)) : List (Row κ × Row κ) :=
  beforeMap.entries.filterMap fun e => (afterMap.get e.1).map fun afterRow => (e.2, afterRow)

theorem compareAll_counts (columns : List String)
    (afterMap : JsMap κ (Row κ)) (entries : List (κ × Row κ)) (counts : DiffCounts κ) :
    let pairs := entries.filterMap fun e => (afterMap.get e.1).map fun afterRow => (e.2, afterRow)
    (compareAll options columns afterMap entries counts).unchangedCount = counts.unchangedCount +
      pairs.countP (fun p => equalIn options.tolerance columns p.1 p.2) ∧
    (compareAll options columns afterMap entries counts).modifiedCount = counts.modifiedCount +
      pairs.countP fun p => !equalIn options.tolerance columns p.1 p.2 := by
  unfold compareAll
  induction entries generalizing counts with
  | nil => exact ⟨rfl, rfl⟩
  | cons e entries ih =>
    rw [foldl_cons]
    cases hafter : afterMap.get e.1 with
    | none =>
      rw [filterMap_cons_none (by rw [hafter]; rfl)]
      exact ih counts
    | some afterRow =>
      rw [filterMap_cons_some (by rw [hafter]; rfl)]
      obtain ⟨hunchanged, hmodified⟩ := compareRows_counts options columns e.1 e.2 afterRow counts
      obtain ⟨ihunchanged, ihmodified⟩ := ih (compareRows options columns e.1 e.2 afterRow counts)
      dsimp only at ihunchanged ihmodified ⊢
      rw [ihunchanged, ihmodified, hunchanged, hmodified, countP_cons, countP_cons]
      cases equalIn options.tolerance columns e.2 afterRow <;> simp <;> omega

/-! ## Matched rows -/

theorem mem_keys_indexByKey (key : String) (rows : List (Row κ)) (k : κ) :
    k ∈ (indexByKey key rows).keys ↔ k ∈ rows.map fun row => cell row key := by
  have hfold : ∀ map : JsMap κ (Row κ),
      k ∈ (rows.foldl (fun map row => map.set (cell row key) row) map).keys ↔
        (k ∈ rows.map fun row => cell row key) ∨ k ∈ map.keys := by
    induction rows with
    | nil => simp
    | cons row rows ih =>
      intro map
      rw [foldl_cons, ih, map_cons, mem_cons, mem_keys_iff,
        mem_keys_iff, get_set]
      by_cases hk : cell row key = k
      · simp [hk]
      · simp [hk, Ne.symm hk]
  rw [indexByKey, hfold]
  simp [JsMap.keys, JsMap.empty]

theorem size_indexByKey (key : String) (rows : List (Row κ)) :
    (indexByKey key rows).size = rows.length ↔ (rows.map fun row => cell row key).Nodup := by
  have hkeys : (indexByKey key rows).keys.toFinset =
      (rows.map fun row => cell row key).toFinset := by
    ext k
    rw [List.mem_toFinset, List.mem_toFinset, mem_keys_indexByKey]
  have hsize : (indexByKey key rows).size = (rows.map fun row => cell row key).toFinset.card := by
    have hnodup : (indexByKey key rows).keys.Nodup := (indexByKey key rows).nodup
    rw [← hkeys, toFinset_card_of_nodup hnodup, length_keys]
  rw [hsize, ← Multiset.coe_nodup, ← Multiset.toFinset_card_eq_card_iff_nodup]
  show _ ↔ (rows.map fun row => cell row key).toFinset.card =
    (rows.map fun row => cell row key).length
  rw [length_map]

theorem get_indexByKey {key : String} {rows : List (Row κ)}
    (hnodup : (rows.map fun row => cell row key).Nodup) {k : κ} {row : Row κ} :
    (indexByKey key rows).get k = some row ↔ row ∈ rows ∧ cell row key = k := by
  have hinj : ∀ a ∈ rows, ∀ b ∈ rows, cell a key = cell b key → a = b :=
    fun a ha b hb hab => inj_on_of_nodup_map hnodup ha hb hab
  rw [indexByKey, get_foldl_set_eq_some_iff _ _ _ hinj]
  simp

omit [DiffCells κ] in
theorem mem_matchedPairs {beforeMap afterMap : JsMap κ (Row κ)} :
    (b, a) ∈ matchedPairs beforeMap afterMap ↔
      ∃ k, beforeMap.get k = some b ∧ afterMap.get k = some a := by
  unfold matchedPairs
  rw [mem_filterMap]
  constructor
  · rintro ⟨⟨k, b'⟩, hentry, hpair⟩
    obtain ⟨a', ha', heq⟩ := map_eq_some_iff.mp hpair
    obtain ⟨rfl, rfl⟩ := Prod.mk.inj heq
    exact ⟨k, (mem_entries_iff beforeMap k b').mp hentry, ha'⟩
  · rintro ⟨k, hb, ha⟩
    exact ⟨(k, b), (mem_entries_iff beforeMap k b).mpr hb, by rw [ha]; rfl⟩

omit [DiffCells κ] in
theorem length_rowsWithout_add (map other : JsMap κ (Row κ)) :
    (rowsWithout map other).length + (matchedPairs map other).length = map.size := by
  unfold rowsWithout matchedPairs JsMap.size
  rw [length_map]
  induction map.entries with
  | nil => rfl
  | cons e entries ih =>
    rw [length_cons, filter_cons]
    cases hother : other.get e.1 with
    | none =>
      rw [filterMap_cons_none (by rw [hother]; rfl)]
      simp only [JsMap.has, hother, isSome_none, Bool.not_false, if_true, length_cons]
        at ih ⊢
      omega
    | some row =>
      rw [filterMap_cons_some (by rw [hother]; rfl)]
      simp only [JsMap.has, hother, isSome_some, Bool.not_true, Bool.false_eq_true, if_false,
        length_cons] at ih ⊢
      omega

omit [DiffCells κ] in
theorem countP_matchedPairs (map other : JsMap κ (Row κ)) (p : Row κ × Row κ → Bool) :
    (matchedPairs map other).countP p = (map.keys.filter fun k =>
      ((map.get k).bind fun b => (other.get k).map fun a => p (b, a)).getD false).length := by
  have hentries : ∀ entries : List (κ × Row κ), (∀ e ∈ entries, map.get e.1 = some e.2) →
      (entries.filterMap fun e => (other.get e.1).map fun a => (e.2, a)).countP p =
        ((entries.map Prod.fst).filter fun k =>
          ((map.get k).bind fun b => (other.get k).map fun a => p (b, a)).getD false).length := by
    intro entries
    induction entries with
    | nil => exact fun _ => rfl
    | cons e entries ih =>
      intro hget
      have hrest := ih fun e' he' => hget e' (mem_cons_of_mem _ he')
      rw [map_cons, filter_cons, hget e mem_cons_self, bind_some]
      cases hother : other.get e.1 with
      | none =>
        rw [filterMap_cons_none (by rw [hother]; rfl), hrest]
        rfl
      | some row =>
        rw [filterMap_cons_some (by rw [hother]; rfl), countP_cons, hrest]
        cases hp : p (e.2, row) <;> simp [hp]
  exact hentries map.entries fun e he => (mem_entries_iff map e.1 e.2).mp he

omit [DiffCells κ] in
theorem countP_matchedPairs_swap (beforeMap afterMap : JsMap κ (Row κ)) (p : Row κ × Row κ → Bool) :
    (matchedPairs beforeMap afterMap).countP p =
      (matchedPairs afterMap beforeMap).countP fun q => p (q.2, q.1) := by
  rw [countP_matchedPairs, countP_matchedPairs]
  apply List.Perm.length_eq
  have hbefore : beforeMap.keys.Nodup := beforeMap.nodup
  have hafter : afterMap.keys.Nodup := afterMap.nodup
  rw [perm_ext_iff_of_nodup (hbefore.filter _) (hafter.filter _)]
  intro k
  simp only [mem_filter, mem_keys_iff]
  cases beforeMap.get k <;> cases afterMap.get k <;> simp

/-! ## All rows -/

/-- Every row is in one of the counts, a matched pair is unchanged if and only if all columns of
either row are equal, and exchanging the sides exchanges what was added and removed. -/
structure Accounts (options : DiffOptions) (beforeRows afterRows : List (Row κ)) : Prop where
  after_rows : (dataDiff beforeRows afterRows options).summary.added +
    (dataDiff beforeRows afterRows options).summary.modified +
    (dataDiff beforeRows afterRows options).summary.unchanged = afterRows.length
  before_rows : (dataDiff beforeRows afterRows options).summary.removed +
    (dataDiff beforeRows afterRows options).summary.modified +
    (dataDiff beforeRows afterRows options).summary.unchanged = beforeRows.length
  unchanged : (dataDiff beforeRows afterRows options).summary.unchanged =
    (matchedPairs (indexByKey options.key beforeRows) (indexByKey options.key afterRows)).countP
      (sameRow options.tolerance)
  modified : (dataDiff beforeRows afterRows options).summary.modified =
    (matchedPairs (indexByKey options.key beforeRows) (indexByKey options.key afterRows)).countP
      fun p => !sameRow options.tolerance p
  swapped : (dataDiff afterRows beforeRows options).addedRows =
      (dataDiff beforeRows afterRows options).removedRows ∧
    (dataDiff afterRows beforeRows options).removedRows =
      (dataDiff beforeRows afterRows options).addedRows ∧
    (dataDiff afterRows beforeRows options).summary =
      { (dataDiff beforeRows afterRows options).summary with
        added := (dataDiff beforeRows afterRows options).summary.removed
        removed := (dataDiff beforeRows afterRows options).summary.added
        total := (dataDiff afterRows beforeRows options).summary.total }

variable (beforeRows afterRows : List (Row κ))

theorem dataDiff_counts :
    (dataDiff beforeRows afterRows options).summary.unchanged =
      (matchedPairs (indexByKey options.key beforeRows) (indexByKey options.key afterRows)).countP
        (fun p => equalIn options.tolerance (allColumns options beforeRows afterRows) p.1 p.2) ∧
    (dataDiff beforeRows afterRows options).summary.modified =
      (matchedPairs (indexByKey options.key beforeRows) (indexByKey options.key afterRows)).countP
        fun p => !equalIn options.tolerance (allColumns options beforeRows afterRows) p.1 p.2 := by
  have h := compareAll_counts options (allColumns options beforeRows afterRows)
    (indexByKey options.key afterRows) (indexByKey options.key beforeRows).entries {}
  dsimp only at h
  rw [Nat.zero_add, Nat.zero_add] at h
  exact h

/-- Exchanging the two sides. -/
theorem dataDiff_swap (hcolumns : options.columns = none) (beforeRows afterRows : List (Row κ)) :
    (dataDiff afterRows beforeRows options).summary.unchanged =
      (dataDiff beforeRows afterRows options).summary.unchanged ∧
    (dataDiff afterRows beforeRows options).summary.modified =
      (dataDiff beforeRows afterRows options).summary.modified := by
  obtain ⟨hunchanged, hmodified⟩ := dataDiff_counts options beforeRows afterRows
  obtain ⟨hunchanged', hmodified'⟩ := dataDiff_counts options afterRows beforeRows
  rw [hunchanged, hmodified, hunchanged', hmodified',
    countP_matchedPairs_swap (indexByKey options.key beforeRows),
    countP_matchedPairs_swap (indexByKey options.key beforeRows)]
  have hequal : ∀ b a : Row κ,
      equalIn options.tolerance (allColumns options afterRows beforeRows) b a =
        equalIn options.tolerance (allColumns options beforeRows afterRows) a b := by
    intro b a
    rw [allColumns_comm options hcolumns, equalIn_comm]
  simp only [hequal, and_self]

theorem dataDiff_entries :
    (dataDiff beforeRows afterRows options).summary.added +
      (dataDiff beforeRows afterRows options).summary.modified +
      (dataDiff beforeRows afterRows options).summary.unchanged =
        (indexByKey options.key afterRows).size ∧
    (dataDiff beforeRows afterRows options).summary.removed +
      (dataDiff beforeRows afterRows options).summary.modified +
      (dataDiff beforeRows afterRows options).summary.unchanged =
        (indexByKey options.key beforeRows).size := by
  obtain ⟨hunchanged, hmodified⟩ := dataDiff_counts options beforeRows afterRows
  have hall : (matchedPairs (indexByKey options.key beforeRows)
      (indexByKey options.key afterRows)).length = _ :=
    length_eq_countP_add_countP fun p : Row κ × Row κ =>
      equalIn options.tolerance (allColumns options beforeRows afterRows) p.1 p.2
  have hswap := countP_matchedPairs_swap (indexByKey options.key beforeRows)
    (indexByKey options.key afterRows) fun _ => true
  simp only [countP_true] at hswap
  have hadded := length_rowsWithout_add (indexByKey options.key afterRows)
    (indexByKey options.key beforeRows)
  have hremoved := length_rowsWithout_add (indexByKey options.key beforeRows)
    (indexByKey options.key afterRows)
  simp only [Bool.not_eq_true, Bool.decide_eq_false] at hall
  rw [hunchanged, hmodified]
  show (rowsWithout _ _).length + _ + _ = _ ∧ (rowsWithout _ _).length + _ + _ = _
  omega

/-- The rows are accounted for if and only if no key repeats on either side and no two rows with
one key differ only in columns that neither first row has. -/
theorem dataDiff_accounts_iff (key : String) (tolerance : ℚ) (sample : Nat)
    (beforeRows afterRows : List (Row κ)) :
    Accounts ⟨key, none, tolerance, sample⟩ beforeRows afterRows ↔
      (beforeRows.map fun row => cell row key).Nodup ∧
      (afterRows.map fun row => cell row key).Nodup ∧
      ∀ b ∈ beforeRows, ∀ a ∈ afterRows, cell b key = cell a key →
        equalIn tolerance
          ((columnsOfFirst beforeRows ++ columnsOfFirst afterRows).filter (· ≠ key)) b a = true →
        equalIn tolerance (columnsOfEither b a) b a = true := by
  obtain ⟨hafter, hbefore⟩ :=
    dataDiff_entries ⟨key, none, tolerance, sample⟩ beforeRows afterRows
  obtain ⟨hunchanged, hmodified⟩ :=
    dataDiff_counts ⟨key, none, tolerance, sample⟩ beforeRows afterRows
  have hsame := NestedLoop.countP_eq_countP_iff
    fun (p : Row κ × Row κ) (_ : p ∈ matchedPairs (indexByKey key beforeRows)
      (indexByKey key afterRows)) (hp : sameRow tolerance p = true) =>
      equalIn_of_sameRow hp (allColumns ⟨key, none, tolerance, sample⟩ beforeRows afterRows)
  constructor
  · intro h
    have hnodup := (size_indexByKey key beforeRows).mp (hbefore.symm.trans h.before_rows)
    have hnodup' := (size_indexByKey key afterRows).mp (hafter.symm.trans h.after_rows)
    refine ⟨hnodup, hnodup', fun b hb a ha hkey hequal => ?_⟩
    have hpair : (b, a) ∈ matchedPairs (indexByKey key beforeRows) (indexByKey key afterRows) :=
      mem_matchedPairs.mpr ⟨cell b key, (get_indexByKey hnodup).mpr ⟨hb, rfl⟩,
        (get_indexByKey hnodup').mpr ⟨ha, hkey.symm⟩⟩
    refine hsame.mp (hunchanged.symm.trans h.unchanged) (b, a) hpair ?_
    rw [equalIn_allColumns]
    exact hequal
  · rintro ⟨hnodup, hnodup', hrows⟩
    have hpairs : ∀ p ∈ matchedPairs (indexByKey key beforeRows) (indexByKey key afterRows),
        equalIn tolerance (allColumns ⟨key, none, tolerance, sample⟩ beforeRows afterRows) p.1 p.2 =
          sameRow tolerance p := by
      rintro ⟨b, a⟩ hp
      obtain ⟨k, hgetb, hgeta⟩ := mem_matchedPairs.mp hp
      obtain ⟨hb, rfl⟩ := (get_indexByKey hnodup).mp hgetb
      obtain ⟨ha, hkey⟩ := (get_indexByKey hnodup').mp hgeta
      rw [equalIn_allColumns, Bool.eq_iff_iff]
      exact ⟨hrows b hb a ha hkey.symm, fun h => equalIn_of_sameRow h _⟩
    obtain ⟨hswapped, hswapped'⟩ :=
      dataDiff_swap ⟨key, none, tolerance, sample⟩ rfl beforeRows afterRows
    exact
      { after_rows := hafter.trans ((size_indexByKey key afterRows).mpr hnodup')
        before_rows := hbefore.trans ((size_indexByKey key beforeRows).mpr hnodup)
        unchanged := hunchanged.trans (countP_congr fun p hp => by rw [hpairs p hp])
        modified := hmodified.trans (countP_congr fun p hp => by rw [hpairs p hp])
        swapped := ⟨rfl, rfl, by
          rw [DiffSummary.mk.injEq]
          exact ⟨rfl, rfl, hswapped', hswapped, rfl⟩⟩ }

end DataDiff

/-- A column that the first rows do not have is not compared. -/
theorem dataDiff_late_column :
    ¬ ∀ (key : String) (tolerance : ℚ) (sample : Nat) (beforeRows afterRows : List (Row JsValue)),
      Accounts ⟨key, none, tolerance, sample⟩ beforeRows afterRows := by
  intro h
  have hlate := (h "id" 0 100 [⟨[("id", .num 1)], by decide⟩,
      ⟨[("id", .num 2), ("name", .str "Bob")], by decide⟩]
    [⟨[("id", .num 1)], by decide⟩, ⟨[("id", .num 2), ("name", .str "Rob")], by decide⟩]).unchanged
  revert hlate
  decide

end Promin.Data
