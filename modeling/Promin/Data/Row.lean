import Promin.ForStd.JsMap
import Promin.ForStd.StableSort

/-!
# Rows and cells

A row of a `DataFrame` is a plain object, its columns are the object's own
properties.
-/

namespace Promin.Data

open List JsMap

/-- The arithmetic operators on cells. -/
inductive ArithOp where
  | add | sub | mul | div | mod

/-- The string functions an expression calls. -/
inductive CallName where
  | lower | upper | contains | startsWith | endsWith

/-- The target types of a cast. -/
inductive CastType where
  | double | varchar | boolean

/-- The operations on array-valued cells. -/
inductive ListOp where
  | length | get | contains | unique | sort | join | sum | mean | min | max

/-- What JavaScript does with the values in the cells. -/
class JsCells (κ : Type) where
  undefined : κ
  null : κ
  ofBool : Bool → κ
  /-- Is the value true where a condition is expected? -/
  truthy : κ → Bool
  /-- `v == null`. -/
  nullish : κ → Bool
  less : κ → κ → Bool
  lessEq : κ → κ → Bool
  /-- `a === b`. -/
  strictEq : κ → κ → Bool
  /-- The equality of `Set` members. -/
  sameValueZero : κ → κ → Bool
  arith : ArithOp → κ → κ → κ
  neg : κ → κ
  isNumber : κ → Bool
  /-- Does a comparator returning `v` want its arguments swapped? -/
  isPositive : κ → Bool
  /-- `String(v)`. -/
  text : κ → String
  /-- The string functions, on values. -/
  call : CallName → List κ → κ
  cast : CastType → κ → κ
  /-- `v[name]` of a value that is not nullish. -/
  member : κ → String → κ
  items : κ → Option (List κ)
  /-- The array operations, on the arguments and the items. -/
  listOp : ListOp → List κ → List κ → κ
  /-- `JSON.stringify(v)`, `"undefined"` where it gives none. -/
  json : κ → String
  /-- `JSON.stringify` of the object with these properties. -/
  stringify : List (String × κ) → String

abbrev Row (κ : Type) := JsMap String κ

/-! ## Property order -/

def indexValue (name : String) : Nat :=
  name.toList.foldl (fun n c => 10 * n + (c.toNat - '0'.toNat)) 0

/-- Is the name an array index, a number below `2 ^ 32 - 1` in its shortest form? -/
def isArrayIndex (name : String) : Bool :=
  name != "" && name.toList.all Char.isDigit && (name == "0" || name.toList.head? != some '0') &&
    decide (indexValue name < 4294967295)

variable {κ α : Type}

/-- `Object.entries(row)`. -/
def enumerate (row : JsMap String α) : List (String × α) :=
  StableSort.sort (fun a b => decide (indexValue b.1 < indexValue a.1))
      (row.entries.filter fun e => isArrayIndex e.1) ++
    row.entries.filter fun e => !isArrayIndex e.1

theorem mem_enumerate {row : JsMap String α} {e : String × α} :
    e ∈ enumerate row ↔ e ∈ row.entries := by
  simp only [enumerate, mem_append, StableSort.mem_sort, mem_filter]
  cases isArrayIndex e.1 <;> simp

theorem enumerate_perm (row : JsMap String α) : (enumerate row).Perm row.entries :=
  ((StableSort.sort_perm _).append_right _).trans (filter_append_perm _ _)

theorem nodup_enumerate (row : JsMap String α) : ((enumerate row).map Prod.fst).Nodup :=
  ((enumerate_perm row).map Prod.fst).nodup_iff.mpr row.nodup

/-! ## Row operations -/

def spread (row : JsMap String α) : JsMap String α := collect some (enumerate row)

@[simp] theorem get_spread (row : JsMap String α) (c : String) :
    (spread row).get c = row.get c := by
  apply Option.ext
  intro v
  rw [spread, get_collect (by simpa using nodup_enumerate row)]
  rw [filterMap_some, mem_enumerate, mem_entries_iff]

section Cells

variable [JsCells κ]

def cell (row : Row κ) (column : String) : κ := (row.get column).getD JsCells.undefined

/-- The row with the given columns only; a column it lacks is set to `undefined`. -/
def selectRow (columns : List String) (row : Row κ) : Row κ :=
  columns.foldl (fun result col => result.set col (cell row col)) empty

def dropRow (columns : List String) (row : Row κ) : Row κ :=
  collect (fun e => if columns.contains e.1 then none else some e) (enumerate row)

def renameRow (mapping : JsMap String String) (row : Row κ) : Row κ :=
  collect (fun e => some ((mapping.get e.1).getD e.1, e.2)) (enumerate row)

def withColumnRow (name : String) (value : κ) (row : Row κ) : Row κ := (spread row).set name value

def mergeRow (l r : Row κ) : Row κ :=
  (enumerate r).foldl (fun result e => result.set e.1 e.2) (spread l)

variable (row : Row κ)

@[simp] theorem cell_set_self (c : String) (v : κ) : cell (row.set c v) c = v := by
  simp [cell]

theorem cell_set_ne {c c' : String} (v : κ) (h : c ≠ c') :
    cell (row.set c v) c' = cell row c' := by
  rw [cell, cell, get_set_ne row v h]

private theorem cell_foldl_select (columns : List String) (c : String) (result : Row κ) :
    cell (columns.foldl (fun result col => result.set col (cell row col)) result) c =
      if c ∈ columns then cell row c else cell result c := by
  have hget := get_foldl_set id (cell row) columns result c
  rw [map_id] at hget
  refine (congrArg (Option.getD · JsCells.undefined) hget).trans ?_
  split <;> rfl

theorem cell_selectRow (columns : List String) (row : Row κ) (c : String) :
    cell (selectRow columns row) c = if c ∈ columns then cell row c else JsCells.undefined :=
  cell_foldl_select row columns c empty

theorem cell_selectRow_of_mem {columns : List String} {c : String}
    (h : c ∈ columns) : cell (selectRow columns row) c = cell row c := by
  rw [cell_selectRow, if_pos h]

theorem selectRow_selectRow {columns wider : List String} (h : ∀ c ∈ columns, c ∈ wider)
    (row : Row κ) : selectRow columns (selectRow wider row) = selectRow columns row := by
  have hfold : ∀ (cs : List String) (result : Row κ), (∀ c ∈ cs, c ∈ wider) →
      cs.foldl (fun result col => result.set col (cell (selectRow wider row) col)) result =
        cs.foldl (fun result col => result.set col (cell row col)) result := by
    intro cs
    induction cs with
    | nil => exact fun result _ => rfl
    | cons c cs ih =>
      intro result hcs
      simp only [foldl_cons]
      rw [cell_selectRow_of_mem row (hcs c mem_cons_self)]
      exact ih _ fun c' hc' => hcs c' (mem_cons_of_mem _ hc')
  exact hfold columns empty h

theorem cell_dropRow {columns : List String} {c : String} (h : c ∉ columns) :
    cell (dropRow columns row) c = cell row c := by
  have hsub : ((enumerate row).filterMap fun e =>
      if columns.contains e.1 then none else some e).Sublist (enumerate row) := by
    have hfilter : ((enumerate row).filterMap fun e =>
        if columns.contains e.1 then none else some e) =
          (enumerate row).filter fun e => !columns.contains e.1 := by
      rw [← filterMap_eq_filter]
      congr 1
      funext e
      by_cases hc : e.1 ∈ columns <;> simp [Option.guard, hc]
    rw [hfilter]
    exact filter_sublist
  have hnd := (hsub.map Prod.fst).nodup (nodup_enumerate row)
  have hget : (dropRow columns row).get c = row.get c := by
    apply Option.ext
    intro v
    rw [dropRow, get_collect hnd, ← mem_entries_iff, ← mem_enumerate]
    simp only [mem_filterMap]
    constructor
    · rintro ⟨e, he, heq⟩
      split at heq
      · exact nomatch heq
      · exact Option.some.inj heq ▸ he
    · intro he
      exact ⟨(c, v), he, by simp [h]⟩
  rw [cell, cell, hget]

theorem cell_withColumnRow_ne {name : String} (value : κ) (row : Row κ) {c : String}
    (h : c ≠ name) : cell (withColumnRow name value row) c = cell row c := by
  rw [withColumnRow, cell_set_ne _ _ (Ne.symm h)]
  simp [cell]

end Cells

end Promin.Data
