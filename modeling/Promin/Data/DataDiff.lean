import Mathlib.Algebra.Order.Ring.Rat
import Promin.Data.JsonCells

/-!
# Data diff

`dataDiff` matches the rows of two datasets by one column and compares the
matched rows cell by cell.
-/

namespace Promin.Data

open JsCells

/-- Cells whose numbers are compared with a tolerance. -/
class DiffCells (κ : Type) extends JsCells κ where
  /-- `Math.abs(a - b) <= tolerance` of two numbers. -/
  within : ℚ → κ → κ → Bool
  within_comm : ∀ tolerance a b, within tolerance a b = within tolerance b a
  strictEq_comm : ∀ a b, strictEq a b = strictEq b a
  nullish_undefined : nullish undefined = true

instance : DiffCells JsValue where
  within tolerance a b := match a, b with
    | .num x, .num y => decide (|(x : ℚ) - y| ≤ tolerance)
    | _, _ => false
  within_comm tolerance a b := by
    cases a <;> cases b <;> first | rfl | simp only [abs_sub_comm]
  strictEq_comm a b := decide_eq_decide.mpr eq_comm
  nullish_undefined := rfl

structure Modification (κ : Type) where
  key : κ
  column : String
  before : κ
  after : κ

structure DiffOptions where
  /-- Column to match rows on. -/
  key : String
  columns : Option (List String) := none
  tolerance : ℚ := 0
  sampleModifications : Nat := 100

structure DiffSummary where
  added : Nat
  removed : Nat
  modified : Nat
  unchanged : Nat
  total : Nat

structure DataDiffResult (κ : Type) where
  summary : DiffSummary
  addedRows : List (Row κ)
  removedRows : List (Row κ)
  modifications : List (Modification κ)

section DataDiff

variable {κ : Type} [DecidableEq κ] [DiffCells κ]

def valuesEqual (tolerance : ℚ) (a b : κ) : Bool :=
  if strictEq a b then true
  else if nullish a && nullish b then true
  else if nullish a || nullish b then false
  else if isNumber a && isNumber b && tolerance > 0 then
    DiffCells.within tolerance a b
  else json a == json b

def indexByKey (key : String) (rows : List (Row κ)) : JsMap κ (Row κ) :=
  rows.foldl (fun map row => map.set (cell row key) row) JsMap.empty

/-- `Object.keys(rows[0])`, none without rows. -/
def columnsOfFirst (rows : List (Row κ)) : List String :=
  match rows with
  | [] => []
  | row :: _ => (enumerate row).map Prod.fst

variable (options : DiffOptions)

def allColumns (beforeRows afterRows : List (Row κ)) : List String :=
  options.columns.getD
    ((columnsOfFirst beforeRows ++ columnsOfFirst afterRows).eraseDups.filter (· != options.key))

def rowsWithout (map other : JsMap κ (Row κ)) : List (Row κ) :=
  (map.entries.filter fun e => !other.has e.1).map Prod.snd

/-- What the loop over the matched rows counts and collects. -/
structure DiffCounts (κ : Type) where
  modifications : List (Modification κ) := []
  modifiedCount : Nat := 0
  unchangedCount : Nat := 0

def compareRows (columns : List String) (k : κ) (beforeRow afterRow : Row κ) (counts : DiffCounts κ)
    : DiffCounts κ :=
  let (rowModified, modifications) := columns.foldl (fun (rowModified, modifications) col =>
    let bVal := cell beforeRow col
    let aVal := cell afterRow col
    if valuesEqual options.tolerance bVal aVal then (rowModified, modifications)
    else (true, if modifications.length < options.sampleModifications
      then modifications ++ [⟨k, col, bVal, aVal⟩] else modifications))
    (false, counts.modifications)
  if rowModified then
    { counts with modifications := modifications, modifiedCount := counts.modifiedCount + 1 }
  else { counts with modifications := modifications, unchangedCount := counts.unchangedCount + 1 }

def compareAll (columns : List String) (afterMap : JsMap κ (Row κ)) (entries : List (κ × Row κ))
    (counts : DiffCounts κ) : DiffCounts κ :=
  entries.foldl (fun counts e =>
    match afterMap.get e.1 with
    | some afterRow => compareRows options columns e.1 e.2 afterRow counts
    | none => counts) counts

def dataDiff (beforeRows afterRows : List (Row κ)) (options : DiffOptions) : DataDiffResult κ :=
  let beforeMap := indexByKey options.key beforeRows
  let afterMap := indexByKey options.key afterRows
  let columns := allColumns options beforeRows afterRows
  let addedRows := rowsWithout afterMap beforeMap
  let removedRows := rowsWithout beforeMap afterMap
  let counts := compareAll options columns afterMap beforeMap.entries {}
  { summary :=
      { added := addedRows.length
        removed := removedRows.length
        modified := counts.modifiedCount
        unchanged := counts.unchangedCount
        total := beforeRows.length + addedRows.length }
    addedRows := addedRows
    removedRows := removedRows
    modifications := counts.modifications }

end DataDiff

end Promin.Data
