import Promin.Data.ArrayExecutor
import Promin.Data.JsonCells

/-!
# Joins of objects

`executeJoin` once more, with rows that are objects: an array holds addresses,
and the same object may stand in it several times.
-/

namespace Promin.Data

class StrictCells (κ : Type) extends JsCells κ where
  text_eq_of_strictEq : ∀ {a b : κ}, strictEq a b = true → text a = text b

instance : StrictCells JsValue where
  text_eq_of_strictEq := fun h => congrArg JsonCells.text (of_decide_eq_true h)

/-- Rows as objects; two positions may hold one object. -/
abbrev RowHeap (κ : Type) := Nat → Row κ

section Joins

variable {κ : Type} [JsCells κ]

def indexObjects (heap : RowHeap κ) (on : JoinOn) (rows : List Nat) : JsMap String (List Nat) :=
  rows.foldl (fun index r => index.push (getJoinKey (heap r) on) r) JsMap.empty

/-- `executeJoin` on objects, with `right.indexOf` as in the source. -/
def executeJoinObjects (heap : RowHeap κ) (left right : List Nat) (on : JoinOn)
    (type : JoinType) : List (Row κ) :=
  let rightIndex := indexObjects heap on right
  match type with
  | .inner => left.flatMap fun l =>
    match rightIndex.get (getJoinKey (heap l) on) with
    | some found => found.map fun r => mergeRow (heap l) (heap r)
    | none => []
  | .left => left.flatMap fun l =>
    match rightIndex.get (getJoinKey (heap l) on) with
    | some found => found.map fun r => mergeRow (heap l) (heap r)
    | none => [heap l]
  | .right =>
    let leftIndex := indexObjects heap on left
    right.flatMap fun r =>
      match leftIndex.get (getJoinKey (heap r) on) with
      | some found => found.map fun l => mergeRow (heap l) (heap r)
      | none => [heap r]
  | .full =>
    let matchedRight := left.flatMap fun l =>
      match rightIndex.get (getJoinKey (heap l) on) with
      | some found => found.map fun r => right.idxOf r
      | none => []
    (left.flatMap fun l =>
      match rightIndex.get (getJoinKey (heap l) on) with
      | some found => found.map fun r => mergeRow (heap l) (heap r)
      | none => [heap l]) ++
      (right.zipIdx.filter fun r => !matchedRight.contains r.2).map fun r => heap r.1
  | .semi => (left.filter fun l => rightIndex.has (getJoinKey (heap l) on)).map heap
  | .anti => (left.filter fun l => !rightIndex.has (getJoinKey (heap l) on)).map heap

def keysEqual (l r : Row κ) : JoinOn → Bool
  | .column name => JsCells.strictEq (cell l name) (cell r name)
  | .columns names => names.all fun name => JsCells.strictEq (cell l name) (cell r name)

end Joins

end Promin.Data
