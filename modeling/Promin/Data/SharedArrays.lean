import Promin.Data.ArrayExecutor

/-!
# Shared arrays

The executor once more, with the arrays of the sources in a memory.
-/

namespace Promin.Data

/-- A plan over materialized sources; a source is the address of its array. -/
inductive SharedPlan (κ : Type) where
  | source (array : Nat)
  | unary (node : UnaryNode κ) (input : SharedPlan κ)
  | join (left right : SharedPlan κ) (on : JoinOn) (type : JoinType)
  | union (left right : SharedPlan κ)
  | concat (inputs : List (SharedPlan κ))

/-- The arrays of the sources. -/
abbrev Memory (κ : Type) := Nat → List (Row κ)

/-- An array that a node returns: that of a source, or one that nothing else refers to. -/
inductive ArrayRef (κ : Type) where
  | shared (array : Nat)
  | fresh (rows : List (Row κ))

def ArrayRef.rows {κ : Type} (memory : Memory κ) : ArrayRef κ → List (Row κ)
  | .shared array => memory array
  | .fresh rows => rows

/-- `array.reverse()`. -/
def Memory.reverse {κ : Type} (memory : Memory κ) (array : Nat) : Memory κ :=
  Function.update memory array (memory array).reverse

section Shared

variable {κ : Type} [JsCells κ]

def applyNode (node : UnaryNode κ) (ref : ArrayRef κ) (memory : Memory κ) :
    ArrayRef κ × Memory κ :=
  match node, ref with
  | .reverse, .shared array => (.shared array, memory.reverse array)
  | .sort keys, ref =>
    if ref.rows memory = [] then (ref, memory)
    else (.fresh (sortRows keys (ref.rows memory)), memory)
  | node, ref => (.fresh (executeNode node (ref.rows memory)), memory)

mutual

/-- The executor on arrays that sources share; `reverse` is in place. -/
def executeShared : SharedPlan κ → Memory κ → Except ExecError (ArrayRef κ) × Memory κ
  | .source array, memory => (.ok (.shared array), memory)
  | .unary (.limit n) (.unary (.sort (.single column order)) input), memory =>
    match executeShared input memory with
    | (.ok ref, memory) => ((topN (ref.rows memory) n column order).map .fresh, memory)
    | (.error e, memory) => (.error e, memory)
  | .unary node input, memory =>
    match executeShared input memory with
    | (.ok ref, memory) =>
      let (ref, memory) := applyNode node ref memory
      (.ok ref, memory)
    | (.error e, memory) => (.error e, memory)
  | .join left right on type, memory =>
    match executeShared left memory with
    | (.ok left, memory) =>
      match executeShared right memory with
      | (.ok right, memory) =>
        (.ok (.fresh (executeJoin (left.rows memory) (right.rows memory) on type)), memory)
      | (.error e, memory) => (.error e, memory)
    | (.error e, memory) => (.error e, memory)
  | .union left right, memory =>
    match executeShared left memory with
    | (.ok left, memory) =>
      match executeShared right memory with
      | (.ok right, memory) =>
        (.ok (.fresh (distinctBy (· == ·) rowText (left.rows memory ++ right.rows memory))), memory)
      | (.error e, memory) => (.error e, memory)
    | (.error e, memory) => (.error e, memory)
  | .concat inputs, memory =>
    match executeSharedAll inputs memory with
    | (.ok rows, memory) => (.ok (.fresh rows), memory)
    | (.error e, memory) => (.error e, memory)

def executeSharedAll :
    List (SharedPlan κ) → Memory κ → Except ExecError (List (Row κ)) × Memory κ
  | [], memory => (.ok [], memory)
  | input :: inputs, memory =>
    match executeShared input memory with
    | (.ok ref, memory) =>
      let rows := ref.rows memory
      match executeSharedAll inputs memory with
      | (.ok rest, memory) => (.ok (rows ++ rest), memory)
      | (.error e, memory) => (.error e, memory)
    | (.error e, memory) => (.error e, memory)

end

mutual

/-- The plan with its sources' rows as values. -/
def SharedPlan.withData (memory : Memory κ) : SharedPlan κ → LogicalPlan κ
  | .source array => .source { data := memory array, load := none, unloaded := nofun }
  | .unary node input => .unary node (input.withData memory)
  | .join left right on type => .join (left.withData memory) (right.withData memory) on type
  | .union left right => .union (left.withData memory) (right.withData memory)
  | .concat inputs => .concat (SharedPlan.withDataAll memory inputs)

def SharedPlan.withDataAll (memory : Memory κ) : List (SharedPlan κ) → List (LogicalPlan κ)
  | [] => []
  | input :: inputs => input.withData memory :: SharedPlan.withDataAll memory inputs

end

def SharedPlan.sharedSource : SharedPlan κ → Option Nat
  | .source array => some array
  | .unary .reverse input => input.sharedSource
  | _ => none

mutual

/-- The source arrays a plan reverses in place. -/
def SharedPlan.reversals : SharedPlan κ → List Nat
  | .source _ => []
  | .unary .reverse input => input.reversals ++ input.sharedSource.toList
  | .unary _ input => input.reversals
  | .join left right _ _ => left.reversals ++ right.reversals
  | .union left right => left.reversals ++ right.reversals
  | .concat inputs => SharedPlan.reversalsAll inputs

def SharedPlan.reversalsAll : List (SharedPlan κ) → List Nat
  | [] => []
  | input :: inputs => input.reversals ++ SharedPlan.reversalsAll inputs

end

end Shared

end Promin.Data
