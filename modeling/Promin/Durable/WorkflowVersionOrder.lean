import Promin.Data.Csv
import Promin.ForStd.Comparators

/-!
# The order of workflow versions

`compareWorkflowVersions` compares free-form version strings: numeric parts as
numbers, others as text, a release before its pre-releases.
-/

namespace Promin.Durable

open Comparators Data
open Std (OrientedCmp TransCmp)

namespace WorkflowVersion

def dot : UInt16 := 46

def dash : UInt16 := 45

/-- `"0"`. -/
def zero : CodeUnits := [48]

/-- `\d`. -/
def isDigit (u : UInt16) : Bool := 48 ≤ u && u ≤ 57

/-- `/^\d+$/`. -/
def isNumeric (x : CodeUnits) : Bool := !x.isEmpty && x.all isDigit

/-- `BigInt(x)`. -/
def bigInt (x : CodeUnits) : Nat := x.foldl (fun n u => 10 * n + (u.toNat - 48)) 0

def comparePart (x y : CodeUnits) : Ordering :=
  match isNumeric x, isNumeric y with
  | true, true => compare (bigInt x) (bigInt y)
  | true, false => .lt
  | false, true => .gt
  | false, false => compare x y

/-- What `compareParts` does at one index. -/
def compareAt (padWithZero : Bool) (x y : Option CodeUnits) : Ordering :=
  match x, y with
  | some x, some y => comparePart x y
  | none, some y => if padWithZero then comparePart zero y else .lt
  | some x, none => if padWithZero then comparePart x zero else .gt
  | none, none => .eq

def compareParts (padWithZero : Bool) (a b : List CodeUnits) : Ordering :=
  compareFirst (compareAt padWithZero) (max a.length b.length) (a[·]?) (b[·]?)

structure ParsedVersion where
  release : List CodeUnits
  pre : Option (List CodeUnits)

def dropV : CodeUnits → CodeUnits
  | u :: d :: rest => if (u = 118 || u = 86) && isDigit d then d :: rest else u :: d :: rest
  | text => text

def parseVersion (v : CodeUnits) : ParsedVersion :=
  let trimmed := dropV (CodeUnits.trim v)
  { release := (trimmed.takeWhile (· != dash)).splitOn dot
    pre := match trimmed.dropWhile (· != dash) with
      | [] => none
      | _ :: pre => some (pre.splitOn dot) }

def comparePre (a b : Option (List CodeUnits)) : Ordering :=
  match a, b with
  | none, none => .eq
  | none, some _ => .gt
  | some _, none => .lt
  | some a, some b => compareParts false a b

end WorkflowVersion

open WorkflowVersion

def compareWorkflowVersions (a b : CodeUnits) : Ordering :=
  let pa := parseVersion a
  let pb := parseVersion b
  (compareParts true pa.release pb.release).then (comparePre pa.pre pb.pre)

def latestWorkflowVersion (versions : List CodeUnits) : Option CodeUnits :=
  greatest compareWorkflowVersions versions

/-! ## The order of parts -/

namespace WorkflowVersion

attribute [local instance] lexOrd

/-- Numeric parts come first, by their number. -/
def partKey (x : CodeUnits) : Nat × Nat × CodeUnits :=
  if isNumeric x then (0, bigInt x, []) else (1, 0, x)

theorem comparePart_eq (x y : CodeUnits) :
    comparePart x y = compare (partKey x) (partKey y) := by
  unfold comparePart partKey
  cases isNumeric x <;> cases isNumeric y
  · rfl
  · rfl
  · rfl
  · exact Ordering.then_eq.symm

/-- What stands at an index, padded where there is nothing. -/
def keyAt (padWithZero : Bool) (x : Option CodeUnits) : Option (Nat × Nat × CodeUnits) :=
  (if padWithZero then some (x.getD zero) else x).map partKey

instance (padWithZero : Bool) : TransCmp (compareAt padWithZero) := by
  have heq : compareAt padWithZero = compareOn (keyAt padWithZero) := by
    funext x y
    cases padWithZero <;> cases x <;> cases y <;> first | rfl | exact comparePart_eq _ _
  rw [heq]
  infer_instance

/-! ## The order of versions -/

theorem compareParts_eq (padWithZero : Bool) {a b : List CodeUnits} {n : Nat}
    (ha : a.length ≤ n) (hb : b.length ≤ n) :
    compareParts padWithZero a b = compareFirst (compareAt padWithZero) n (a[·]?) (b[·]?) := by
  refine (compareFirst_of_le (max_le ha hb) fun i hi => ?_).symm
  rw [List.getElem?_eq_none (le_trans (le_max_left _ _) hi),
    List.getElem?_eq_none (le_trans (le_max_right _ _) hi)]
  rfl

instance (padWithZero : Bool) : TransCmp (compareParts padWithZero) where
  eq_swap {a b} := by
    rw [compareParts_eq padWithZero (le_max_right b.length _) (le_max_left b.length _)]
    exact OrientedCmp.eq_swap
  isLE_trans {a b c} hab hbc := by
    have ha : a.length ≤ max a.length (max b.length c.length) := le_max_left _ _
    have hb : b.length ≤ max a.length (max b.length c.length) :=
      le_trans (le_max_left _ _) (le_max_right _ _)
    have hc : c.length ≤ max a.length (max b.length c.length) :=
      le_trans (le_max_right _ _) (le_max_right _ _)
    rw [compareParts_eq padWithZero ha hb] at hab
    rw [compareParts_eq padWithZero hb hc] at hbc
    rw [compareParts_eq padWithZero ha hc]
    exact TransCmp.isLE_trans hab hbc

instance : TransCmp comparePre where
  eq_swap {a b} := by
    have hparts : ∀ x y, compareParts false x y = (compareParts false y x).swap := fun _ _ =>
      OrientedCmp.eq_swap
    cases a <;> cases b <;> first | rfl | exact hparts _ _
  isLE_trans {a b c} hab hbc := by
    have hparts : ∀ x y z, (compareParts false x y).isLE → (compareParts false y z).isLE →
        (compareParts false x z).isLE := fun _ _ _ => TransCmp.isLE_trans
    match a, b, c, hab, hbc with
    | a, _, none, _, _ => cases a <;> rfl
    | _, none, some _, _, hbc => exact absurd hbc Bool.false_ne_true
    | none, some _, some _, hab, _ => exact absurd hab Bool.false_ne_true
    | some _, some _, some _, hab, hbc => exact hparts _ _ _ hab hbc

end WorkflowVersion

instance : TransCmp compareWorkflowVersions := by
  have hrelease : TransCmp fun a b : CodeUnits =>
      compareParts true (parseVersion a).release (parseVersion b).release :=
    { eq_swap := OrientedCmp.eq_swap, isLE_trans := TransCmp.isLE_trans }
  have hpre : TransCmp fun a b : CodeUnits =>
      comparePre (parseVersion a).pre (parseVersion b).pre :=
    { eq_swap := OrientedCmp.eq_swap, isLE_trans := TransCmp.isLE_trans }
  exact inferInstanceAs (TransCmp (compareLex
    (fun a b => compareParts true (parseVersion a).release (parseVersion b).release)
    fun a b => comparePre (parseVersion a).pre (parseVersion b).pre))

/-- The comparison is a total preorder on all strings, and the latest of a list is one that
    none is newer than, the same up to equality for every order of the list. -/
theorem compareWorkflowVersions_preorder :
    (∀ a b, compareWorkflowVersions a b = (compareWorkflowVersions b a).swap) ∧
    (∀ a b c, compareWorkflowVersions a b ≠ .gt → compareWorkflowVersions b c ≠ .gt →
      compareWorkflowVersions a c ≠ .gt) ∧
    (∀ versions, versions ≠ [] → ∃ latest ∈ versions,
      latestWorkflowVersion versions = some latest ∧
        ∀ v ∈ versions, compareWorkflowVersions v latest ≠ .gt) ∧
    ∀ versions versions' : List CodeUnits, versions.Perm versions' →
      ∀ latest latest', latestWorkflowVersion versions = some latest →
        latestWorkflowVersion versions' = some latest' →
          compareWorkflowVersions latest latest' = .eq := by
  simp only [Ordering.ne_gt_iff_isLE]
  exact ⟨fun _ _ => OrientedCmp.eq_swap, fun _ _ _ => TransCmp.isLE_trans,
    fun _ => greatest_spec, fun _ _ hperm _ _ => greatest_perm hperm⟩

example : compareWorkflowVersions (CodeUnits.ofString "2.0.0-rc.10")
    (CodeUnits.ofString "v2-rc.9") = .gt := by decide

end Promin.Durable
