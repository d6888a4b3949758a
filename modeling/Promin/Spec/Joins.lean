import Mathlib.Data.List.NodupEquivFin
import Promin.Data.JoinObjects
import Promin.ForStd.Grouping
import Promin.ForStd.NestedLoop
import Promin.Spec.JoinFilters

/-!
# Joins as nested loops

`executeJoin` joins the rows whose keys have the same text, and a full join
takes for unmatched what stands at a place that no matched object is first found
at.
-/

namespace Promin.Data

open Bool hiding and_assoc

open List

section Joins

variable {κ : Type}

open NestedLoop

/-- A join by its definition: every pair of rows is looked at. -/
def nestedLoop (m : Nat → Nat → Bool) (left right : List Nat) :
    JoinType → List (JoinedRow Nat Nat)
  | .inner => inner m left right
  | .left => leftOuter m left right
  | .right => rightOuter m left right
  | .full => full m left right
  | .semi => semi m left right
  | .anti => anti m left right

section Rows

variable [JsCells κ]

/-- The row made of a pair. -/
def toRow (heap : RowHeap κ) : JoinedRow Nat Nat → Row κ
  | .both l r => mergeRow (heap l) (heap r)
  | .left l => heap l
  | .right r => heap r

def sameText (heap : RowHeap κ) (on : JoinOn) (l r : Nat) : Bool :=
  getJoinKey (heap l) on == getJoinKey (heap r) on

/-- The keys agree under `===`. -/
def strictlyEqual (heap : RowHeap κ) (on : JoinOn) (l r : Nat) : Bool :=
  keysEqual (heap l) (heap r) on

/-- The join the documentation speaks of. -/
def textbookJoin (heap : RowHeap κ) (left right : List Nat) (on : JoinOn) (type : JoinType) :
    List (Row κ) :=
  (nestedLoop (strictlyEqual heap on) left right type).map (toRow heap)

/-! ## What the join joins -/

def matchedRight (m : Nat → Nat → Bool) (left right : List Nat) : List Nat :=
  left.flatMap fun l => (right.filter (m l)).map fun r => right.idxOf r

def leftOver (m : Nat → Nat → Bool) (left right : List Nat) : List Nat :=
  (right.zipIdx.filter fun r => !(matchedRight m left right).contains r.2).map Prod.fst

/-- The pairs `executeJoin` makes, with keys compared as texts. -/
def joinedRows (heap : RowHeap κ) (left right : List Nat) (on : JoinOn) :
    JoinType → List (JoinedRow Nat Nat)
  | .full => leftOuter (sameText heap on) left right ++
      (leftOver (sameText heap on) left right).map .right
  | type => nestedLoop (sameText heap on) left right type

section

variable (heap : RowHeap κ)
include heap

theorem get_indexObjects (on : JoinOn) (rows : List Nat) (l : Nat) :
    (indexObjects heap on rows).get (getJoinKey (heap l) on) =
      if rows.filter (sameText heap on l) = [] then none
      else some (rows.filter (sameText heap on l)) := by
  have hkey : Grouping.withKey (fun r => getJoinKey (heap r) on) (getJoinKey (heap l) on) rows =
      rows.filter (sameText heap on l) := by
    apply filter_congr
    intro r _
    rw [sameText, beq_eq_decide_eq, decide_eq_decide]
    exact eq_comm
  have hget := Grouping.get_pushAll (fun r => getJoinKey (heap r) on) rows JsMap.empty
    (getJoinKey (heap l) on)
  rw [hkey] at hget
  exact hget

theorem has_indexObjects (on : JoinOn) (rows : List Nat) (l : Nat) :
    (indexObjects heap on rows).has (getJoinKey (heap l) on) = rows.any (sameText heap on l) := by
  rw [JsMap.has, get_indexObjects, Bool.eq_iff_iff, any_eq_true]
  split
  · rename_i hnone
    rw [filter_eq_nil_iff] at hnone
    simpa using hnone
  · rename_i hsome
    obtain ⟨r, hr⟩ := exists_mem_of_ne_nil _ hsome
    exact ⟨fun _ => ⟨r, mem_filter.mp hr⟩, fun _ => rfl⟩

theorem match_indexObjects {γ : Type} (on : JoinOn) (rows : List Nat) (l : Nat)
    (matches' : List Nat → γ) (alone : γ) :
    (match (indexObjects heap on rows).get (getJoinKey (heap l) on) with
      | some found => matches' found
      | none => alone) =
      if rows.filter (sameText heap on l) = [] then alone
      else matches' (rows.filter (sameText heap on l)) := by
  rw [get_indexObjects]
  by_cases hnone : rows.filter (sameText heap on l) = []
  · rw [if_pos hnone, if_pos hnone]
  · rw [if_neg hnone, if_neg hnone]

theorem sameText_comm (on : JoinOn) (l r : Nat) :
    sameText heap on l r = sameText heap on r l := BEq.comm

theorem match_indexObjects_nil {γ : Type} (on : JoinOn) (rows : List Nat) (l : Nat) (f : Nat → γ) :
    (match (indexObjects heap on rows).get (getJoinKey (heap l) on) with
      | some found => found.map f
      | none => []) = (rows.filter (sameText heap on l)).map f := by
  rw [match_indexObjects]
  split
  · rename_i hnone
    rw [hnone, map_nil]
  · rfl

theorem executeJoinObjects_eq (left right : List Nat) (on : JoinOn)
    (type : JoinType) : executeJoinObjects heap left right on type =
      (joinedRows heap left right on type).map (toRow heap) := by
  have houter : (left.flatMap fun l =>
      match (indexObjects heap on right).get (getJoinKey (heap l) on) with
      | some found => found.map fun r => mergeRow (heap l) (heap r)
      | none => [heap l]) = (leftOuter (sameText heap on) left right).map (toRow heap) := by
    rw [leftOuter, map_flatMap]
    apply flatMap_congr
    intro l _
    rw [match_indexObjects]
    split
    · rfl
    · rw [map_map]
      rfl
  cases type with
  | inner =>
    show (left.flatMap fun l => _) =
      (NestedLoop.inner (sameText heap on) left right).map (toRow heap)
    rw [NestedLoop.inner, map_flatMap]
    apply flatMap_congr
    intro l _
    rw [map_map]
    exact match_indexObjects_nil heap on right l fun r => mergeRow (heap l) (heap r)
  | left => exact houter
  | right =>
    show (right.flatMap fun r => _) = (rightOuter (sameText heap on) left right).map (toRow heap)
    rw [rightOuter, map_flatMap]
    apply flatMap_congr
    intro r _
    have hcomm : (left.filter fun l => sameText heap on l r) = left.filter (sameText heap on r) :=
      filter_congr fun l _ => sameText_comm heap on l r
    have hfound := match_indexObjects heap on left r
      (fun found => found.map fun l => mergeRow (heap l) (heap r)) [heap r]
    rw [hcomm]
    refine hfound.trans ?_
    split
    · rfl
    · rw [map_map]
      rfl
  | full =>
    show _ ++ _ = (leftOuter (sameText heap on) left right ++
      (leftOver (sameText heap on) left right).map JoinedRow.right).map (toRow heap)
    rw [map_append, map_map, ← houter]
    congr 1
    have hmatched : (left.flatMap fun l =>
        match (indexObjects heap on right).get (getJoinKey (heap l) on) with
        | some found => found.map fun r => right.idxOf r
        | none => []) = matchedRight (sameText heap on) left right :=
      flatMap_congr fun l _ => match_indexObjects_nil heap on right l fun r => right.idxOf r
    rw [leftOver, map_map]
    exact congrArg (fun places : List Nat =>
      (right.zipIdx.filter fun r => !places.contains r.2).map fun r => heap r.1) hmatched
  | semi | anti =>
    show (left.filter fun l => _).map heap = ((left.filter _).map JoinedRow.left).map (toRow heap)
    simp only [has_indexObjects, map_map]
    rfl

end

end Rows

/-! ## Objects that stand in the array twice -/

section Places

variable {m : Nat → Nat → Bool} {left right : List Nat} {i r : Nat}

theorem mem_matchedRight : i ∈ matchedRight m left right ↔
    ∃ l ∈ left, ∃ r ∈ right, m l r = true ∧ right.idxOf r = i := by
  simp [matchedRight, and_assoc]

theorem contains_matchedRight (hi : right[i]? = some r) :
    (matchedRight m left right).contains i = true ↔
      right.idxOf r = i ∧ left.any (m · r) = true := by
  rw [contains_iff_mem, mem_matchedRight, any_eq_true]
  constructor
  · rintro ⟨l, hl, r', hr', hm, rfl⟩
    have hr : r' = r := by
      rw [List.getElem?_eq_getElem (idxOf_lt_length_of_mem hr'), getElem_idxOf] at hi
      exact Option.some.inj hi
    subst hr
    exact ⟨rfl, l, hl, hm⟩
  · rintro ⟨hplace, l, hl, hm⟩
    exact ⟨l, hl, r, mem_of_getElem? hi, hm, hplace⟩

theorem idxOf_le (hi : right[i]? = some r) : right.idxOf r ≤ i := by
  obtain ⟨hlt, hri⟩ := List.getElem?_eq_some_iff.mp hi
  by_contra hle
  have hbefore : i < right.findIdx (· == r) := by
    show i < right.idxOf r
    omega
  have hne := not_of_lt_findIdx hbefore
  rw [hri, beq_self_eq_true] at hne
  exact Bool.noConfusion hne

theorem idxOf_eq_of_not_duplicate (hi : right[i]? = some r)
    (h : ¬ right.Duplicate r) : right.idxOf r = i := by
  obtain ⟨hlt, hri⟩ := List.getElem?_eq_some_iff.mp hi
  by_contra hne
  have hle := idxOf_le hi
  apply h
  rw [duplicate_iff_exists_distinct_get]
  refine ⟨⟨right.idxOf r, by omega⟩, ⟨i, hlt⟩, ?_, ?_, ?_⟩
  · show right.idxOf r < i
    omega
  · exact (getElem_idxOf _).symm
  · exact hri.symm

theorem leftOver_eq_unmatched (h : ∀ l ∈ left, ∀ r ∈ right, m l r = true → ¬ right.Duplicate r) :
    leftOver m left right = unmatched m left right := by
  have hunmatched : unmatched m left right =
      (right.zipIdx.filter fun r => !left.any (m · r.1)).map Prod.fst := by
    have hfst := filter_map (f := Prod.fst (β := Nat)) (p := fun r => !left.any (m · r))
      (l := right.zipIdx)
    rw [zipIdx_map_fst] at hfst
    exact hfst
  rw [leftOver, hunmatched]
  congr 1
  apply filter_congr
  rintro ⟨r, i⟩ hr
  have hi : right[i]? = some r := mem_zipIdx_iff_getElem?.mp hr
  congr 1
  rw [Bool.eq_iff_iff, contains_matchedRight hi, and_iff_right_iff_imp]
  intro hany
  obtain ⟨l, hl, hm⟩ := any_eq_true.mp hany
  exact idxOf_eq_of_not_duplicate hi (h l hl r (mem_of_getElem? hi) hm)

theorem mem_leftOver_of_duplicate (h : right.Duplicate r) :
    r ∈ leftOver m left right := by
  obtain ⟨i, j, hij, hri, hrj⟩ := duplicate_iff_exists_distinct_get.mp h
  have hj : right[j.1]? = some r := by
    rw [List.getElem?_eq_getElem j.2, hrj]
    rfl
  refine mem_map.mpr ⟨(r, j.1), mem_filter.mpr ⟨?_, ?_⟩, rfl⟩
  · exact mem_zipIdx_iff_getElem?.mpr hj
  · rw [not_eq_true', ← not_eq_true, contains_matchedRight hj]
    rintro ⟨hplace, -⟩
    have hle : right.idxOf r ≤ i.1 := idxOf_le (by
      rw [List.getElem?_eq_getElem i.2, hri]
      rfl)
    have hlt : i.1 < j.1 := hij
    omega

end Places

/-! ## When the joins agree -/

section Agree

variable [StrictCells κ] {heap : RowHeap κ} {on : JoinOn} {left right : List Nat}

theorem sameText_of_strictlyEqual {l r : Nat} (h : strictlyEqual heap on l r = true) :
    sameText heap on l r = true := by
  rw [sameText, beq_iff_eq]
  cases on with
  | column name => exact StrictCells.text_eq_of_strictEq h
  | columns names =>
    show String.intercalate _ (names.map _) = String.intercalate _ (names.map _)
    congr 1
    apply map_congr_left
    intro name hname
    exact StrictCells.text_eq_of_strictEq (all_eq_true.mp h name hname)

/-- Texts tell the keys apart, as far as the join asks; what a full join matches stands at one
place. -/
def KeysTold (heap : RowHeap κ) (on : JoinOn) (left right : List Nat) : JoinType → Prop
  | .semi | .anti => ∀ l ∈ left, (∃ r ∈ right, sameText heap on l r = true) →
      ∃ r ∈ right, strictlyEqual heap on l r = true
  | .full => ∀ l ∈ left, ∀ r ∈ right, sameText heap on l r = true →
      strictlyEqual heap on l r = true ∧ ¬ right.Duplicate r
  | _ => ∀ l ∈ left, ∀ r ∈ right, sameText heap on l r = true → strictlyEqual heap on l r = true

theorem sameText_eq (h : ∀ l ∈ left, ∀ r ∈ right, sameText heap on l r = true →
    strictlyEqual heap on l r = true) :
    ∀ l ∈ left, ∀ r ∈ right, sameText heap on l r = strictlyEqual heap on l r := by
  intro l hl r hr
  rw [Bool.eq_iff_iff]
  exact ⟨h l hl r hr, sameText_of_strictlyEqual⟩

theorem any_sameText {l : Nat} (h : right.any (strictlyEqual heap on l) = true) :
    right.any (sameText heap on l) = true := by
  obtain ⟨r, hr, heq⟩ := any_eq_true.mp h
  exact any_eq_true.mpr ⟨r, hr, sameText_of_strictlyEqual heq⟩

theorem any_sameText_eq (h : ∀ l ∈ left, (∃ r ∈ right, sameText heap on l r = true) →
    ∃ r ∈ right, strictlyEqual heap on l r = true) :
    ∀ l ∈ left, right.any (sameText heap on l) = right.any (strictlyEqual heap on l) := by
  intro l hl
  rw [Bool.eq_iff_iff]
  refine ⟨fun hsame => ?_, any_sameText⟩
  exact any_eq_true.mpr (h l hl (any_eq_true.mp hsame))

variable {type : JoinType}

theorem joinedRows_eq (h : KeysTold heap on left right type) :
    joinedRows heap left right on type = nestedLoop (strictlyEqual heap on) left right type := by
  cases type with
  | inner => exact inner_congr (sameText_eq h)
  | left => exact leftOuter_congr (sameText_eq h)
  | right => exact rightOuter_congr (sameText_eq h)
  | full =>
    have hsame := sameText_eq fun l hl r hr heq => (h l hl r hr heq).1
    show leftOuter _ left right ++ (leftOver _ left right).map JoinedRow.right =
      leftOuter _ left right ++ (unmatched _ left right).map JoinedRow.right
    rw [leftOver_eq_unmatched fun l hl r hr heq => (h l hl r hr heq).2, leftOuter_congr hsame,
      unmatched_congr hsame]
  | semi =>
    show (left.filter _).map JoinedRow.left = (left.filter _).map JoinedRow.left
    rw [filter_congr (any_sameText_eq h)]
  | anti =>
    show (left.filter _).map JoinedRow.left = (left.filter _).map JoinedRow.left
    rw [filter_congr fun l hl => congrArg Bool.not (any_sameText_eq h l hl)]

theorem keysTold_of_pairs (h : (left ×ˢ right).countP (fun p => sameText heap on p.1 p.2) =
      (left ×ˢ right).countP fun p => strictlyEqual heap on p.1 p.2) :
    ∀ l ∈ left, ∀ r ∈ right, sameText heap on l r = true → strictlyEqual heap on l r = true := by
  rw [countP_eq_countP_iff fun p _ => sameText_of_strictlyEqual] at h
  intro l hl r hr
  exact h (l, r) (pair_mem_product.mpr ⟨hl, hr⟩)

theorem keysTold_of_length (htype : type ∈ [.inner, .semi, .anti])
    (hlength : (joinedRows heap left right on type).length =
      (nestedLoop (strictlyEqual heap on) left right type).length) :
    KeysTold heap on left right type := by
  cases type with
  | inner =>
    apply keysTold_of_pairs
    rw [← length_inner, ← length_inner]
    exact hlength
  | left | right | full => exact absurd htype (by decide)
  | semi =>
    have hkept : ((left.filter _).map (JoinedRow.left (β := Nat))).length =
        ((left.filter _).map JoinedRow.left).length := hlength
    rw [length_map, length_map, ← countP_eq_length_filter,
      ← countP_eq_length_filter, countP_eq_countP_iff fun l _ => any_sameText] at hkept
    intro l hl hsame
    exact any_eq_true.mp (hkept l hl (any_eq_true.mpr hsame))
  | anti =>
    have hkept : ((left.filter _).map (JoinedRow.left (β := Nat))).length =
        ((left.filter _).map JoinedRow.left).length := hlength
    rw [length_map, length_map, ← countP_eq_length_filter,
      ← countP_eq_length_filter, eq_comm, countP_eq_countP_iff] at hkept
    · intro l hl hsame
      by_contra hnone
      rw [← any_eq_true] at hnone hsame
      have hleft := hkept l hl (by rw [not_eq_true', ← not_eq_true]; exact hnone)
      rw [hsame] at hleft
      exact false_ne_true hleft
    · intro l _ hnone
      rw [not_eq_true', ← not_eq_true] at hnone ⊢
      exact fun hstrict => hnone (any_sameText hstrict)

theorem keysTold_of_perm (h : (joinedRows heap left right on type).Perm
      (nestedLoop (strictlyEqual heap on) left right type)) :
    KeysTold heap on left right type := by
  have hpairs := h.countP_eq JoinedRow.isBoth
  cases type with
  | inner | semi | anti => exact keysTold_of_length (by decide) h.length_eq
  | left =>
    apply keysTold_of_pairs
    rw [← countP_isBoth_leftOuter, ← countP_isBoth_leftOuter]
    exact hpairs
  | right =>
    have hcounts : (right ×ˢ left).countP (fun p => sameText heap on p.2 p.1) =
        (right ×ˢ left).countP fun p => strictlyEqual heap on p.2 p.1 := by
      rw [← countP_isBoth_rightOuter, ← countP_isBoth_rightOuter]
      exact hpairs
    rw [countP_eq_countP_iff fun p _ => sameText_of_strictlyEqual] at hcounts
    intro l hl r hr
    exact hcounts (r, l) (pair_mem_product.mpr ⟨hr, hl⟩)
  | full =>
    have hnone : ∀ rows : List Nat,
        (rows.map (JoinedRow.right (α := Nat))).countP JoinedRow.isBoth = 0 := by
      intro rows
      rw [countP_map]
      exact countP_eq_zero.mpr fun _ _ => false_ne_true
    have hkeys : ∀ l ∈ left, ∀ r ∈ right, sameText heap on l r = true →
        strictlyEqual heap on l r = true := by
      apply keysTold_of_pairs
      rw [← countP_isBoth_leftOuter, ← countP_isBoth_leftOuter]
      have hcounts : (leftOuter _ left right ++ List.map JoinedRow.right _).countP _ =
        (leftOuter _ left right ++ List.map JoinedRow.right _).countP _ := hpairs
      rw [countP_append, countP_append, hnone, hnone] at hcounts
      exact hcounts
    intro l hl r hr heq
    refine ⟨hkeys l hl r hr heq, fun hdup => ?_⟩
    -- the matched object is left over at its second place, but not unmatched
    have hrest : ((leftOver (sameText heap on) left right).map (JoinedRow.right (α := Nat))).Perm
        ((unmatched (strictlyEqual heap on) left right).map JoinedRow.right) := by
      have hrows : (leftOuter _ left right ++ List.map JoinedRow.right _).Perm
        (leftOuter _ left right ++ List.map JoinedRow.right _) := h
      rw [leftOuter_congr (sameText_eq hkeys)] at hrows
      exact (perm_append_left_iff _).mp hrows
    have hmem := hrest.mem_iff.mp (mem_map_of_mem (mem_leftOver_of_duplicate hdup))
    obtain ⟨r', hr', hright⟩ := mem_map.mp hmem
    obtain rfl := JoinedRow.right.inj hright
    have hany := (mem_filter.mp hr').2
    rw [not_eq_true', ← not_eq_true, any_eq_true] at hany
    exact hany ⟨l, hl, hkeys l hl r' hr heq⟩

/-- The join joins the items of the nested loop if and only if the texts tell the keys apart, as
far as the type asks, and a full join matches no object that stands on the right twice.  Then it
has the rows of the nested loop, in their order; otherwise an inner, semi or anti join has not
even their number. -/
theorem joins_textbook_iff (heap : RowHeap κ) (left right : List Nat) (on : JoinOn)
    (type : JoinType) :
    executeJoinObjects heap left right on type =
      (joinedRows heap left right on type).map (toRow heap) ∧
    ((joinedRows heap left right on type).Perm
      (nestedLoop (strictlyEqual heap on) left right type) ↔ KeysTold heap on left right type) ∧
    (KeysTold heap on left right type →
      executeJoinObjects heap left right on type = textbookJoin heap left right on type) ∧
    (type ∈ [.inner, .semi, .anti] →
      (executeJoinObjects heap left right on type).Perm (textbookJoin heap left right on type) →
      KeysTold heap on left right type) := by
  have hrows := executeJoinObjects_eq heap left right on type
  refine ⟨hrows, ⟨keysTold_of_perm, fun h => ?_⟩, fun h => ?_, fun htype h => ?_⟩
  · rw [joinedRows_eq h]
  · rw [hrows, joinedRows_eq h]
    rfl
  · have hlength := h.length_eq
    rw [hrows, textbookJoin, length_map, length_map] at hlength
    exact keysTold_of_length htype hlength

end Agree

end Joins

/-- A number and its numeral are joined, and an object that stands on the right twice is both
matched and unmatched. -/
theorem joins_counterexample :
    ¬ (∀ (heap : RowHeap JsValue) (left right : List Nat) (on : JoinOn),
      (executeJoinObjects heap left right on .inner).Perm
        (textbookJoin heap left right on .inner)) ∧
    ¬ ∀ (heap : RowHeap JsValue) (left right : List Nat) (on : JoinOn),
      (executeJoinObjects heap left right on .full).Perm
        (textbookJoin heap left right on .full) := by
  constructor
  · intro h
    have hlength := (h (fun a => if a = 0 then ⟨[("id", .num 1)], by decide⟩
      else ⟨[("id", .str "1")], by decide⟩) [0] [1] (.column "id")).length_eq
    revert hlength
    decide
  · intro h
    have hlength := (h (fun _ => ⟨[("id", .num 1)], by decide⟩) [0] [1, 1] (.column "id")).length_eq
    revert hlength
    decide

end Promin.Data
