import Mathlib.Algebra.BigOperators.Field
import Mathlib.Data.String.Basic
import Promin.Spec.Triangles
import Promin.Spec.WeightedGraphs

/-!
# Louvain aggregation and weights

The graph of the communities takes over the weights between them. A weight
within a community is met from both its ends and halved; a self-loop is met
once, and is halved as well.
-/

namespace Promin.Data

open WeightedGraph JsMap Finset Communities

/-! ## Weights between communities -/

section Aggregation

variable {g : WeightedGraph} (communityOf : JsMap VertexId VertexId)

def weightBetween (g : WeightedGraph) (communityOf : JsMap VertexId VertexId) (a b : VertexId) :
    Rat :=
  ∑ v ∈ g.nodes.toFinset with communityAt communityOf v = a,
    ∑ u ∈ g.nodes.toFinset with communityAt communityOf u = b, g.weight v u

theorem weightBetween_symm (hg : g.Valid) (a b : VertexId) :
    weightBetween g communityOf a b = weightBetween g communityOf b a := by
  unfold weightBetween
  rw [sum_comm]
  exact sum_congr rfl fun u _ => sum_congr rfl fun v _ => hg.symm v u

theorem weightBetween_nonneg (hg : g.Valid) (a b : VertexId) :
    0 ≤ weightBetween g communityOf a b :=
  sum_nonneg fun v _ => sum_nonneg fun u _ => hg.weight_nonneg v u

theorem Valid_keys (hg : g.Valid) (v : VertexId) :
    ∀ u ∈ (rowOf g.adj v).keys, u ∈ g.nodes.toFinset := fun u hu => by
  rw [mem_keys_iff] at hu
  obtain ⟨w, hw⟩ := Option.isSome_iff_exists.mp hu
  exact List.mem_toFinset.mpr (hg.rows v u w hw).2.1

theorem amount_pairRow (hg : g.Valid) (v a b : VertexId) (pairWeight : WeightRows) :
    (rowOf ((rowOf g.adj v).entries.foldl (fun pairWeight nbr => addWeight pairWeight
        (communityAt communityOf v) (communityAt communityOf nbr.1) nbr.2) pairWeight) a).amount b =
      (rowOf pairWeight a).amount b + if communityAt communityOf v = a then
        ∑ u ∈ g.nodes.toFinset with communityAt communityOf u = b, g.weight v u else 0 := by
  rw [List.foldl_measure (fun pairWeight => (rowOf pairWeight a).amount b)
    (fun nbr => if communityAt communityOf v = a ∧ communityAt communityOf nbr.1 = b
      then nbr.2 else 0) fun pairWeight nbr _ => amount_addWeight pairWeight _ _ a b nbr.2]
  congr 1
  rw [sum_entries (rowOf g.adj v) 0 _ (Valid_keys hg v)
    (f := fun u w => if communityAt communityOf v = a ∧ communityAt communityOf u = b then w else 0)
    fun u => ite_self 0]
  by_cases ha : communityAt communityOf v = a
  · simp only [ha, true_and, if_true]
    rw [sum_filter]
    rfl
  · simp only [ha, false_and, if_false, sum_const_zero]

theorem weight_pairWeights (hg : g.Valid) (a b : VertexId) :
    (rowOf (pairWeights g communityOf) a).amount b = weightBetween g communityOf a b := by
  unfold pairWeights
  rw [List.foldl_measure (fun pairWeight => (rowOf pairWeight a).amount b) _
    fun pairWeight v _ => amount_pairRow communityOf hg v a b pairWeight,
    ← List.sum_toFinset _ hg.nodup, ← sum_filter]
  exact zero_add _

theorem mem_communityNodes (c : VertexId) :
    c ∈ communityNodes g communityOf ↔ ∃ v ∈ g.nodes, communityAt communityOf v = c := by
  unfold communityNodes
  have hfold : ∀ (nodes start : List VertexId), c ∈ nodes.foldl (fun newNodes v =>
      addToSet (communityAt communityOf v) newNodes) start ↔
      c ∈ start ∨ ∃ v ∈ nodes, communityAt communityOf v = c := by
    intro nodes
    induction nodes with
    | nil => simp
    | cons v nodes ih =>
      intro start
      rw [List.foldl_cons, ih, mem_addToSet, or_assoc]
      simp [eq_comm]
  rw [hfold]
  simp

theorem nodup_communityNodes : (communityNodes g communityOf).Nodup :=
  List.foldlRecOn (motive := List.Nodup) _ _ List.nodup_nil fun _ h _ _ => nodup_addToSet h

theorem rowsAmong_pairWeights (hg : g.Valid) :
    RowsAmong (communityNodes g communityOf) (pairWeights g communityOf) := by
  have hnode : ∀ v ∈ g.nodes, communityAt communityOf v ∈ communityNodes g communityOf :=
    fun v hv => (mem_communityNodes communityOf _).mpr ⟨v, hv, rfl⟩
  refine List.foldlRecOn (motive := RowsAmong (communityNodes g communityOf)) _ _
    (fun a b w hget => by cases hget) ?_
  intro pairWeight h v hv
  refine List.foldlRecOn (motive := RowsAmong (communityNodes g communityOf)) _ _ h ?_
  intro pairWeight h nbr hnbr
  obtain ⟨-, hmem, hpos⟩ := hg.rows v nbr.1 nbr.2 (((rowOf g.adj v).mem_entries_iff _ _).mp hnbr)
  exact h.addWeight (hnode v hv) (hnode _ hmem) hpos

/-! ## The new graph -/

theorem sum_pairWeights (hg : g.Valid) {added : VertexId → VertexId → Rat → Rat}
    (hadded : ∀ a b, added a b 0 = 0) :
    ((pairWeights g communityOf).entries.map fun row =>
      (row.2.entries.map fun e => added row.1 e.1 e.2).sum).sum =
    ∑ a ∈ (communityNodes g communityOf).toFinset, ∑ b ∈ (communityNodes g communityOf).toFinset,
      added a b (weightBetween g communityOf a b) := by
  have hrows := rowsAmong_pairWeights communityOf hg
  have hkeys : ∀ a, ∀ b ∈ (rowOf (pairWeights g communityOf) a).keys,
      a ∈ (communityNodes g communityOf).toFinset ∧
        b ∈ (communityNodes g communityOf).toFinset := fun a b hb => by
    rw [mem_keys_iff] at hb
    obtain ⟨w, hw⟩ := Option.isSome_iff_exists.mp hb
    exact ⟨List.mem_toFinset.mpr (hrows a b w hw).1, List.mem_toFinset.mpr (hrows a b w hw).2.1⟩
  have hinner : ∀ row ∈ (pairWeights g communityOf).entries,
      (row.2.entries.map fun e => added row.1 e.1 e.2).sum =
        ∑ b ∈ (communityNodes g communityOf).toFinset, added row.1 b (row.2.amount b) := by
    intro row hrow
    have hget := ((pairWeights g communityOf).mem_entries_iff row.1 row.2).mp hrow
    refine sum_entries row.2 0 _ (fun b hb => ?_) (hadded row.1)
    exact (hkeys row.1 b (by rw [rowOf, hget]; exact hb)).2
  rw [List.map_congr_left hinner]
  have houter : ∀ a, (∑ b ∈ (communityNodes g communityOf).toFinset,
      added a b ((JsMap.empty : JsMap VertexId Rat).amount b)) = 0 := fun a =>
    sum_eq_zero fun b _ => hadded a b
  -- rows of communities only, or rows without entries
  have hsum := sum_entries (pairWeights g communityOf) JsMap.empty
    ((communityNodes g communityOf).toFinset ∪ (pairWeights g communityOf).keys.toFinset)
    (fun a ha => mem_union_right _ (List.mem_toFinset.mpr ha))
    (f := fun a row => ∑ b ∈ (communityNodes g communityOf).toFinset, added a b (row.amount b))
    houter
  rw [hsum]
  refine (sum_subset subset_union_left fun a _ ha => ?_).symm.trans
    (sum_congr rfl fun a _ => sum_congr rfl fun b _ => ?_)
  · refine sum_eq_zero fun b _ => ?_
    have hnone : (rowOf (pairWeights g communityOf) a).get b = none := by
      rw [← Option.not_isSome_iff_eq_none, ← mem_keys_iff]
      exact fun hb => ha (hkeys a b hb).1
    show added a b ((rowOf (pairWeights g communityOf) a).amount b) = 0
    rw [JsMap.amount, hnone]
    exact hadded a b
  · rw [← weight_pairWeights communityOf hg]
    rfl

variable (localeCompare : String → String → Int)

theorem measure_aggregate (hg : g.Valid) (measure : WeightedGraph → Rat)
    (added : VertexId → VertexId → Rat → Rat) (hadded : ∀ a b, added a b 0 = 0)
    (hstep : ∀ g a b w, 0 < w →
      measure (collapse localeCompare a g (b, w)) = measure g + added a b w) :
    measure (g.aggregate localeCompare communityOf) =
      measure (ofNodes (communityNodes g communityOf)) +
        ∑ a ∈ (communityNodes g communityOf).toFinset,
          ∑ b ∈ (communityNodes g communityOf).toFinset,
            added a b (weightBetween g communityOf a b) := by
  unfold WeightedGraph.aggregate
  rw [← sum_pairWeights communityOf hg hadded]
  apply List.foldl_measure
  intro g' row hrow
  apply List.foldl_measure
  intro g'' entry hentry
  refine hstep g'' row.1 entry.1 entry.2 ?_
  have hget := ((pairWeights g communityOf).mem_entries_iff row.1 row.2).mp hrow
  refine (rowsAmong_pairWeights communityOf hg row.1 entry.1 entry.2 ?_).2.2
  rw [rowOf, hget]
  exact (row.2.mem_entries_iff _ _).mp hentry

def degreeAdded (c a b : VertexId) (w : Rat) : Rat :=
  if a = b then if a = c then w else 0
  else if cmpId localeCompare a b > 0 then 0
  else (if a = c then w else 0) + if b = c then w else 0

theorem degree_collapse (c a b : VertexId) (g : WeightedGraph) {w : Rat} (hw : 0 < w) :
    (collapse localeCompare a g (b, w)).degree.amount c =
      g.degree.amount c + degreeAdded localeCompare c a b w := by
  unfold collapse degreeAdded
  by_cases hab : a = b
  · rw [if_pos hab, if_pos hab, if_neg (not_le.mpr (half_pos hw))]
    show (g.degree.add a (2 * (w / 2))).amount c = _
    rw [amount_add, mul_div_cancel₀ w two_ne_zero]
  · rw [if_neg hab, if_neg hab]
    by_cases hcmp : cmpId localeCompare a b > 0
    · rw [if_pos hcmp, if_pos hcmp, add_zero]
    · rw [if_neg hcmp, if_neg hcmp, if_neg (not_le.mpr hw)]
      show ((g.degree.add a w).add b w).amount c = _
      rw [amount_add, amount_add, add_assoc]

theorem loop_collapse (c a b : VertexId) (g : WeightedGraph) {w : Rat} (hw : 0 < w) :
    (collapse localeCompare a g (b, w)).weight c c =
      g.weight c c + if a = c ∧ b = c then w / 2 else 0 := by
  unfold collapse
  by_cases hab : a = b
  · subst hab
    rw [if_pos rfl, if_neg (not_le.mpr (half_pos hw)), weight_addLoop]
  · have hnone : ¬ (a = c ∧ b = c) := fun h => hab (h.1.trans h.2.symm)
    rw [if_neg hab, if_neg hnone]
    by_cases hcmp : cmpId localeCompare a b > 0
    · rw [if_pos hcmp, add_zero]
    · rw [if_neg hcmp, if_neg (not_le.mpr hw), weight_addBetween, if_neg hnone,
        if_neg fun h => hnone ⟨h.2, h.1⟩, add_zero]

def tiedWeight (g : WeightedGraph) (communityOf : JsMap VertexId VertexId) (c : VertexId) : Rat :=
  ∑ b ∈ (communityNodes g communityOf).toFinset with c ≠ b ∧ cmpId localeCompare c b = 0,
    weightBetween g communityOf c b

/-- The comparison of two strings changes sign with their order. -/
def Antisymmetric (localeCompare : String → String → Int) : Prop :=
  ∀ s t, 0 < localeCompare s t ↔ localeCompare t s < 0

variable {localeCompare}

theorem Antisymmetric.cmpId (h : Antisymmetric localeCompare) :
    ∀ a b, 0 < cmpId localeCompare a b ↔ cmpId localeCompare b a < 0
  | .num a, .num b => by
    show 0 < a - b ↔ b - a < 0
    omega
  | .num _, .str _ => h _ _
  | .str _, .num _ => h _ _
  | .str _, .str _ => h _ _

theorem degree_aggregate (hcompare : Antisymmetric localeCompare) (hg : g.Valid) {c : VertexId}
    (hc : c ∈ (communityNodes g communityOf).toFinset) :
    (g.aggregate localeCompare communityOf).degree.amount c =
      ∑ b ∈ (communityNodes g communityOf).toFinset, weightBetween g communityOf c b +
        tiedWeight localeCompare g communityOf c := by
  rw [measure_aggregate communityOf localeCompare hg (fun g => g.degree.amount c)
    (degreeAdded localeCompare c) (fun a b => by simp [degreeAdded])
    fun g a b w hw => degree_collapse localeCompare c a b g hw]
  -- as the first end of an entry, and as the second
  have hsplit : ∀ a b w, degreeAdded localeCompare c a b w =
      (if a = c then if c ≠ b ∧ cmpId localeCompare c b > 0 then 0 else w else 0) +
        if b = c then if a = c ∨ cmpId localeCompare a c > 0 then 0 else w else 0 := by
    intro a b w
    unfold degreeAdded
    by_cases hab : a = b
    · subst hab
      by_cases ha : a = c <;> simp [ha]
    · rw [if_neg hab]
      by_cases ha : a = c
      · subst ha
        simp [hab, Ne.symm hab]
      · by_cases hb : b = c
        · subst hb
          simp [ha]
        · simp [ha, hb]
  simp only [hsplit, sum_add_distrib]
  have hfirst : (∑ a ∈ (communityNodes g communityOf).toFinset,
      ∑ b ∈ (communityNodes g communityOf).toFinset, if a = c then
        if c ≠ b ∧ cmpId localeCompare c b > 0 then 0 else weightBetween g communityOf a b
        else 0) = ∑ b ∈ (communityNodes g communityOf).toFinset,
      if c ≠ b ∧ cmpId localeCompare c b > 0 then 0 else weightBetween g communityOf c b := by
    rw [sum_eq_single_of_mem c hc fun a _ hne => sum_eq_zero fun b _ => if_neg hne]
    exact sum_congr rfl fun b _ => if_pos rfl
  have hsecond : (∑ a ∈ (communityNodes g communityOf).toFinset,
      ∑ b ∈ (communityNodes g communityOf).toFinset, if b = c then
        if a = c ∨ cmpId localeCompare a c > 0 then 0 else weightBetween g communityOf a b
        else 0) = ∑ b ∈ (communityNodes g communityOf).toFinset,
      if b = c ∨ cmpId localeCompare b c > 0 then 0 else weightBetween g communityOf c b := by
    refine sum_congr rfl fun a _ => ?_
    rw [sum_ite_eq' _ c, if_pos hc, weightBetween_symm communityOf hg]
  rw [hfirst, hsecond, amount_degree_ofNodes, zero_add, tiedWeight, sum_filter,
    ← sum_add_distrib, ← sum_add_distrib]
  refine sum_congr rfl fun b _ => ?_
  by_cases hb : c = b
  · simp [hb]
  · have hback := hcompare.cmpId b c
    rcases lt_trichotomy (cmpId localeCompare c b) 0 with hlt | heq | hgt
    · simp [hb, Ne.symm hb, hlt.le, hback.mpr hlt, hlt.ne]
    · have hnot : ¬ 0 < cmpId localeCompare b c := fun h => by
        have := hback.mp h
        omega
      simp [hb, Ne.symm hb, heq, hnot]
    · have hnot : ¬ 0 < cmpId localeCompare b c := fun h => by
        have := hback.mp h
        omega
      simp [hb, Ne.symm hb, hgt, hgt.ne', hnot]

theorem loop_aggregate (hg : g.Valid) {c : VertexId}
    (hc : c ∈ (communityNodes g communityOf).toFinset) :
    (g.aggregate localeCompare communityOf).weight c c = weightBetween g communityOf c c / 2 := by
  rw [measure_aggregate communityOf localeCompare hg (fun g => g.weight c c)
    (fun a b w => if a = c ∧ b = c then w / 2 else 0) (fun a b => by simp)
    fun g a b w hw => loop_collapse localeCompare c a b g hw, weight_ofNodes, zero_add,
    sum_eq_single_of_mem c hc fun a _ hne =>
      sum_eq_zero fun b _ => if_neg fun h => hne h.1,
    sum_eq_single_of_mem c hc fun b _ hne => if_neg fun h => hne h.2, if_pos ⟨rfl, rfl⟩]

theorem aggregate_valid (localeCompare : String → String → Int) (hg : g.Valid) :
    (g.aggregate localeCompare communityOf).Valid ∧
      (g.aggregate localeCompare communityOf).nodes = communityNodes g communityOf := by
  have hrows := rowsAmong_pairWeights communityOf hg
  refine List.foldlRecOn (motive := fun g' : WeightedGraph => g'.Valid ∧
    g'.nodes = communityNodes g communityOf) _ _
    ⟨ofNodes_valid (nodup_communityNodes communityOf), rfl⟩ ?_
  intro g' hg' row hrow
  refine List.foldlRecOn (motive := fun g' : WeightedGraph => g'.Valid ∧
    g'.nodes = communityNodes g communityOf) _ _ hg' ?_
  rintro g' ⟨hvalid, hnodes⟩ ⟨b, w⟩ he
  obtain ⟨ha, hb, hw⟩ : row.1 ∈ g'.nodes ∧ b ∈ g'.nodes ∧ 0 < w := by
    rw [hnodes]
    refine hrows row.1 b w ?_
    rw [rowOf, (mem_entries_iff _ _ _).mp hrow]
    exact (mem_entries_iff _ _ _).mp he
  unfold collapse
  by_cases hab : row.1 = b
  · rw [if_pos hab, if_neg (not_le.mpr (half_pos hw))]
    exact ⟨hvalid.addLoop ha (half_pos hw), hnodes⟩
  · rw [if_neg hab]
    by_cases hcmp : cmpId localeCompare row.1 b > 0
    · rw [if_pos hcmp]
      exact ⟨hvalid, hnodes⟩
    · rw [if_neg hcmp, if_neg (not_le.mpr hw)]
      exact ⟨hvalid.addBetween ha hb hab hw, hnodes⟩

end Aggregation

/-! ## Totals during the moves -/

section Moves

variable {g : WeightedGraph} {resolution tolerance : Rat}

def memberDegree (g : WeightedGraph) (communityOf : JsMap VertexId VertexId) (c : VertexId) :
    Rat :=
  ∑ v ∈ g.nodes.toFinset with communityAt communityOf v = c, g.degree.amount v

/-- The running totals are the degrees of the current members. -/
def Tracks (g : WeightedGraph) (s : Communities) : Prop :=
  ∀ c, s.totalDegree.amount c = memberDegree g s.community c

theorem communityAt_set (communityOf : JsMap VertexId VertexId) (v u c : VertexId) :
    communityAt (communityOf.set v c) u = if v = u then c else communityAt communityOf u := by
  rw [communityAt, get_set]
  by_cases hv : v = u
  · rw [if_pos hv, if_pos hv, Option.getD_some]
  · rw [if_neg hv, if_neg hv, communityAt]

theorem communityAt_start (nodes : List VertexId) (v : VertexId) :
    communityAt (nodes.foldl (fun community v => JsMap.set community v v) JsMap.empty) v = v := by
  refine List.foldlRecOn (motive := fun community => communityAt community v = v) _ _ rfl ?_
  intro community hself n _
  rw [communityAt_set]
  by_cases hn : n = v
  · rw [if_pos hn, hn]
  · rw [if_neg hn, hself]

theorem tracks_start (g : WeightedGraph) : Tracks g (start g) := by
  intro c
  unfold memberDegree start
  rw [amount_setAll, amount_empty]
  simp only [communityAt_start]
  rw [sum_filter, sum_ite_eq']
  simp only [List.mem_toFinset]

theorem Tracks.moveNode {s : Communities} (h : Tracks g s) {v : VertexId} (hv : v ∈ g.nodes) :
    Tracks g (moveNode g resolution tolerance s v) := by
  intro c
  unfold Data.moveNode memberDegree
  simp only
  generalize bestCommunity _ _ _ _ _ = best
  rw [amount_add, amount_add, h c, memberDegree, sum_filter, sum_filter]
  have hmember : ∀ u, (if communityAt (s.community.set v best) u = c then g.degree.amount u
      else 0) = (if communityAt s.community u = c then g.degree.amount u else 0) +
        if v = u then (if communityAt s.community v = c then -g.degree.amount v else 0) +
          (if best = c then g.degree.amount v else 0) else 0 := fun u => by
    rw [communityAt_set]
    by_cases hu : v = u
    · subst hu
      rw [if_pos rfl, if_pos rfl]
      by_cases hc : communityAt s.community v = c <;> simp [hc]
    · rw [if_neg hu, if_neg hu, add_zero]
  rw [sum_congr rfl fun u _ => hmember u, sum_add_distrib, sum_ite_eq,
    if_pos (List.mem_toFinset.mpr hv), add_assoc]

theorem tracks_moves (g : WeightedGraph) (resolution tolerance : Rat) {vs : List VertexId}
    (hvs : vs ⊆ g.nodes) :
    Tracks g (vs.foldl (moveNode g resolution tolerance) (start g)) :=
  List.foldlRecOn (motive := Tracks g) _ _ (tracks_start g) fun _ hs _ hv => hs.moveNode (hvs hv)

theorem fst_movePass (g : WeightedGraph) (resolution tolerance : Rat) (s : Communities) :
    (movePass g resolution tolerance s).1 =
    g.nodes.foldl (moveNode g resolution tolerance) s := by
  unfold movePass
  generalize false = moved
  induction g.nodes generalizing s moved with
  | nil => rfl
  | cons v nodes ih => exact ih _ _

theorem localMoves_run (g : WeightedGraph) (resolution tolerance : Rat) (maxPasses : Nat) :
    ∃ vs ⊆ g.nodes, (localMoves g resolution tolerance maxPasses).1 =
      vs.foldl (moveNode g resolution tolerance) (start g) := by
  have hpasses : ∀ left s moved, ∃ vs ⊆ g.nodes,
      (movePasses g resolution tolerance left s moved).1 =
        vs.foldl (moveNode g resolution tolerance) s := by
    intro left
    induction left with
    | zero => exact fun s _ => ⟨[], List.nil_subset _, rfl⟩
    | succ left ih =>
      intro s moved
      have hfst := fst_movePass g resolution tolerance s
      unfold movePasses
      cases hpass : movePass g resolution tolerance s with
      | mk next again =>
        rw [hpass] at hfst
        cases again with
        | true =>
          obtain ⟨vs, hvs, hrun⟩ := ih next true
          refine ⟨g.nodes ++ vs, List.append_subset.mpr ⟨fun _ h => h, hvs⟩, ?_⟩
          rw [List.foldl_append, ← hfst]
          exact hrun
        | false => exact ⟨g.nodes, fun _ h => h, hfst⟩
  unfold localMoves
  split
  · exact ⟨[], List.nil_subset _, rfl⟩
  · exact hpasses _ _ _

end Moves

/-! ## What aggregation preserves -/

section Preserved

variable {g : WeightedGraph} {communityOf : JsMap VertexId VertexId}
  {localeCompare : String → String → Int}

def loopWeight (g : WeightedGraph) (communityOf : JsMap VertexId VertexId) (c : VertexId) : Rat :=
  ∑ v ∈ g.nodes.toFinset with communityAt communityOf v = c, g.weight v v

/-- The weight within a community, seen from each of its members; self-loops count twice. -/
def insideWeight (g : WeightedGraph) (community : VertexId → VertexId) (c : VertexId) : Rat :=
  ∑ v ∈ g.nodes.toFinset with community v = c,
    (∑ u ∈ g.nodes.toFinset with community u = c, g.weight v u + g.weight v v)

def modularity (g : WeightedGraph) (community : VertexId → VertexId) (resolution : Rat) : Rat :=
  ∑ c ∈ g.nodes.toFinset.image community, (insideWeight g community c / (2 * g.m) -
    resolution *
      ((∑ v ∈ g.nodes.toFinset with community v = c, g.degree.amount v) / (2 * g.m)) ^ 2)

/-- Aggregation keeps the total, the degrees and the modularity, and the moves before it keep
    the totals of the communities. -/
structure WeightsPreserved (localeCompare : String → String → Int) (g : WeightedGraph)
    (communityOf : JsMap VertexId VertexId) : Prop where
  total : 2 * (g.aggregate localeCompare communityOf).m = 2 * g.m
  degree : ∀ c ∈ (g.aggregate localeCompare communityOf).nodes,
    (g.aggregate localeCompare communityOf).degree.amount c = memberDegree g communityOf c
  running : ∀ resolution tolerance, ∀ vs ⊆ g.nodes,
    Tracks g (vs.foldl (moveNode g resolution tolerance) (start g))
  runs : ∀ resolution tolerance maxPasses, ∃ vs ⊆ g.nodes,
    (localMoves g resolution tolerance maxPasses).1 =
      vs.foldl (moveNode g resolution tolerance) (start g)
  modularity : ∀ resolution,
    modularity (g.aggregate localeCompare communityOf) (fun c => c) resolution =
      modularity g (communityAt communityOf) resolution

def NoLoops (g : WeightedGraph) : Prop := ∀ v ∈ g.nodes, g.weight v v = 0

/-- Two neighboring communities never compare as equal. -/
def NoTies (localeCompare : String → String → Int) (g : WeightedGraph)
    (communityOf : JsMap VertexId VertexId) : Prop :=
  ∀ v ∈ g.nodes, ∀ u ∈ g.nodes, g.weight v u ≠ 0 →
    communityAt communityOf v ≠ communityAt communityOf u →
    cmpId localeCompare (communityAt communityOf v) (communityAt communityOf u) ≠ 0

theorem toFinset_communityNodes (g : WeightedGraph) (communityOf : JsMap VertexId VertexId) :
    (communityNodes g communityOf).toFinset =
      g.nodes.toFinset.image (communityAt communityOf) := by
  ext c
  rw [List.mem_toFinset, mem_communityNodes, mem_image]
  simp only [List.mem_toFinset]

theorem communityAt_mem (communityOf : JsMap VertexId VertexId) {v : VertexId} (hv : v ∈ g.nodes) :
    communityAt communityOf v ∈ (communityNodes g communityOf).toFinset := by
  rw [toFinset_communityNodes]
  exact mem_image_of_mem _ (List.mem_toFinset.mpr hv)

theorem memberDegree_eq (hg : g.Valid) (c : VertexId) :
    memberDegree g communityOf c =
      ∑ b ∈ (communityNodes g communityOf).toFinset, weightBetween g communityOf c b +
        loopWeight g communityOf c := by
  unfold memberDegree loopWeight weightBetween
  rw [sum_congr rfl fun v _ => hg.degree v, sum_add_distrib]
  congr 1
  refine Eq.trans ?_ sum_comm
  refine sum_congr rfl fun v _ => ?_
  exact (sum_fiberwise_of_maps_to (fun u hu => communityAt_mem _ (List.mem_toFinset.mp hu))
    fun u => g.weight v u).symm

theorem sum_memberDegree (hg : g.Valid) :
    ∑ c ∈ (communityNodes g communityOf).toFinset, memberDegree g communityOf c = 2 * g.m := by
  rw [hg.total]
  exact sum_fiberwise_of_maps_to (fun v hv => communityAt_mem _ (List.mem_toFinset.mp hv))
    fun v => g.degree.amount v

theorem loopWeight_nonneg (hg : g.Valid) (c : VertexId) : 0 ≤ loopWeight g communityOf c :=
  sum_nonneg fun v _ => hg.weight_nonneg v v

theorem insideWeight_eq (g : WeightedGraph) (c : VertexId) :
    insideWeight g (communityAt communityOf) c =
      weightBetween g communityOf c c + loopWeight g communityOf c := by
  unfold insideWeight weightBetween loopWeight
  rw [sum_add_distrib]

theorem modularity_aggregate (hg : g.Valid) (resolution : Rat) :
    modularity (g.aggregate localeCompare communityOf) (fun c => c) resolution =
      ∑ c ∈ (communityNodes g communityOf).toFinset, (weightBetween g communityOf c c /
          (2 * (g.aggregate localeCompare communityOf).m) - resolution *
        ((g.aggregate localeCompare communityOf).degree.amount c /
          (2 * (g.aggregate localeCompare communityOf).m)) ^ 2) := by
  unfold modularity insideWeight
  rw [(aggregate_valid communityOf _ hg).2, image_id']
  refine sum_congr rfl fun c hc => ?_
  have hself : (communityNodes g communityOf).toFinset.filter (fun v => v = c) = {c} := by
    ext v
    rw [mem_filter, mem_singleton]
    exact ⟨And.right, fun h => ⟨h ▸ hc, h⟩⟩
  rw [hself, sum_singleton, sum_singleton, sum_singleton,
    loop_aggregate communityOf hg hc, add_halves]

theorem tiedWeight_eq_zero_iff (hg : g.Valid) :
    (∀ c ∈ (communityNodes g communityOf).toFinset,
      tiedWeight localeCompare g communityOf c = 0) ↔ NoTies localeCompare g communityOf := by
  have hterm : ∀ c b, weightBetween g communityOf c b = 0 ↔ ∀ v ∈ g.nodes,
      communityAt communityOf v = c → ∀ u ∈ g.nodes, communityAt communityOf u = b →
        g.weight v u = 0 := by
    intro c b
    unfold weightBetween
    rw [sum_eq_zero_iff_of_nonneg fun v _ =>
      sum_nonneg fun u _ => hg.weight_nonneg v u]
    simp only [mem_filter, List.mem_toFinset, and_imp]
    refine forall₃_congr fun v _ _ => ?_
    rw [sum_eq_zero_iff_of_nonneg fun u _ => hg.weight_nonneg v u]
    simp only [mem_filter, List.mem_toFinset, and_imp]
  have htied : ∀ c, tiedWeight localeCompare g communityOf c = 0 ↔
      ∀ b ∈ (communityNodes g communityOf).toFinset, c ≠ b → cmpId localeCompare c b = 0 →
        weightBetween g communityOf c b = 0 := by
    intro c
    unfold tiedWeight
    rw [sum_eq_zero_iff_of_nonneg fun b _ => weightBetween_nonneg communityOf hg c b]
    simp only [mem_filter, and_imp]
  constructor
  · intro h v hv u hu hweight hne hcmp
    refine hweight ((hterm _ _).mp
      ((htied _).mp (h _ (communityAt_mem _ hv)) _ (communityAt_mem _ hu)
      hne hcmp) v hv rfl u hu rfl)
  · intro h c hc
    rw [htied]
    intro b hb hne hcmp
    rw [hterm]
    rintro v hv rfl u hu rfl
    by_contra hweight
    exact h v hv u hu hweight hne hcmp

/-- Aggregation preserves the weights if and only if no node has a self-loop and no two joined
    communities have ids that compare equal. -/
theorem aggregate_preserves_iff (hcompare : Antisymmetric localeCompare) (g : WeightedGraph)
    (hg : g.Valid) (communityOf : JsMap VertexId VertexId) :
    WeightsPreserved localeCompare g communityOf ↔
      NoLoops g ∧ NoTies localeCompare g communityOf := by
  obtain ⟨hvalid, hnodes⟩ := aggregate_valid communityOf localeCompare hg
  have hdegree : ∀ c ∈ (communityNodes g communityOf).toFinset,
      (g.aggregate localeCompare communityOf).degree.amount c + loopWeight g communityOf c =
        memberDegree g communityOf c + tiedWeight localeCompare g communityOf c := fun c hc => by
    rw [degree_aggregate communityOf hcompare hg hc, memberDegree_eq hg]
    ring
  constructor
  · intro h
    have hsame : ∀ c ∈ (communityNodes g communityOf).toFinset,
        loopWeight g communityOf c = tiedWeight localeCompare g communityOf c := fun c hc => by
      have hkept := h.degree c (hnodes ▸ List.mem_toFinset.mp hc)
      have hsum := hdegree c hc
      linarith
    -- the modularity shows that the self-loops are no weight at all
    have hloops : ∀ c ∈ (communityNodes g communityOf).toFinset,
        loopWeight g communityOf c = 0 := by
      have hmod := h.modularity 0
      rw [modularity_aggregate hg, modularity, ← toFinset_communityNodes, h.total] at hmod
      simp only [zero_mul, sub_zero, insideWeight_eq] at hmod
      rw [← sum_div, ← sum_div, sum_add_distrib] at hmod
      by_cases hm : 2 * g.m = 0
      · have hzero : ∀ v ∈ g.nodes.toFinset, g.degree.amount v = 0 := by
          rw [← sum_eq_zero_iff_of_nonneg, ← hg.total, hm]
          intro v _
          rw [hg.degree v]
          exact add_nonneg (sum_nonneg fun u _ => hg.weight_nonneg v u)
            (hg.weight_nonneg v v)
        intro c _
        refine sum_eq_zero fun v hv => ?_
        have hv := hzero v (mem_filter.mp hv).1
        rw [hg.degree v] at hv
        have hsum : 0 ≤ ∑ u ∈ g.nodes.toFinset, g.weight v u :=
          sum_nonneg fun u _ => hg.weight_nonneg v u
        have hloop : 0 ≤ g.weight v v := hg.weight_nonneg v v
        linarith
      · rw [div_left_inj' hm] at hmod
        rw [← sum_eq_zero_iff_of_nonneg fun c _ => loopWeight_nonneg hg c]
        linarith
    refine ⟨fun v hv => ?_, (tiedWeight_eq_zero_iff hg).mp fun c hc => ?_⟩
    · have hzero := hloops _ (communityAt_mem communityOf hv)
      unfold loopWeight at hzero
      rw [sum_eq_zero_iff_of_nonneg fun v _ => hg.weight_nonneg v v] at hzero
      exact hzero v (mem_filter.mpr ⟨List.mem_toFinset.mpr hv, rfl⟩)
    · rw [← hsame c hc, hloops c hc]
  · rintro ⟨hloops, hties⟩
    have hloop : ∀ c, loopWeight g communityOf c = 0 := fun c =>
      sum_eq_zero fun v hv => hloops v (List.mem_toFinset.mp (mem_filter.mp hv).1)
    have hkept : ∀ c ∈ (communityNodes g communityOf).toFinset,
        (g.aggregate localeCompare communityOf).degree.amount c =
          memberDegree g communityOf c := fun c hc => by
      have hsum := hdegree c hc
      rw [hloop c, (tiedWeight_eq_zero_iff hg).mpr hties c hc, add_zero, add_zero] at hsum
      exact hsum
    have htotal : 2 * (g.aggregate localeCompare communityOf).m = 2 * g.m := by
      rw [hvalid.total, hnodes, sum_congr rfl hkept, sum_memberDegree hg]
    refine ⟨htotal, fun c hc => hkept c ?_, fun resolution tolerance vs hvs =>
      tracks_moves g resolution tolerance hvs, localMoves_run g, fun resolution => ?_⟩
    · rw [hnodes] at hc
      exact List.mem_toFinset.mpr hc
    · rw [modularity_aggregate hg, modularity, ← toFinset_communityNodes, htotal]
      refine sum_congr rfl fun c hc => ?_
      rw [hkept c hc, insideWeight_eq, hloop c, add_zero, memberDegree]

end Preserved

def compareUnits (s t : String) : Int := if s < t then -1 else if t < s then 1 else 0

theorem antisymmetric_compareUnits : Antisymmetric compareUnits := by
  intro s t
  unfold compareUnits
  rcases lt_trichotomy s t with h | rfl | h
  · simp [h, h.not_gt]
  · simp
  · simp [h, h.not_gt]

/-- A self-loop next to an edge, both of which end up within one community. -/
def loopedPair : WeightedGraph :=
  buildWeighted [.num 1, .num 2]
    ([(.num 1, .num 1), (.num 1, .num 2)] : List (VertexId × VertexId)) none

/-- After the moves of the first level half of the self-loop is lost. -/
theorem aggregate_halves_loop : ¬ ∀ (localeCompare : String → String → Int),
    Antisymmetric localeCompare → ∀ g : WeightedGraph, g.Valid → ∀ communityOf,
      WeightsPreserved localeCompare g communityOf := by
  intro h
  have htotal := (h compareUnits antisymmetric_compareUnits loopedPair
    (buildWeighted_valid (by decide) _ _)
    (localMoves loopedPair 1 (1 / 10000000) 50).1.community).total
  revert htotal
  decide +kernel

/-- Two parallel edges and a third one. -/
def shortPath : WeightedGraph :=
  buildWeighted [.num 1, .num 2, .num 3]
    ([(.num 1, .num 2), (.num 2, .num 1), (.num 2, .num 3)] : List (VertexId × VertexId)) none

theorem aggregate_preserves_path : WeightsPreserved compareUnits shortPath
    (localMoves shortPath 1 (1 / 10000000) 50).1.community :=
  (aggregate_preserves_iff antisymmetric_compareUnits shortPath
    (buildWeighted_valid (by decide) _ _) _).mpr
    ⟨by unfold NoLoops; decide +kernel, by unfold NoTies; decide +kernel⟩

end Promin.Data
