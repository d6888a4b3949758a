import Promin.Data.CommunityDetection

/-!
# Weighted graphs

The degrees and the total of a weighted graph follow from its weights.  The two steps that add
to a weight keep this, so it holds of every graph that is built with them.
-/

namespace Promin.Data

open Finset JsMap List

namespace WeightedGraph

def weight (g : WeightedGraph) (a b : VertexId) : Rat := (rowOf g.adj a).amount b

def RowsAmong (nodes : List VertexId) (adj : WeightRows) : Prop :=
  ∀ a b w, (rowOf adj a).get b = some w → a ∈ nodes ∧ b ∈ nodes ∧ 0 < w

/-- Degrees and total agree with the weights, which are symmetric. -/
structure Valid (g : WeightedGraph) : Prop where
  nodup : g.nodes.Nodup
  listed : ∀ v ∈ g.nodes, (g.adj.get v).isSome ∧ (g.degree.get v).isSome
  rows : RowsAmong g.nodes g.adj
  symm : ∀ a b, g.weight a b = g.weight b a
  degree : ∀ v, g.degree.amount v = ∑ u ∈ g.nodes.toFinset, g.weight v u + g.weight v v
  total : 2 * g.m = ∑ v ∈ g.nodes.toFinset, g.degree.amount v

theorem rowOf_set (adj : WeightRows) (a x : VertexId) (row : JsMap VertexId Rat) :
    rowOf (adj.set a row) x = if a = x then row else rowOf adj x := by
  rw [rowOf, get_set]
  by_cases ha : a = x
  · rw [if_pos ha, if_pos ha, Option.getD_some]
  · rw [if_neg ha, if_neg ha, rowOf]

theorem amount_addWeight (adj : WeightRows) (a b x y : VertexId) (w : Rat) :
    (rowOf (addWeight adj a b w) x).amount y =
      (rowOf adj x).amount y + if a = x ∧ b = y then w else 0 := by
  rw [addWeight, rowOf_set]
  by_cases ha : a = x
  · subst ha
    rw [if_pos rfl, amount_add]
    simp
  · rw [if_neg ha, if_neg fun h => ha h.1, add_zero]

variable {w : Rat} {a b : VertexId} {adj : WeightRows} {nodes : List VertexId}

theorem RowsAmong.amount_nonneg
    (h : RowsAmong nodes adj) (a b : VertexId) : 0 ≤ (rowOf adj a).amount b := by
  rw [JsMap.amount]
  cases hget : (rowOf adj a).get b with
  | none => exact le_refl 0
  | some w => exact (h a b w hget).2.2.le

theorem RowsAmong.addWeight (h : RowsAmong nodes adj) (ha : a ∈ nodes) (hb : b ∈ nodes)
    (hw : 0 < w) : RowsAmong nodes (addWeight adj a b w) := by
  intro x y q hget
  rw [Data.addWeight, rowOf_set] at hget
  by_cases hx : a = x
  · subst hx
    rw [if_pos rfl, JsMap.add, get_set] at hget
    by_cases hy : b = y
    · subst hy
      rw [if_pos rfl] at hget
      refine ⟨ha, hb, ?_⟩
      rw [← Option.some.inj hget]
      exact add_pos_of_nonneg_of_pos (h.amount_nonneg a b) hw
    · rw [if_neg hy] at hget
      exact h a y q hget
  · rw [if_neg hx] at hget
    exact h x y q hget

theorem isSome_get_addWeight {x : VertexId} (h : (adj.get x).isSome)
    (a b : VertexId) (w : Rat) : ((addWeight adj a b w).get x).isSome := by
  rw [addWeight, isSome_get_set, h, Bool.or_true]

/-! ## Adding to a graph -/

variable {g : WeightedGraph}

theorem Valid.weight_nonneg (hg : g.Valid) (a b : VertexId) : 0 ≤ g.weight a b :=
  hg.rows.amount_nonneg a b

theorem weight_addLoop (g : WeightedGraph) (a x y : VertexId) (w : Rat) :
    (g.addLoop a w).weight x y = g.weight x y + if a = x ∧ a = y then w else 0 :=
  amount_addWeight g.adj a a x y w

theorem weight_addBetween (g : WeightedGraph) (a b x y : VertexId) (w : Rat) :
    (g.addBetween a b w).weight x y = g.weight x y + (if a = x ∧ b = y then w else 0) +
      if b = x ∧ a = y then w else 0 := by
  show (rowOf (addWeight (addWeight g.adj a b w) b a w) x).amount y = _
  rw [amount_addWeight, amount_addWeight]
  rfl

theorem sum_ite_row {nodes : Finset VertexId} (hb : b ∈ nodes) (x : VertexId)
    (w : Rat) : ∑ y ∈ nodes, (if a = x ∧ b = y then w else 0) = if a = x then w else 0 := by
  by_cases ha : a = x
  · simp only [ha, true_and, if_true]
    rw [sum_ite_eq, if_pos hb]
  · simp only [ha, false_and, if_false, sum_const_zero]

theorem Valid.addLoop (hg : g.Valid) (ha : a ∈ g.nodes) (hw : 0 < w) :
    (g.addLoop a w).Valid where
  nodup := hg.nodup
  listed := fun v hv => by
    obtain ⟨hadj, hdegree⟩ := hg.listed v hv
    refine ⟨isSome_get_addWeight hadj _ _ _, ?_⟩
    show ((g.degree.set a _).get v).isSome
    rw [isSome_get_set, hdegree, Bool.or_true]
  rows := hg.rows.addWeight ha ha hw
  symm := fun x y => by
    rw [weight_addLoop, weight_addLoop, hg.symm x y]
    simp only [and_comm]
  degree := fun v => by
    have hmem : a ∈ g.nodes.toFinset := mem_toFinset.mpr ha
    show (g.degree.add a (2 * w)).amount v = ∑ u ∈ g.nodes.toFinset, (g.addLoop a w).weight v u + _
    rw [amount_add, hg.degree v, sum_congr rfl fun u _ => weight_addLoop g a v u w,
      sum_add_distrib, sum_ite_row hmem, weight_addLoop]
    by_cases hv : a = v
    · simp only [hv, and_self, if_true]
      ring
    · rw [if_neg hv, if_neg hv, if_neg fun h => hv h.1]
      ring
  total := by
    have hmem : a ∈ g.nodes.toFinset := mem_toFinset.mpr ha
    show 2 * (g.m + w) = (g.degree.add a (2 * w)).total g.nodes.toFinset
    rw [total_add g.degree hmem, JsMap.total, ← hg.total]
    ring

theorem Valid.addBetween (hg : g.Valid) (ha : a ∈ g.nodes) (hb : b ∈ g.nodes)
    (hne : a ≠ b) (hw : 0 < w) : (g.addBetween a b w).Valid where
  nodup := hg.nodup
  listed := fun v hv => by
    obtain ⟨hadj, hdegree⟩ := hg.listed v hv
    refine ⟨isSome_get_addWeight (isSome_get_addWeight hadj _ _ _) _ _ _, ?_⟩
    show (((g.degree.set a _).set b _).get v).isSome
    rw [isSome_get_set, isSome_get_set, hdegree, Bool.or_true, Bool.or_true]
  rows := (hg.rows.addWeight ha hb hw).addWeight hb ha hw
  symm := fun x y => by
    rw [weight_addBetween, weight_addBetween, hg.symm x y, add_assoc, add_assoc,
      add_comm (ite (a = x ∧ b = y) w 0)]
    simp only [and_comm]
  degree := fun v => by
    have hmema : a ∈ g.nodes.toFinset := mem_toFinset.mpr ha
    have hmemb : b ∈ g.nodes.toFinset := mem_toFinset.mpr hb
    show ((g.degree.add a w).add b w).amount v =
      ∑ u ∈ g.nodes.toFinset, (g.addBetween a b w).weight v u + _
    rw [amount_add, amount_add, hg.degree v,
      sum_congr rfl fun u _ => weight_addBetween g a b v u w, sum_add_distrib,
      sum_add_distrib, sum_ite_row hmemb, sum_ite_row hmema, weight_addBetween,
      if_neg (fun h : a = v ∧ b = v => hne (h.1.trans h.2.symm)),
      if_neg (fun h : b = v ∧ a = v => hne (h.2.trans h.1.symm))]
    ring
  total := by
    have hmema : a ∈ g.nodes.toFinset := mem_toFinset.mpr ha
    have hmemb : b ∈ g.nodes.toFinset := mem_toFinset.mpr hb
    show 2 * (g.m + w) = ((g.degree.add a w).add b w).total g.nodes.toFinset
    rw [total_add _ hmemb, total_add _ hmema, JsMap.total, ← hg.total]
    ring

/-! ## Graphs that are built -/

theorem rowOf_ofNodes (nodes : List VertexId) (v : VertexId) :
    rowOf (ofNodes nodes).adj v = JsMap.empty := by
  refine foldlRecOn (motive := fun adj => rowOf adj v = JsMap.empty) _ _ rfl ?_
  intro adj hempty n _
  rw [rowOf_set, hempty, ite_self]

theorem weight_ofNodes (nodes : List VertexId) (a b : VertexId) :
    (ofNodes nodes).weight a b = 0 := by
  rw [weight, rowOf_ofNodes, amount_empty]

theorem amount_degree_ofNodes (nodes : List VertexId) (v : VertexId) :
    (ofNodes nodes).degree.amount v = 0 := by
  show (nodes.foldl (fun degree n => JsMap.set degree n (0 : Rat)) JsMap.empty).amount v = 0
  rw [amount_setAll (fun _ => (0 : Rat)), amount_empty, ite_self]

theorem ofNodes_valid (h : nodes.Nodup) : (ofNodes nodes).Valid where
  nodup := h
  listed := fun v (hv : v ∈ nodes) => by
    refine ⟨?_, ?_⟩
    · show ((nodes.foldl (fun adj n => JsMap.set adj n JsMap.empty) JsMap.empty).get v).isSome
      rw [isSome_get_setAll, decide_eq_true hv, Bool.true_or]
    · show ((nodes.foldl (fun degree n => JsMap.set degree n (0 : Rat)) JsMap.empty).get v).isSome
      rw [isSome_get_setAll (fun _ => (0 : Rat)), decide_eq_true hv, Bool.true_or]
  rows := fun a b w hget => by
    rw [rowOf_ofNodes] at hget
    exact nomatch hget
  symm := fun a b => by rw [weight_ofNodes, weight_ofNodes]
  degree := fun v => by
    rw [amount_degree_ofNodes, sum_congr rfl fun u _ => weight_ofNodes nodes v u,
      sum_const_zero, weight_ofNodes, add_zero]
  total := by
    rw [sum_congr rfl fun v _ => amount_degree_ofNodes nodes v, sum_const_zero]
    exact mul_zero 2

end WeightedGraph

open WeightedGraph

variable {E : Type} [Edge E]

theorem enterEdge_valid {weightColumn : Option (E → JsNumber)} {g : WeightedGraph}
    (hg : g.Valid) (e : E) : (enterEdge weightColumn g e).Valid ∧
      (enterEdge weightColumn g e).nodes = g.nodes := by
  unfold enterEdge
  split
  · exact ⟨hg, rfl⟩
  · rename_i hends
    simp only [Bool.or_eq_true, Bool.not_eq_true', not_or, Bool.not_eq_false,
      contains_iff_mem] at hends
    split
    · rename_i w _
      split
      · exact ⟨hg, rfl⟩
      · rename_i hw
        split
        · exact ⟨hg.addLoop hends.1 (not_le.mp hw), rfl⟩
        · rename_i hne
          exact ⟨hg.addBetween hends.1 hends.2 hne (not_le.mp hw), rfl⟩
    · exact ⟨hg, rfl⟩

theorem buildWeighted_valid {nodes : List VertexId} (hnodes : nodes.Nodup) (edges : List E)
    (weightColumn : Option (E → JsNumber)) : (buildWeighted nodes edges weightColumn).Valid :=
  foldlRecOn (motive := WeightedGraph.Valid) _ _ (ofNodes_valid hnodes) fun _ hg e _ =>
    (enterEdge_valid hg e).1

end Promin.Data
