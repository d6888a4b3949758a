import Promin.Spec.Components
import Promin.Spec.Louvain

/-!
# Communities are connected

A vertex moves to the community of a neighbor, and communities are joined by
the edges of their members. What ends up in one community is therefore
connected, whatever the weights were.
-/

namespace Promin.Data

open JsMap WeightedGraph List

section Communities

variable {V E : Type} [Vertex V] [Edge E] {R : VertexId → VertexId → Prop}

/-! ## Edges within a relation -/

def RowsWithin (R : VertexId → VertexId → Prop) (adj : WeightRows) : Prop :=
  ∀ a b w, (rowOf adj a).get b = some w → R a b

theorem rowsWithin_ofNodes (nodes : List VertexId) : RowsWithin R (ofNodes nodes).adj := by
  intro a b w hget
  rw [rowOf_ofNodes] at hget
  cases hget

theorem RowsWithin.addWeight {adj : WeightRows} (h : RowsWithin R adj) {a b : VertexId}
    (hab : R a b) (w : Rat) : RowsWithin R (addWeight adj a b w) := by
  intro x y q hget
  rw [Data.addWeight, rowOf_set] at hget
  by_cases hx : a = x
  · subst hx
    rw [if_pos rfl, JsMap.add, get_set] at hget
    by_cases hy : b = y
    · exact hy ▸ hab
    · rw [if_neg hy] at hget
      exact h a y q hget
  · rw [if_neg hx] at hget
    exact h x y q hget

/-- The edges with a weight that is entered. -/
def hasWeight (weightColumn : Option (E → JsNumber)) (e : E) : Bool :=
  match edgeWeight weightColumn e with
  | .finite w => decide (0 < w)
  | _ => false

variable {g : WeightedGraph} {communityOf : JsMap VertexId VertexId} (hR : Equivalence R)

include hR

theorem buildWeighted_within {nodes : List VertexId} {edges : List E}
    {weightColumn : Option (E → JsNumber)}
    (hedges : ∀ e ∈ edges, hasWeight weightColumn e = true → Edge.src e ∈ nodes →
      Edge.dst e ∈ nodes → R (Edge.src e) (Edge.dst e)) :
    RowsWithin R (buildWeighted nodes edges weightColumn).adj := by
  refine (foldlRecOn (motive := fun g : WeightedGraph => g.nodes = nodes ∧ RowsWithin R g.adj)
    edges (enterEdge weightColumn) ⟨rfl, rowsWithin_ofNodes nodes⟩ ?_).2
  rintro g ⟨hnodes, hrows⟩ e he
  unfold enterEdge
  split
  · exact ⟨hnodes, hrows⟩
  · rename_i hends
    simp only [Bool.or_eq_true, Bool.not_eq_true', not_or, Bool.not_eq_false,
      contains_iff_mem, hnodes] at hends
    split
    · rename_i w hweight
      split
      · exact ⟨hnodes, hrows⟩
      · rename_i hw
        have hlink := hedges e he (by simpa [hasWeight, hweight] using hw) hends.1 hends.2
        split
        · exact ⟨hnodes, hrows.addWeight (hR.refl _) w⟩
        · exact ⟨hnodes, (hrows.addWeight hlink w).addWeight (hR.symm hlink) w⟩
    · exact ⟨hnodes, hrows⟩

/-! ## Moves -/

omit hR in
/-- Every vertex is related to its label. -/
def LabelsWithin (R : VertexId → VertexId → Prop) (communityOf : JsMap VertexId VertexId) : Prop :=
  ∀ v, R v (communityAt communityOf v)

theorem labelsWithin_start (nodes : List VertexId) :
    LabelsWithin R (nodes.foldl (fun community v => community.set v v) JsMap.empty) := by
  intro v
  rw [communityAt_start]
  exact hR.refl v

theorem weightsToCommunities_within (hg : RowsWithin R g.adj) (h : LabelsWithin R communityOf)
    (v : VertexId) : ∀ c ∈ (weightsToCommunities g communityOf v).entries, R v c.1 := by
  have hkeys : ∀ c w, (weightsToCommunities g communityOf v).get c = some w → R v c := by
    unfold weightsToCommunities
    refine foldlRecOn (motive := fun toComm : JsMap VertexId Rat =>
      ∀ c w, toComm.get c = some w → R v c) _ _ (fun _ _ hnone => by cases hnone) ?_
    intro toComm ih nbr hnbr c w hget
    split at hget
    · exact ih c w hget
    · rw [JsMap.add, get_set] at hget
      by_cases hc : communityAt communityOf nbr.1 = c
      · have hlink := hg v nbr.1 nbr.2 ((mem_entries_iff _ _ _).mp hnbr)
        exact hc ▸ hR.trans hlink (h nbr.1)
      · rw [if_neg hc] at hget
        exact ih c w hget
  exact fun c hc => hkeys c.1 c.2 ((mem_entries_iff _ _ _).mp hc)

theorem LabelsWithin.moveNode (hg : RowsWithin R g.adj) (resolution tolerance : Rat)
    {s : Communities} (h : LabelsWithin R s.community) (v : VertexId) :
    LabelsWithin R (moveNode g resolution tolerance s v).community := by
  intro u
  unfold Data.moveNode
  rw [communityAt_set]
  by_cases hv : v = u
  · subst hv
    rw [if_pos rfl]
    refine foldlRecOn (motive := fun best : VertexId × Rat => R v best.1) _ _ (h v) ?_
    intro best hbest c hc
    dsimp only
    split
    · exact weightsToCommunities_within hR hg h v c hc
    · exact hbest
  · rw [if_neg hv]
    exact h u

theorem localMoves_within (hg : RowsWithin R g.adj) (resolution tolerance : Rat)
    (maxPasses : Nat) :
    LabelsWithin R (localMoves g resolution tolerance maxPasses).1.community := by
  obtain ⟨vs, -, hrun⟩ := localMoves_run g resolution tolerance maxPasses
  rw [hrun]
  exact foldlRecOn (motive := fun s : Communities => LabelsWithin R s.community) _ _
    (labelsWithin_start hR g.nodes) fun s hs v _ => hs.moveNode hR hg resolution tolerance v

/-! ## Levels -/

theorem aggregate_within (localeCompare : String → String → Int) (hg : RowsWithin R g.adj)
    (h : LabelsWithin R communityOf) :
    RowsWithin R (g.aggregate localeCompare communityOf).adj := by
  have hpairs : RowsWithin R (pairWeights g communityOf) := by
    refine foldlRecOn (motive := RowsWithin R) _ _ (fun _ _ _ hnone => by cases hnone) ?_
    intro adj hadj v _
    refine foldlRecOn (motive := RowsWithin R) _ _ hadj ?_
    intro adj hadj nbr hnbr
    -- from one label to a member, along the edge, and to the other label
    have hlink := hg v nbr.1 nbr.2 ((mem_entries_iff _ _ _).mp hnbr)
    exact hadj.addWeight (hR.trans (hR.symm (h v)) (hR.trans hlink (h nbr.1))) _
  refine foldlRecOn (motive := fun g : WeightedGraph => RowsWithin R g.adj) _ _
    (rowsWithin_ofNodes _) ?_
  intro g' hg' row hrow
  refine foldlRecOn (motive := fun g : WeightedGraph => RowsWithin R g.adj) _ _ hg' ?_
  intro g'' hg'' entry hentry
  have hlink : R row.1 entry.1 := by
    refine hpairs row.1 entry.1 entry.2 ?_
    rw [rowOf, (mem_entries_iff _ _ _).mp hrow]
    exact (mem_entries_iff _ _ _).mp hentry
  unfold collapse
  split
  · dsimp only
    split
    · exact hg''
    · exact hg''.addWeight (hR.refl _) _
  · split
    · exact hg''
    · split
      · exact hg''
      · exact (hg''.addWeight hlink _).addWeight (hR.symm hlink) _

omit [Edge E] in
theorem levels_within (localeCompare : String → String → Int)
    (options : CommunityDetectionOptions E)
    (left : Nat) (first : Bool) (hg : RowsWithin R g.adj) (h : LabelsWithin R communityOf) :
    LabelsWithin R (levels localeCompare options left first g communityOf) := by
  induction left generalizing first g communityOf with
  | zero => exact h
  | succ left ih =>
    have hmoves := localMoves_within hR hg options.resolution options.tolerance
      options.maxLocalPasses
    unfold levels
    cases hrun : localMoves g options.resolution options.tolerance options.maxLocalPasses with
    | mk s moved =>
      rw [hrun] at hmoves
      -- a label is a node of the collapsed graph, and moves there in turn
      have hnext : LabelsWithin R (communityOf.map (communityAt s.community)) := by
        intro v
        have hv := h v
        rw [communityAt] at hv ⊢
        rw [get_map]
        cases hget : communityOf.get v with
        | none => exact hR.refl v
        | some c =>
          rw [hget] at hv
          exact hR.trans hv (hmoves c)
      dsimp only
      split
      · exact h
      · split
        · exact hnext
        · exact ih false (aggregate_within hR localeCompare hg hmoves) hnext

end Communities

/-! ## Numbers -/

section Numbers

variable {V E : Type} [Vertex V] [Edge E] {communityOf : JsMap VertexId VertexId}

/-- The rows so far, and the labels they have met. -/
structure Numbered (communityOf : JsMap VertexId VertexId) (vertices : List V)
    (s : List (V × Nat) × JsMap VertexId Nat) : Prop where
  vertices : s.1.map Prod.fst = vertices
  number : ∀ row ∈ s.1, s.2.get (communityAt communityOf (Vertex.id row.1)) = some row.2
  below : ∀ l n, s.2.get l = some n → n < s.2.size
  distinct : ∀ l l' n, s.2.get l = some n → s.2.get l' = some n → l = l'
  used : ∀ n < s.2.size, ∃ row ∈ s.1, row.2 = n

theorem numberCommunities_spec (communityOf : JsMap VertexId VertexId) (vertices : List V) :
    ∃ commId, Numbered communityOf vertices (numberCommunities communityOf vertices, commId) := by
  refine ⟨_, (?_ : Numbered communityOf vertices (vertices.foldl _ _))⟩
  induction vertices using reverseRecOn with
  | nil =>
    constructor
    · rfl
    · exact forall_mem_nil _
    · exact fun _ _ h => by cases h
    · exact fun _ _ _ h => by cases h
    · exact fun _ h => absurd h (Nat.not_lt_zero _)
  | append_singleton vertices v h =>
    rw [foldl_append, foldl_cons, foldl_nil]
    generalize foldl _ _ vertices = s at h ⊢
    obtain ⟨rows, commId⟩ := s
    dsimp only at h ⊢
    cases hget : commId.get (communityAt communityOf (Vertex.id v)) with
    | some n =>
      refine ⟨by simp [h.vertices], ?_, h.below, h.distinct, fun k hk => ?_⟩
      · intro row hrow
        rcases mem_append.mp hrow with hrow | hrow
        · exact h.number row hrow
        · exact mem_singleton.mp hrow ▸ hget
      · obtain ⟨row, hrow, heq⟩ := h.used k hk
        exact ⟨row, mem_append_left _ hrow, heq⟩
    | none =>
      have hset : ∀ l n, (commId.set (communityAt communityOf (Vertex.id v)) commId.size).get l =
          some n ↔ communityAt communityOf (Vertex.id v) = l ∧ commId.size = n ∨
            communityAt communityOf (Vertex.id v) ≠ l ∧ commId.get l = some n := by
        intro l n
        rw [get_set]
        by_cases hl : communityAt communityOf (Vertex.id v) = l <;> simp [hl]
      have hsize := size_set_of_none commId.size hget
      refine ⟨by simp [h.vertices], ?_, ?_, ?_, ?_⟩
      · intro row hrow
        rw [hset]
        rcases mem_append.mp hrow with hrow | hrow
        · refine .inr ⟨fun hl => ?_, h.number row hrow⟩
          have hnumber := h.number row hrow
          rw [← hl, hget] at hnumber
          cases hnumber
        · obtain rfl := mem_singleton.mp hrow
          exact .inl ⟨rfl, rfl⟩
      · intro l n hn
        show n < (commId.set _ _).size
        rw [hsize]
        rcases (hset l n).mp hn with ⟨-, rfl⟩ | ⟨-, hold⟩
        · exact Nat.lt_succ_self _
        · exact Nat.lt_succ_of_lt (h.below l n hold)
      · -- the new number is larger than all before
        intro l l' n hl hl'
        rcases (hset l n).mp hl with ⟨rfl, rfl⟩ | ⟨-, hl⟩ <;>
          rcases (hset l' _).mp hl' with ⟨rfl, hn⟩ | ⟨-, hl'⟩
        · rfl
        · exact absurd (h.below _ _ hl') (Nat.lt_irrefl _)
        · exact absurd (hn ▸ h.below _ _ hl) (Nat.lt_irrefl _)
        · exact h.distinct l l' n hl hl'
      · intro k (hk : k < (commId.set _ _).size)
        rw [hsize] at hk
        rcases Nat.lt_succ_iff_lt_or_eq.mp hk with hk | rfl
        · obtain ⟨row, hrow, heq⟩ := h.used k hk
          exact ⟨row, mem_append_left _ hrow, heq⟩
        · exact ⟨(v, commId.size), by simp, rfl⟩

/-- Every vertex gets one community, the communities are numbered without gaps, and two vertices
are in one community only where edges of positive weight connect them. -/
theorem communities_connected (localeCompare : String → String → Int) (g : GraphFrame V E)
    (options : CommunityDetectionOptions E) :
    let rows := communityDetection localeCompare g options
    let weighted := { g with edges := g.edges.filter (hasWeight options.weightColumn) }
    rows.map Prod.fst = g.vertices ∧
      (∀ row ∈ rows, ∀ n < row.2, ∃ row' ∈ rows, row'.2 = n) ∧
      ∀ row ∈ rows, ∀ row' ∈ rows, row.2 = row'.2 →
        weighted.undirected.Reachable (Vertex.id row.1) (Vertex.id row'.1) := by
  intro rows weighted
  have hR : Equivalence weighted.undirected.Reachable := SimpleGraph.reachable_is_equivalence _
  have hedges : ∀ e ∈ g.edges, hasWeight options.weightColumn e = true → Edge.src e ∈ g.ids →
      Edge.dst e ∈ g.ids → weighted.undirected.Reachable (Edge.src e) (Edge.dst e) := by
    intro e he hweight hsrc hdst
    rw [GraphFrame.undirected, ← eqvGen_iff_reachable]
    exact .rel _ _ ⟨hsrc, hdst, e, mem_filter.mpr ⟨he, hweight⟩, rfl, rfl⟩
  obtain ⟨current, hcurrent, hrows⟩ :
      ∃ current, LabelsWithin weighted.undirected.Reachable current ∧
      rows = numberCommunities current g.vertices := by
    refine ⟨_, levels_within hR localeCompare options options.maxLevels true
      (buildWeighted_within hR hedges) (labelsWithin_start hR g.ids), ?_⟩
    show (if g.vertices.length = 0 then [] else _) = _
    split
    · rename_i hempty
      rw [length_eq_zero_iff.mp hempty]
      rfl
    · rfl
  obtain ⟨commId, h⟩ := numberCommunities_spec current g.vertices
  rw [hrows]
  refine ⟨h.vertices, fun row hrow n hn => ?_, fun row hrow row' hrow' hsame => ?_⟩
  · exact h.used n (Nat.lt_trans hn (h.below _ _ (h.number row hrow)))
  · have hlabel := h.distinct _ _ _ (h.number row hrow) (hsame ▸ h.number row' hrow')
    exact hR.trans (hcurrent _) (hlabel ▸ hR.symm (hcurrent _))

end Numbers

end Promin.Data
