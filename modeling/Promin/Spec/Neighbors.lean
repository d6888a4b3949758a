import Promin.ForStd.Layers
import Promin.Spec.Triangles

/-!
# Neighbors by distance

A pass over the edges does not go on from what it has added itself, so each hop adds exactly the
next layer of ids, whatever the order of the edges.
-/

namespace Promin.Data

open Layers List

def Direction.Forward (direction : Direction) : Prop := direction = .out ∨ direction = .both

def Direction.Backward (direction : Direction) : Prop := direction = .incoming ∨ direction = .both

namespace GraphFrame

variable {V E : Type} [Vertex V] [Edge E]

def Leads (direction : Direction) (e : E) (a b : VertexId) : Prop :=
  (direction.Forward ∧ Edge.src e = a ∧ Edge.dst e = b) ∨
    (direction.Backward ∧ Edge.dst e = a ∧ Edge.src e = b)

/-- Some edge leads from `a` to `b`. -/
def Adjacent (g : GraphFrame V E) (direction : Direction) (a b : VertexId) : Prop :=
  ∃ e ∈ g.edges, Leads direction e a b

/-! ## One pass -/

structure Touched (start : List VertexId) (touched : VertexId → Prop) (hop : Hop) : Prop where
  next : ∀ x, x ∈ hop.next ↔ x ∉ start ∧ touched x
  reached : ∀ x, x ∈ hop.reached ↔ x ∈ start ∨ touched x

theorem Touched.follow {start : List VertexId} {touched : VertexId → Prop} {hop : Hop}
    (h : Touched start touched hop) (frontier : List VertexId) (allowed : Bool)
    (src dst : VertexId) :
    Touched start (fun x => touched x ∨ (allowed = true ∧ src ∈ frontier ∧ dst = x))
      (hop.follow allowed frontier src dst) := by
  unfold Hop.follow
  by_cases hgo : (allowed && frontier.contains src && !hop.reached.contains dst) = true
  · rw [if_pos hgo]
    simp only [Bool.and_eq_true, contains_iff_mem, Bool.not_eq_true',
      ← Bool.not_eq_true] at hgo
    obtain ⟨⟨hallowed, hsrc⟩, hnew⟩ := hgo
    have hdst := fun hd => hnew ((h.reached dst).mpr hd)
    constructor
    · intro x
      rw [mem_addToSet, h.next]
      by_cases hx : x = dst
      · subst hx
        simp [hallowed, hsrc, not_or.mp hdst]
      · simp [hx, Ne.symm hx]
    · intro x
      rw [mem_addToSet, h.reached, or_assoc]
      simp [hallowed, hsrc, eq_comm]
  · rw [if_neg hgo]
    -- the edge is not followed, or its end is not new
    have hold : ∀ x, allowed = true ∧ src ∈ frontier ∧ dst = x → x ∈ start ∨ touched x := by
      rintro x ⟨hallowed, hsrc, rfl⟩
      by_contra hx
      apply hgo
      simp [hallowed, hsrc, mt (h.reached dst).mp hx]
    constructor
    · intro x
      rw [h.next]
      have := hold x
      tauto
    · intro x
      rw [h.reached]
      have := hold x
      tauto

theorem touched_pass (direction : Direction) (frontier start : List VertexId) (edges : List E)
    {touched : VertexId → Prop} {hop : Hop} (h : Touched start touched hop) :
    Touched start (fun x => touched x ∨ ∃ e ∈ edges, ∃ a ∈ frontier, Leads direction e a x)
      (edges.foldl (hopAlong direction frontier) hop) := by
  induction edges generalizing touched hop with
  | nil => simpa using h
  | cons e edges ih =>
    have hboth := ih ((h.follow frontier (direction = .out || direction = .both)
      (Edge.src e) (Edge.dst e)).follow frontier
      (direction = .incoming || direction = .both) (Edge.dst e) (Edge.src e))
    rw [foldl_cons]
    -- both ways along `e` make what `e` leads to
    have heq : (fun x => touched x ∨ ∃ e' ∈ e :: edges, ∃ a ∈ frontier, Leads direction e' a x) =
        fun x => ((touched x ∨ (direction = .out || direction = .both) = true ∧
          Edge.src e ∈ frontier ∧ Edge.dst e = x) ∨
          (direction = .incoming || direction = .both) = true ∧
          Edge.dst e ∈ frontier ∧ Edge.src e = x) ∨
          ∃ e' ∈ edges, ∃ a ∈ frontier, Leads direction e' a x := by
      funext x
      simp [Leads, Direction.Forward, Direction.Backward, or_assoc, and_or_left, or_and_right,
        exists_or]
      grind
    rw [heq]
    exact hboth

omit [Vertex V] in
theorem hop_spec (g : GraphFrame V E) (direction : Direction) {id : VertexId} {k : Nat}
    {frontier reached : List VertexId}
    (hfrontier : ∀ x, x ∈ frontier ↔ AtDistance (g.Adjacent direction) id k x)
    (hreached : ∀ x, x ∈ reached ↔ Within (g.Adjacent direction) id k x) :
    let hop := g.edges.foldl (hopAlong direction frontier) { next := [], reached }
    (∀ x, x ∈ hop.next ↔ AtDistance (g.Adjacent direction) id (k + 1) x) ∧
      ∀ x, x ∈ hop.reached ↔ Within (g.Adjacent direction) id (k + 1) x := by
  intro hop
  have hstart : Touched reached (fun _ => False) { next := [], reached } :=
    ⟨fun x => by simp, fun x => by simp⟩
  have hpass := touched_pass direction frontier reached g.edges hstart
  have htouched : ∀ x, (False ∨ ∃ e ∈ g.edges, ∃ a ∈ frontier, Leads direction e a x) ↔
      ∃ a, AtDistance (g.Adjacent direction) id k a ∧ g.Adjacent direction a x := fun x => by
    rw [false_or]
    constructor
    · rintro ⟨e, he, a, ha, hleads⟩
      exact ⟨a, (hfrontier a).mp ha, e, he, hleads⟩
    · rintro ⟨a, ha, e, he, hleads⟩
      exact ⟨e, he, a, (hfrontier a).mpr ha, hleads⟩
  have hnext : ∀ x, x ∈ hop.next ↔ AtDistance (g.Adjacent direction) id (k + 1) x := fun x => by
    rw [hpass.next, htouched, hreached, atDistance_succ_iff]
  refine ⟨hnext, fun x => ?_⟩
  rw [hpass.reached, htouched, within_succ_iff, atDistance_succ_iff, hreached]
  tauto

omit [Vertex V] in
theorem mem_hops (g : GraphFrame V E) (direction : Direction) {id : VertexId} :
    ∀ (left : Nat) {k : Nat} {frontier reached : List VertexId},
    (∀ x, x ∈ frontier ↔ AtDistance (g.Adjacent direction) id k x) →
    (∀ x, x ∈ reached ↔ Within (g.Adjacent direction) id k x) →
    ∀ x, x ∈ hops g direction left frontier reached ↔
      Within (g.Adjacent direction) id (k + left) x
  | 0, _, _, _, _, hreached, x => hreached x
  | left + 1, k, frontier, reached, hfrontier, hreached, x => by
    obtain ⟨hnext, hreached'⟩ := hop_spec g direction hfrontier hreached
    rw [hops]
    split
    · rename_i hempty
      have hnil := length_eq_zero_iff.mp hempty
      have hnone : ∀ y, ¬ AtDistance (g.Adjacent direction) id (k + 1) y := fun y hy => by
        have hmem := (hnext y).mpr hy
        rw [hnil] at hmem
        exact not_mem_nil hmem
      rw [hreached']
      constructor
      · rintro ⟨j, hj, hdist⟩
        exact ⟨j, by omega, hdist⟩
      · intro hwithin
        obtain ⟨j, hj, hdist⟩ := within_of_empty hnone hwithin
        exact ⟨j, by omega, hdist⟩
    · rw [mem_hops g direction left hnext hreached', Nat.add_right_comm, Nat.add_assoc]

/-- The neighbors are the vertices at distance `1` to `depth`, each once. -/
theorem neighbors_iff (g : GraphFrame V E) (hids : g.ids.Nodup) (id : VertexId) (depth : Nat)
    (direction : Direction) :
    ((g.neighbors id depth direction).map Vertex.id).Nodup ∧
      ∀ v, v ∈ g.neighbors id depth direction ↔ v ∈ g.vertices ∧
        ∃ k, 1 ≤ k ∧ k ≤ depth ∧ AtDistance (g.Adjacent direction) id k (Vertex.id v) := by
  have hstart : ∀ x, x ∈ [id] ↔ AtDistance (g.Adjacent direction) id 0 x := fun x => by
    rw [atDistance_zero_iff, mem_singleton]
  have hreached := mem_hops g direction depth hstart fun x => by
    rw [within_zero_iff, mem_singleton]
  constructor
  · exact hids.sublist (filter_sublist.map Vertex.id)
  · intro v
    rw [neighbors, mem_filter, contains_iff_mem, mem_filter, hreached, Nat.zero_add,
      bne_iff_ne]
    refine and_congr_right fun _ => ⟨?_, ?_⟩
    · rintro ⟨⟨k, hk, hdist⟩, hne⟩
      refine ⟨k, Nat.one_le_iff_ne_zero.mpr ?_, hk, hdist⟩
      rintro rfl
      exact hne (atDistance_zero_iff.mp hdist)
    · rintro ⟨k, hpos, hk, hdist⟩
      refine ⟨⟨k, hk, hdist⟩, fun heq => ?_⟩
      -- the start is at distance `0` and at no other
      have hzero := hdist.unique (atDistance_zero_iff.mpr heq)
      omega

end GraphFrame

/-- A square with edges in mixed directions: the far corner is not farther than two hops. -/
def squareGraph : GraphFrame VertexId (VertexId × VertexId) where
  vertices := [.num 1, .num 2, .num 3, .num 4]
  edges := [(.num 1, .num 2), (.num 2, .num 4), (.num 1, .num 3), (.num 4, .num 3)]

theorem neighbors_iff_square : ∃ k, 1 ≤ k ∧ k ≤ 2 ∧
    AtDistance (squareGraph.Adjacent .both) (.num 1) k (.num 4) :=
  (((GraphFrame.neighbors_iff squareGraph (by decide) (.num 1) 2 .both).2 (.num 4)).mp
    (by decide)).2

end Promin.Data
