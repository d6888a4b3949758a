import Mathlib.Algebra.Order.BigOperators.Group.Finset
import Mathlib.Combinatorics.SimpleGraph.Clique
import Promin.Data.TriangleCount

/-!
# Triangles counted once

A vertex finds the triangles all of whose other corners are greater, so a
triangle is counted as often as it has a least corner in the list of vertices:
never if `cmp` runs in a circle on its corners, and twice if that corner is
listed twice.
-/

namespace Promin.Data

open Finset JsMap

section Triangles

variable {V E : Type} [Vertex V] [Edge E]

/-! ## Neighbors -/

def Joined (g : GraphFrame V E) (a b : VertexId) : Prop :=
  a ≠ b ∧ ∃ e ∈ g.edges, Edge.src e = a ∧ Edge.dst e = b ∨ Edge.src e = b ∧ Edge.dst e = a

instance (g : GraphFrame V E) (a b : VertexId) : Decidable (Joined g a b) :=
  inferInstanceAs (Decidable (_ ∧ _))

variable {g : GraphFrame V E}

omit [Vertex V] in
theorem Joined.symm {a b : VertexId} (h : Joined g a b) : Joined g b a := by
  obtain ⟨hne, e, he, h⟩ := h
  exact ⟨hne.symm, e, he, h.symm⟩

variable {α : Type} {u v : VertexId} {set : List VertexId}

theorem mem_addToSet {x y : VertexId} :
    y ∈ addToSet x set ↔ y ∈ set ∨ y = x := by
  unfold addToSet
  split
  · rename_i hx
    rw [List.contains_iff_mem] at hx
    constructor
    · exact .inl
    · rintro (h | rfl)
      · exact h
      · exact hx
  · rw [List.mem_append, List.mem_singleton]

theorem nodup_addToSet {x : VertexId} (h : set.Nodup) :
    (addToSet x set).Nodup := by
  unfold addToSet
  split
  · exact h
  · rename_i hx
    rw [List.contains_iff_mem] at hx
    exact List.nodup_append.mpr ⟨h, List.nodup_singleton x, by
      rintro a ha b hb rfl
      rw [List.mem_singleton] at hb
      exact hx (hb ▸ ha)⟩

theorem get_addTo (key x v : VertexId) (adj : JsMap VertexId (List VertexId)) :
    (addTo key x adj).get v =
      if v = key then (adj.get v).map (addToSet x) else adj.get v := by
  unfold addTo
  cases hkey : adj.get key with
  | none =>
    dsimp only
    split
    · rename_i hv
      rw [hv, hkey]
      rfl
    · rfl
  | some set =>
    dsimp only
    rw [get_set]
    by_cases hv : v = key
    · rw [if_pos hv.symm, if_pos hv, hv, hkey]
      rfl
    · rw [if_neg (Ne.symm hv), if_neg hv]

structure NeighborsOf (edges : List E) (v : VertexId) (set : List VertexId) : Prop where
  nodup : set.Nodup
  mem : ∀ n, n ∈ set ↔ n ≠ v ∧ ∃ e ∈ edges,
    Edge.src e = v ∧ Edge.dst e = n ∨ Edge.src e = n ∧ Edge.dst e = v

theorem get_addEdge (adj : JsMap VertexId (List VertexId)) (e : E) (v : VertexId) :
    (addEdge adj e).get v = (adj.get v).map fun set =>
      if Edge.src e = Edge.dst e then set
      else if v = Edge.src e then addToSet (Edge.dst e) set
      else if v = Edge.dst e then addToSet (Edge.src e) set
      else set := by
  unfold addEdge
  by_cases hloop : Edge.src e = Edge.dst e
  · simp [hloop]
  rw [if_neg hloop, get_addTo, get_addTo]
  simp only [if_neg hloop]
  by_cases hsrc : v = Edge.src e
  · have hdst : v ≠ Edge.dst e := hsrc ▸ hloop
    rw [if_neg hdst, if_pos hsrc]
    simp only [if_pos hsrc]
  · simp only [if_neg hsrc]
    by_cases hdst : v = Edge.dst e
    · simp only [if_pos hdst]
    · simp only [if_neg hdst]
      exact Option.map_id'.symm ▸ rfl

variable {v : VertexId}

theorem NeighborsOf.next {edges : List E} (h : NeighborsOf edges v set) (e : E) :
    NeighborsOf (edges ++ [e]) v (if Edge.src e = Edge.dst e then set
      else if v = Edge.src e then addToSet (Edge.dst e) set
      else if v = Edge.dst e then addToSet (Edge.src e) set
      else set) := by
  have hmem : ∀ n, n ∈ set ∨ n ≠ v ∧ (Edge.src e = v ∧ Edge.dst e = n ∨
      Edge.src e = n ∧ Edge.dst e = v) ↔ n ≠ v ∧ ∃ e' ∈ edges ++ [e],
        Edge.src e' = v ∧ Edge.dst e' = n ∨ Edge.src e' = n ∧ Edge.dst e' = v := by
    intro n
    rw [h.mem, ← and_or_left]
    simp only [List.mem_append, List.mem_singleton, or_and_right, exists_or, exists_eq_left]
  constructor
  · split
    · exact h.nodup
    split
    · exact nodup_addToSet h.nodup
    split
    · exact nodup_addToSet h.nodup
    · exact h.nodup
  · intro n
    rw [← hmem]
    split
    · -- a self-loop makes no neighbor
      rename_i hloop
      constructor
      · exact .inl
      · rintro (hn | ⟨hne, ⟨hs, hd⟩ | ⟨hs, hd⟩⟩)
        · exact hn
        · exact absurd (hd.symm.trans (hloop.symm.trans hs)) hne
        · exact absurd (hs.symm.trans (hloop.trans hd)) hne
    rename_i hloop
    split
    · rename_i hsrc
      rw [mem_addToSet]
      refine or_congr_right ⟨?_, ?_⟩
      · rintro rfl
        exact ⟨fun hd => hloop (hsrc ▸ hd.symm), .inl ⟨hsrc.symm, rfl⟩⟩
      · rintro ⟨hne, ⟨-, hd⟩ | ⟨hs, -⟩⟩
        · exact hd.symm
        · exact absurd (hs.symm.trans hsrc.symm) hne
    rename_i hsrc
    split
    · rename_i hdst
      rw [mem_addToSet]
      refine or_congr_right ⟨?_, ?_⟩
      · rintro rfl
        exact ⟨fun hs => hsrc hs.symm, .inr ⟨rfl, hdst.symm⟩⟩
      · rintro ⟨-, ⟨hs, -⟩ | ⟨hs, -⟩⟩
        · exact absurd hs.symm hsrc
        · exact hs.symm
    · rename_i hdst
      constructor
      · exact .inl
      · rintro (hn | ⟨-, ⟨hs, -⟩ | ⟨-, hd⟩⟩)
        · exact hn
        · exact absurd hs.symm hsrc
        · exact absurd hd.symm hdst

/-- The neighbor set of a vertex, without its order. -/
def neighbors (g : GraphFrame V E) (v : VertexId) : List VertexId :=
  ((neighborSets g).get v).getD []

theorem isSome_neighborSets (g : GraphFrame V E) (v : VertexId) :
    ((neighborSets g).get v).isSome ↔ v ∈ g.ids := by
  have hedges : ∀ adj : JsMap VertexId (List VertexId),
      ((g.edges.foldl addEdge adj).get v).isSome = (adj.get v).isSome := fun adj =>
    List.foldlRecOn (motive := fun adj' => (get adj' v).isSome = (adj.get v).isSome) _ _ rfl
      fun adj' h e _ => by rw [get_addEdge, Option.isSome_map, h]
  rw [neighborSets, hedges, get_foldl_set Vertex.id fun _ => []]
  unfold GraphFrame.ids
  split <;> simp [*]

theorem neighbors_spec (g : GraphFrame V E) (hv : v ∈ g.ids) :
    (neighborSets g).get v = some (neighbors g v) ∧ NeighborsOf g.edges v (neighbors g v) := by
  have hstart : (g.vertices.foldl (fun adj v => adj.set (Vertex.id v) [])
      (empty : JsMap VertexId (List VertexId))).get v = some [] := by
    rw [get_foldl_set Vertex.id fun _ => []]
    exact if_pos hv
  have hedges : ∀ (edges done : List E) (adj : JsMap VertexId (List VertexId)) set,
      adj.get v = some set → NeighborsOf done v set →
      ∃ set', (edges.foldl addEdge adj).get v = some set' ∧ NeighborsOf (done ++ edges) v set' := by
    intro edges
    induction edges with
    | nil => exact fun done adj set hset h => ⟨set, hset, by rwa [List.append_nil]⟩
    | cons e rest ih =>
      intro done adj set hset h
      have hstep := get_addEdge adj e v
      rw [hset, Option.map_some] at hstep
      obtain ⟨set', hset', h'⟩ := ih (done ++ [e]) (addEdge adj e) _ hstep (h.next e)
      rw [List.append_assoc] at h'
      exact ⟨set', hset', h'⟩
  obtain ⟨set, hset, h⟩ := hedges g.edges [] _ [] hstart
    ⟨List.nodup_nil, by simp⟩
  have hneighbors : neighbors g v = set := by
    show ((neighborSets g).get v).getD [] = set
    rw [neighborSets, hset]
    rfl
  rw [hneighbors]
  exact ⟨hset, h⟩

theorem mem_neighbors {n : VertexId} (hv : v ∈ g.ids) :
    n ∈ neighbors g v ↔ Joined g v n := by
  rw [(neighbors_spec g hv).2.mem, Joined, ne_comm]

/-! ## Pairs -/

def pairsOf {α : Type} : List α → List (α × α)
  | [] => []
  | u :: rest => rest.map (fun w => (u, w)) ++ pairsOf rest

theorem mem_pairsOf {l : List α} {u w : α} :
    (u, w) ∈ pairsOf l ↔ [u, w].Sublist l := by
  induction l with
  | nil => simp [pairsOf]
  | cons x rest ih =>
    rw [pairsOf, List.mem_append, List.mem_map, ih]
    constructor
    · rintro (⟨w', hw', heq⟩ | h)
      · cases heq
        exact (List.singleton_sublist.mpr hw').cons_cons u
      · exact h.cons x
    · intro h
      cases h with
      | cons _ h => exact .inr h
      | cons_cons _ h => exact .inl ⟨w, List.singleton_sublist.mp h, rfl⟩

theorem nodup_pairsOf {l : List α} (h : l.Nodup) : (pairsOf l).Nodup := by
  induction l with
  | nil => exact List.nodup_nil
  | cons x rest ih =>
    obtain ⟨hx, hrest⟩ := List.nodup_cons.mp h
    rw [pairsOf, List.nodup_append]
    refine ⟨hrest.map fun _ _ heq => (Prod.mk.inj heq).2, ih hrest, ?_⟩
    rintro p hp q hq rfl
    obtain ⟨w, -, rfl⟩ := List.mem_map.mp hp
    exact hx ((mem_pairsOf.mp hq).subset List.mem_cons_self)

theorem pairsOf_total {l : List α} {u w : α} (hu : u ∈ l) (hw : w ∈ l) (hne : u ≠ w) :
    (u, w) ∈ pairsOf l ∨ (w, u) ∈ pairsOf l := by
  induction l with
  | nil => exact nomatch hu
  | cons x rest ih =>
    simp only [pairsOf, List.mem_append, List.mem_map, Prod.mk.injEq]
    rw [List.mem_cons] at hu hw
    rcases hu with rfl | hu <;> rcases hw with rfl | hw
    · exact absurd rfl hne
    · exact .inl (.inl ⟨w, hw, rfl, rfl⟩)
    · exact .inr (.inl ⟨u, hu, rfl, rfl⟩)
    · exact (ih hu hw).imp .inr .inr

/-- Not both of two items come first. -/
theorem pairsOf_asymm {l : List α} (h : l.Nodup) {u w : α} (huw : (u, w) ∈ pairsOf l) :
    (w, u) ∉ pairsOf l := by
  induction l with
  | nil => exact fun hnil => nomatch hnil
  | cons x rest ih =>
    obtain ⟨hx, hrest⟩ := List.nodup_cons.mp h
    simp only [pairsOf, List.mem_append, List.mem_map, Prod.mk.injEq] at huw ⊢
    have hlater : ∀ {a b : α}, (a, b) ∈ pairsOf rest → a ∈ rest ∧ b ∈ rest := fun hab =>
      ⟨(mem_pairsOf.mp hab).subset List.mem_cons_self,
        (mem_pairsOf.mp hab).subset (List.mem_cons_of_mem _ List.mem_cons_self)⟩
    rcases huw with ⟨w', hw', rfl, rfl⟩ | huw
    · rintro (⟨u', hu', rfl, rfl⟩ | hwu)
      · exact hx hw'
      · exact hx (hlater hwu).2
    · rintro (⟨u', hu', rfl, rfl⟩ | hwu)
      · exact hx (hlater huw).2
      · exact ih hrest huw hwu

/-! ## What one vertex counts -/

/-- The sets of three that the pairs of a list make with `v`. -/
def found (g : GraphFrame V E) (v : VertexId) (l : List VertexId) : List (Finset VertexId) :=
  ((pairsOf l).filter fun p => decide (Joined g p.1 p.2)).map fun p => {v, p.1, p.2}

theorem get_bump (triangles : JsMap VertexId Nat) (y x : VertexId) :
    ((bump triangles y).get x).getD 0 = (triangles.get x).getD 0 + if y = x then 1 else 0 := by
  unfold bump
  rw [get_set]
  split
  · rename_i h
    rw [h]
    rfl
  · rfl

omit [Vertex V] in
theorem found_cons (g : GraphFrame V E) (v u : VertexId) (rest : List VertexId) :
    found g v (u :: rest) =
      ((rest.filter fun w => decide (Joined g u w)).map fun w => {v, u, w}) ++ found g v rest := by
  simp [found, pairsOf, List.filter_map, List.map_map, Function.comp_def]

omit [Vertex V] [Edge E] in
theorem bumps_eq {w : VertexId} (hvu : v ≠ u) (hvw : v ≠ w) (huw : u ≠ w) (x : VertexId) :
    (if v = x then 1 else 0) + (if u = x then 1 else 0) + (if w = x then 1 else 0) =
      if x = v ∨ x = u ∨ x = w then 1 else 0 := by
  by_cases hv : v = x
  · subst hv
    rw [if_pos rfl, if_neg (Ne.symm hvu), if_neg (Ne.symm hvw), if_pos (.inl rfl)]
  · rw [if_neg hv]
    by_cases hu : u = x
    · subst hu
      rw [if_pos rfl, if_neg (Ne.symm huw), if_pos (.inr (.inl rfl))]
    · rw [if_neg hu]
      by_cases hw : w = x
      · rw [if_pos hw, if_pos (.inr (.inr hw.symm))]
      · rw [if_neg hw, if_neg]
        rintro (h | h | h)
        · exact hv h.symm
        · exact hu h.symm
        · exact hw h.symm

omit [Vertex V] in
theorem get_foldl_bump (g : GraphFrame V E) (hvu : v ≠ u)
    {uAdj : List VertexId} (hadj : ∀ w, w ∈ uAdj ↔ Joined g u w) (x : VertexId) :
    ∀ (rest : List VertexId) (triangles : JsMap VertexId Nat), v ∉ rest → u ∉ rest →
      ((rest.foldl (fun triangles w =>
        if uAdj.contains w then bump (bump (bump triangles v) u) w else triangles)
        triangles).get x).getD 0 = (triangles.get x).getD 0 +
          ((rest.filter fun w => decide (Joined g u w)).map
            fun w => ({v, u, w} : Finset VertexId)).countP (x ∈ ·) := by
  intro rest
  induction rest with
  | nil => simp
  | cons w rest ih =>
    intro triangles hv hu
    rw [List.mem_cons, not_or] at hv hu
    rw [List.foldl_cons, ih _ hv.2 hu.2, List.filter_cons]
    have hcontains : uAdj.contains w = decide (Joined g u w) := by
      rw [Bool.eq_iff_iff, List.contains_iff_mem, hadj, decide_eq_true_eq]
    rw [hcontains]
    by_cases hw : Joined g u w
    · simp only [decide_eq_true hw, if_true]
      rw [get_bump, get_bump, get_bump, List.map_cons, List.countP_cons]
      simp only [mem_insert, mem_singleton, decide_eq_true_eq]
      have hbumps := bumps_eq hvu hv.1 hu.1 x
      omega
    · simp only [decide_eq_false hw, Bool.false_eq_true, if_false]

def QuietAt (g : GraphFrame V E) (l : List VertexId) : Prop := ∀ u ∈ l.dropLast, u ∈ g.ids

omit [Edge E] in
theorem QuietAt.tail {rest : List VertexId} (h : QuietAt g (u :: rest)) : QuietAt g rest := by
  cases rest with
  | nil => exact fun _ hnil => nomatch hnil
  | cons w rest => exact fun x hx => h x (List.mem_cons_of_mem _ hx)

theorem countPairs_spec :
    ∀ (l : List VertexId) (triangles : JsMap VertexId Nat), (v :: l).Nodup → QuietAt g l →
      ∃ triangles', countPairs (neighborSets g) v l triangles = .ok triangles' ∧
        ∀ x, (triangles'.get x).getD 0 =
          (triangles.get x).getD 0 + (found g v l).countP (x ∈ ·) := by
  intro l
  induction l with
  | nil => exact fun triangles _ _ => ⟨triangles, rfl, fun x => rfl⟩
  | cons u rest ih =>
    intro triangles hnodup hquiet
    obtain ⟨hv, hnodup⟩ := List.nodup_cons.mp hnodup
    obtain ⟨hu, hrest⟩ := List.nodup_cons.mp hnodup
    rw [List.mem_cons, not_or] at hv
    have hvrest : (v :: rest).Nodup := List.nodup_cons.mpr ⟨hv.2, hrest⟩
    unfold countPairs
    cases hadj : (neighborSets g).get u with
    | some uAdj =>
      dsimp only
      have huid : u ∈ g.ids := (isSome_neighborSets g u).mp (by rw [hadj]; rfl)
      have hmem : ∀ w, w ∈ uAdj ↔ Joined g u w := by
        intro w
        rw [← mem_neighbors huid, neighbors, hadj]
        rfl
      obtain ⟨triangles', hok, hcount⟩ := ih _ hvrest hquiet.tail
      refine ⟨triangles', hok, fun x => ?_⟩
      rw [hcount, get_foldl_bump g hv.1 hmem x rest triangles hv.2 hu, found_cons,
        List.countP_append, Nat.add_assoc]
    | none =>
      have huid : u ∉ g.ids := fun h => by
        rw [← isSome_neighborSets, hadj] at h
        exact absurd h Bool.false_ne_true
      cases rest with
      | nil => exact ⟨triangles, rfl, fun x => rfl⟩
      | cons w rest => exact absurd (hquiet u List.mem_cons_self) huid

theorem countPairs_throws :
    ∀ (l : List VertexId) (triangles : JsMap VertexId Nat), ¬ QuietAt g l →
      countPairs (neighborSets g) v l triangles = .error (.readOfUndefined "has") := by
  intro l
  induction l with
  | nil => exact fun _ h => absurd (fun _ hnil => nomatch hnil) h
  | cons u rest ih =>
    intro triangles h
    unfold countPairs
    cases rest with
    | nil => exact absurd (fun _ hnil => nomatch hnil) h
    | cons w rest =>
      cases hadj : (neighborSets g).get u with
      | none => rfl
      | some uAdj =>
        apply ih
        intro hrest
        refine h fun x hx => ?_
        rcases List.mem_cons.mp hx with rfl | hx
        · exact (isSome_neighborSets g x).mp (by rw [hadj]; rfl)
        · exact hrest x hx

/-! ## Triangles and their least corners -/

/-- The sets of three ids any two of which an edge joins, whether they are vertices or not. -/
def cliques (g : GraphFrame V E) : Finset (Finset VertexId) :=
  ((g.edges.flatMap fun e => [Edge.src e, Edge.dst e]).toFinset.powersetCard 3).filter
    fun t => ∀ a ∈ t, ∀ b ∈ t, a ≠ b → Joined g a b

/-- The triangles among the listed vertices. -/
def triangles (g : GraphFrame V E) : Finset (Finset VertexId) :=
  (cliques g).filter (· ⊆ g.ids.toFinset)

/-- All other corners are greater. -/
def Least (localeCompare : String → String → Int) (t : Finset VertexId) (v : VertexId) : Prop :=
  v ∈ t ∧ ∀ u ∈ t, u ≠ v → cmp localeCompare u v > 0

instance (localeCompare : String → String → Int) (t : Finset VertexId) (v : VertexId) :
    Decidable (Least localeCompare t v) :=
  inferInstanceAs (Decidable (_ ∧ _))

/-- How many vertices are the least corner of a set. -/
def timesCounted (localeCompare : String → String → Int) (g : GraphFrame V E)
    (t : Finset VertexId) : Nat :=
  g.ids.countP fun v => decide (Least localeCompare t v)

omit [Vertex V] in
theorem mem_cliques {t : Finset VertexId} :
    t ∈ cliques g ↔ t.card = 3 ∧ ∀ a ∈ t, ∀ b ∈ t, a ≠ b → Joined g a b := by
  rw [cliques, mem_filter, mem_powersetCard]
  constructor
  · rintro ⟨⟨-, hcard⟩, hjoined⟩
    exact ⟨hcard, hjoined⟩
  rintro ⟨hcard, hjoined⟩
  refine ⟨⟨fun a ha => ?_, hcard⟩, hjoined⟩
  -- every corner is the end of an edge to another one
  obtain ⟨b, hb, hne⟩ := exists_mem_ne (by omega : 1 < t.card) a
  obtain ⟨-, e, he, hends⟩ := hjoined a ha b hb hne.symm
  rw [List.mem_toFinset, List.mem_flatMap]
  refine ⟨e, he, ?_⟩
  rcases hends with ⟨hs, -⟩ | ⟨-, hd⟩
  · simp [hs]
  · simp [hd]

variable {localeCompare : String → String → Int}

theorem mem_greaterNeighbors {n : VertexId} (hv : v ∈ g.ids) :
    n ∈ greaterNeighbors localeCompare (neighborSets g) v ↔
      Joined g v n ∧ cmp localeCompare n v > 0 := by
  rw [greaterNeighbors, List.mem_filter, decide_eq_true_eq, ← mem_neighbors hv]
  rfl

theorem nodup_greaterNeighbors (hv : v ∈ g.ids) :
    (v :: greaterNeighbors localeCompare (neighborSets g) v).Nodup := by
  refine List.nodup_cons.mpr ⟨fun h => ?_, ?_⟩
  · exact ((mem_greaterNeighbors hv).mp h).1.1 rfl
  · exact (neighbors_spec g hv).2.nodup.filter _

theorem mem_found (hv : v ∈ g.ids) {t : Finset VertexId} :
    t ∈ found g v (greaterNeighbors localeCompare (neighborSets g) v) ↔
      t ∈ cliques g ∧ Least localeCompare t v := by
  rw [found, List.mem_map, mem_cliques]
  constructor
  · rintro ⟨⟨u, w⟩, huw, rfl⟩
    rw [List.mem_filter, decide_eq_true_eq] at huw
    obtain ⟨hpair, hjoined : Joined g u w⟩ := huw
    have hsub := (mem_pairsOf.mp hpair).subset
    obtain ⟨hvu, hu⟩ := (mem_greaterNeighbors hv).mp (hsub List.mem_cons_self)
    obtain ⟨hvw, hw⟩ := (mem_greaterNeighbors hv).mp
      (hsub (List.mem_cons_of_mem _ List.mem_cons_self))
    refine ⟨⟨card_eq_three.mpr ⟨v, u, w, hvu.1, hvw.1, hjoined.1, rfl⟩, ?_⟩, ?_, ?_⟩
    · simp only [mem_insert, mem_singleton]
      rintro a (rfl | rfl | rfl) b (rfl | rfl | rfl) hne
      all_goals first
        | exact absurd rfl hne
        | assumption
        | exact Joined.symm (by assumption)
    · exact mem_insert_self _ _
    · simp only [mem_insert, mem_singleton]
      rintro a (rfl | rfl | rfl) hne
      · exact absurd rfl hne
      · exact hu
      · exact hw
  · rintro ⟨⟨hcard, hjoined⟩, hvt, hleast⟩
    -- the other two corners are greater neighbors of `v`
    obtain ⟨u, w, hne, hrest⟩ := card_eq_two.mp
      (show (t.erase v).card = 2 by rw [card_erase_of_mem hvt, hcard])
    have ht : t = {v, u, w} := by rw [← insert_erase hvt, hrest]
    have hcorner : ∀ a ∈ t.erase v,
        a ∈ greaterNeighbors localeCompare (neighborSets g) v ∧ a ∈ t := by
      intro a ha
      obtain ⟨hav, hat⟩ := mem_erase.mp ha
      exact ⟨(mem_greaterNeighbors hv).mpr ⟨hjoined v hvt a hat hav.symm, hleast a hat hav⟩, hat⟩
    obtain ⟨hu, hut⟩ := hcorner u (by simp [hrest])
    obtain ⟨hw, hwt⟩ := hcorner w (by simp [hrest])
    have hjoined := hjoined u hut w hwt hne
    rcases pairsOf_total hu hw hne with hpair | hpair
    · exact ⟨(u, w), List.mem_filter.mpr ⟨hpair, decide_eq_true hjoined⟩, ht.symm⟩
    · refine ⟨(w, u), List.mem_filter.mpr ⟨hpair, decide_eq_true hjoined.symm⟩, ?_⟩
      rw [ht, pair_comm w u]

theorem nodup_found (hv : v ∈ g.ids) :
    (found g v (greaterNeighbors localeCompare (neighborSets g) v)).Nodup := by
  have hnodup : (v :: greaterNeighbors localeCompare (neighborSets g) v).Nodup :=
    nodup_greaterNeighbors hv
  obtain ⟨hvl, hl⟩ := List.nodup_cons.mp hnodup
  unfold found
  refine List.Nodup.map_on ?_ ((nodup_pairsOf hl).filter _)
  rintro ⟨u, w⟩ huw ⟨u', w'⟩ huw' heq
  replace huw := (List.mem_filter.mp huw).1
  replace huw' := (List.mem_filter.mp huw').1
  have hne : ∀ {a b : VertexId}, (a, b) ∈ pairsOf
      (greaterNeighbors localeCompare (neighborSets g) v) → v ≠ a ∧ v ≠ b ∧ a ≠ b := by
    intro a b hab
    have hsub := (mem_pairsOf.mp hab).subset
    have hpair := hl.sublist (mem_pairsOf.mp hab)
    refine ⟨?_, ?_, fun h => ?_⟩
    · rintro rfl
      exact hvl (hsub List.mem_cons_self)
    · rintro rfl
      exact hvl (hsub (List.mem_cons_of_mem _ List.mem_cons_self))
    · exact (List.nodup_cons.mp hpair).1 (List.mem_singleton.mpr h)
  obtain ⟨hvu, hvw, huw_ne⟩ := hne huw
  obtain ⟨hvu', hvw', huw_ne'⟩ := hne huw'
  have hu : u ∈ ({v, u', w'} : Finset VertexId) := by
    rw [← heq]
    simp
  have hw : w ∈ ({v, u', w'} : Finset VertexId) := by
    rw [← heq]
    simp
  simp only [mem_insert, mem_singleton] at hu hw
  rcases hu with rfl | rfl | rfl
  · exact absurd rfl hvu
  · rcases hw with rfl | rfl | rfl
    · exact absurd rfl hvw
    · exact absurd rfl huw_ne
    · rfl
  · rcases hw with rfl | rfl | rfl
    · exact absurd rfl hvw
    · exact absurd huw' (pairsOf_asymm hl huw)
    · exact absurd rfl huw_ne

/-! ## What all vertices count -/

def foundByAll (localeCompare : String → String → Int) (g : GraphFrame V E)
    (vs : List VertexId) : List (Finset VertexId) :=
  vs.flatMap fun v => found g v (greaterNeighbors localeCompare (neighborSets g) v)

theorem foundByAll_cons (localeCompare : String → String → Int) (g : GraphFrame V E)
    (v : VertexId) (vs : List VertexId) : foundByAll localeCompare g (v :: vs) =
      found g v (greaterNeighbors localeCompare (neighborSets g) v) ++
        foundByAll localeCompare g vs :=
  List.flatMap_cons

theorem countP_foundByAll (localeCompare : String → String → Int) (g : GraphFrame V E)
    (x : VertexId) : ∀ vs : List VertexId, (∀ v ∈ vs, v ∈ g.ids) →
      (foundByAll localeCompare g vs).countP (x ∈ ·) =
        ∑ t ∈ (cliques g).filter (x ∈ ·), vs.countP fun v => decide (Least localeCompare t v) := by
  intro vs
  induction vs with
  | nil => simp [foundByAll]
  | cons v vs ih =>
    intro hvs
    have hv := hvs v List.mem_cons_self
    rw [foundByAll_cons, List.countP_append]
    simp only [List.countP_cons, decide_eq_true_eq]
    rw [sum_add_distrib, Nat.add_comm]
    congr 1
    · exact ih fun u hu => hvs u (List.mem_cons_of_mem _ hu)
    · have hfound : ((found g v (greaterNeighbors localeCompare (neighborSets g) v)).filter
          fun t => decide (x ∈ t)).toFinset =
          ((cliques g).filter (x ∈ ·)).filter fun t => Least localeCompare t v := by
        ext t
        simp only [List.mem_toFinset, List.mem_filter, mem_found hv, decide_eq_true_eq,
          mem_filter]
        tauto
      rw [List.countP_eq_length_filter, ← List.toFinset_card_of_nodup ((nodup_found hv).filter _),
        hfound, card_filter]

/-- No vertex has an id that is no vertex among its greater neighbors, but for the last. -/
def AllQuiet (localeCompare : String → String → Int) (g : GraphFrame V E) : Prop :=
  ∀ v ∈ g.ids, QuietAt g (greaterNeighbors localeCompare (neighborSets g) v)

/-- The outer loop. -/
theorem foldlM_countPairs (hquiet : AllQuiet localeCompare g) :
    ∀ (vs : List V) (triangles : JsMap VertexId Nat), (∀ v ∈ vs, Vertex.id v ∈ g.ids) →
      ∃ triangles', vs.foldlM (fun triangles v => countPairs (neighborSets g) (Vertex.id v)
        (greaterNeighbors localeCompare (neighborSets g) (Vertex.id v)) triangles) triangles =
          .ok triangles' ∧
        ∀ x, (triangles'.get x).getD 0 = (triangles.get x).getD 0 +
          (foundByAll localeCompare g (vs.map Vertex.id)).countP (x ∈ ·) := by
  intro vs
  induction vs with
  | nil => exact fun triangles _ => ⟨triangles, rfl, fun x => rfl⟩
  | cons v vs ih =>
    intro triangles hvs
    have hv := hvs v List.mem_cons_self
    obtain ⟨triangles₁, hok₁, hcount₁⟩ :=
      countPairs_spec _ triangles (nodup_greaterNeighbors hv) (hquiet _ hv)
    obtain ⟨triangles₂, hok₂, hcount₂⟩ :=
      ih triangles₁ fun u hu => hvs u (List.mem_cons_of_mem _ hu)
    refine ⟨triangles₂, ?_, fun x => ?_⟩
    · rw [List.foldlM_cons, hok₁]
      exact hok₂
    · rw [hcount₂, hcount₁, List.map_cons, foundByAll_cons, List.countP_append, Nat.add_assoc]

theorem foldlM_countPairs_throws :
    ∀ (vs : List V) (triangles : JsMap VertexId Nat),
      (∃ v ∈ vs, ¬ QuietAt g (greaterNeighbors localeCompare (neighborSets g) (Vertex.id v))) →
      ∃ e, vs.foldlM (fun triangles v => countPairs (neighborSets g) (Vertex.id v)
        (greaterNeighbors localeCompare (neighborSets g) (Vertex.id v)) triangles) triangles =
          .error e := by
  intro vs
  induction vs with
  | nil => exact fun _ ⟨_, hnil, _⟩ => nomatch hnil
  | cons v vs ih =>
    rintro triangles ⟨u, hu, hloud⟩
    rw [List.foldlM_cons]
    cases hstep : countPairs (neighborSets g) (Vertex.id v)
        (greaterNeighbors localeCompare (neighborSets g) (Vertex.id v)) triangles with
    | error e => exact ⟨e, rfl⟩
    | ok triangles₁ =>
      rcases List.mem_cons.mp hu with rfl | hu
      · rw [countPairs_throws _ _ hloud] at hstep
        exact nomatch hstep
      · exact ih triangles₁ ⟨u, hu, hloud⟩

/-- How often the sets around an id are counted. -/
def timesCountedAt (localeCompare : String → String → Int) (g : GraphFrame V E)
    (x : VertexId) : Nat :=
  ∑ t ∈ (cliques g).filter (x ∈ ·), timesCounted localeCompare g t

theorem triangleCount_spec (localeCompare : String → String → Int) (g : GraphFrame V E) :
    (AllQuiet localeCompare g → triangleCount localeCompare g =
      .ok (g.vertices.map fun v => (v, timesCountedAt localeCompare g (Vertex.id v)))) ∧
    (¬ AllQuiet localeCompare g → ∃ e, triangleCount localeCompare g = .error e) := by
  constructor
  · intro hquiet
    have hzero : ∀ x, ((g.vertices.foldl (fun triangles v => triangles.set (Vertex.id v) 0)
        (empty : JsMap VertexId Nat)).get x).getD 0 = 0 := by
      intro x
      rw [get_foldl_set Vertex.id fun _ => 0]
      split <;> rfl
    obtain ⟨triangles', hok, hcount⟩ := foldlM_countPairs hquiet g.vertices
      (g.vertices.foldl (fun triangles v => triangles.set (Vertex.id v) 0) empty)
      fun v hv => List.mem_map_of_mem hv
    unfold triangleCount
    dsimp only
    rw [hok]
    show Except.ok _ = _
    congr 2
    funext v
    rw [hcount, hzero, Nat.zero_add, ← GraphFrame.ids,
      countP_foundByAll localeCompare g _ g.ids fun _ h => h]
    rfl
  · intro hloud
    unfold AllQuiet at hloud
    push Not at hloud
    obtain ⟨x, hx, hloud⟩ := hloud
    obtain ⟨v, hv, rfl⟩ := List.mem_map.mp hx
    obtain ⟨e, he⟩ := foldlM_countPairs_throws g.vertices
      (g.vertices.foldl (fun triangles v => triangles.set (Vertex.id v) 0) empty)
        ⟨v, hv, hloud⟩
    refine ⟨e, ?_⟩
    unfold triangleCount
    dsimp only
    rw [he]
    rfl

/-! ## When the counts are right -/

/-- How many triangles have `x` as a corner. -/
def trianglesAt (g : GraphFrame V E) (x : VertexId) : Nat := ((triangles g).filter (x ∈ ·)).card

/-- Nothing is thrown, each vertex has the number of its triangles, and all triangles together
are a third of the sum. -/
def Counted (localeCompare : String → String → Int) (g : GraphFrame V E) : Prop :=
  ∃ rows, triangleCount localeCompare g = .ok rows ∧ rows.map Prod.fst = g.vertices ∧
    (∀ row ∈ rows, row.2 = trianglesAt g (Vertex.id row.1)) ∧
    (rows.map Prod.snd).sum = 3 * (triangles g).card

theorem sum_trianglesAt (g : GraphFrame V E) :
    ∑ x ∈ g.ids.toFinset, trianglesAt g x = 3 * (triangles g).card := by
  unfold trianglesAt
  simp only [card_filter]
  rw [sum_comm]
  have hcorners : ∀ t ∈ triangles g, ∑ x ∈ g.ids.toFinset, (if x ∈ t then 1 else 0) = 3 := by
    intro t ht
    obtain ⟨hclique, hids⟩ := mem_filter.mp ht
    rw [← card_filter, filter_mem_eq_inter, inter_eq_right.mpr hids]
    exact (mem_cliques.mp hclique).1
  rw [sum_congr rfl hcorners, sum_const, smul_eq_mul, Nat.mul_comm]

theorem sum_ids_iff (g : GraphFrame V E) :
    (g.ids.map (trianglesAt g)).sum = 3 * (triangles g).card ↔
      ∀ t ∈ triangles g, ∀ x ∈ t, g.ids.count x = 1 := by
  have hle : ∀ x ∈ g.ids.toFinset, trianglesAt g x ≤ g.ids.count x • trianglesAt g x := by
    intro x hx
    have hpos := List.count_pos_iff.mpr (List.mem_toFinset.mp hx)
    exact Nat.le_mul_of_pos_left _ hpos
  rw [sum_list_map_count, ← sum_trianglesAt, eq_comm, sum_eq_sum_iff_of_le hle]
  constructor
  · intro h t ht x hx
    have hid : x ∈ g.ids.toFinset := (mem_filter.mp ht).2 hx
    have hpos : 0 < trianglesAt g x := card_pos.mpr ⟨t, mem_filter.mpr ⟨ht, hx⟩⟩
    have heq : g.ids.count x * trianglesAt g x = 1 * trianglesAt g x := by
      rw [Nat.one_mul]
      exact (h x hid).symm
    exact Nat.eq_of_mul_eq_mul_right hpos heq
  · intro h x _
    rcases Nat.eq_zero_or_pos (trianglesAt g x) with hzero | hpos
    · rw [hzero, smul_eq_mul, Nat.mul_zero]
    · obtain ⟨t, ht⟩ := card_pos.mp hpos
      obtain ⟨ht, hx⟩ := mem_filter.mp ht
      rw [h t ht x hx, one_smul]

theorem counted_iff (localeCompare : String → String → Int) (g : GraphFrame V E) :
    Counted localeCompare g ↔ AllQuiet localeCompare g ∧
      (∀ x ∈ g.ids, timesCountedAt localeCompare g x = trianglesAt g x) ∧
      ∀ t ∈ triangles g, ∀ x ∈ t, g.ids.count x = 1 := by
  by_cases hquiet : AllQuiet localeCompare g
  · have hok := (triangleCount_spec localeCompare g).1 hquiet
    have hsum : (∀ x ∈ g.ids, timesCountedAt localeCompare g x = trianglesAt g x) →
        ((g.vertices.map fun v => (v, timesCountedAt localeCompare g (Vertex.id v))).map
          Prod.snd).sum = (g.ids.map (trianglesAt g)).sum := by
      intro h
      rw [GraphFrame.ids, List.map_map, List.map_map]
      exact congrArg List.sum (List.map_congr_left fun v hv => h _ (List.mem_map_of_mem hv))
    constructor
    · rintro ⟨rows, hrows, -, hcounts, htotal⟩
      obtain rfl := Except.ok.inj (hok.symm.trans hrows)
      have hat : ∀ x ∈ g.ids, timesCountedAt localeCompare g x = trianglesAt g x := by
        intro x hx
        obtain ⟨v, hv, rfl⟩ := List.mem_map.mp hx
        exact hcounts _ (List.mem_map_of_mem hv)
      exact ⟨hquiet, hat, (sum_ids_iff g).mp ((hsum hat).symm.trans htotal)⟩
    · rintro ⟨-, hat, honce⟩
      refine ⟨_, hok, ?_, ?_, (hsum hat).trans ((sum_ids_iff g).mpr honce)⟩
      · rw [List.map_map]
        exact List.map_id _
      · intro row hrow
        obtain ⟨v, hv, rfl⟩ := List.mem_map.mp hrow
        exact hat _ (List.mem_map_of_mem hv)
  · constructor
    · rintro ⟨rows, hrows, -⟩
      obtain ⟨e, he⟩ := (triangleCount_spec localeCompare g).2 hquiet
      exact nomatch he.symm.trans hrows
    · exact fun h => absurd h.1 hquiet

theorem cmp_asymm (hlocale : ∀ a b, localeCompare a b > 0 → ¬ localeCompare b a > 0)
    (h : cmp localeCompare u v > 0) : ¬ cmp localeCompare v u > 0 := by
  cases u with
  | str a => cases v with
    | str b | num b => exact hlocale _ _ h
  | num a => cases v with
    | str b => exact hlocale _ _ h
    | num b =>
      change a - b > 0 at h
      show ¬ b - a > 0
      omega

theorem counted_iff_least
    (hnodup : g.ids.Nodup) (hends : ∀ e ∈ g.edges, Edge.src e ∈ g.ids ∧ Edge.dst e ∈ g.ids)
    (hlocale : ∀ a b, localeCompare a b > 0 → ¬ localeCompare b a > 0) :
    Counted localeCompare g ↔ ∀ t ∈ triangles g, ∃ v, Least localeCompare t v := by
  have hjoined : ∀ {a b}, Joined g a b → b ∈ g.ids := by
    rintro a b ⟨-, e, he, ⟨-, rfl⟩ | ⟨rfl, -⟩⟩
    · exact (hends e he).2
    · exact (hends e he).1
  have hquiet : AllQuiet localeCompare g := fun v hv u hu =>
    hjoined ((mem_greaterNeighbors hv).mp (List.dropLast_subset _ hu)).1
  have hall : triangles g = cliques g := by
    rw [triangles, filter_eq_self]
    intro t ht a ha
    obtain ⟨hcard, hpairs⟩ := mem_cliques.mp ht
    obtain ⟨b, hb, hne⟩ := exists_mem_ne (by omega : 1 < t.card) a
    exact List.mem_toFinset.mpr (hjoined (hpairs b hb a ha hne))
  have honce : ∀ t ∈ triangles g, ∀ x ∈ t, g.ids.count x = 1 := fun t ht x hx =>
    List.count_eq_one_of_mem hnodup (List.mem_toFinset.mp ((mem_filter.mp ht).2 hx))
  have hle : ∀ t ∈ cliques g, timesCounted localeCompare g t ≤ 1 := by
    intro t _
    have hleast : ∀ v ∈ (g.ids.filter fun v => decide (Least localeCompare t v)).toFinset,
        Least localeCompare t v := by
      intro v hv
      rw [List.mem_toFinset, List.mem_filter, decide_eq_true_eq] at hv
      exact hv.2
    rw [timesCounted, List.countP_eq_length_filter,
      ← List.toFinset_card_of_nodup (hnodup.filter _)]
    -- of two least corners each would be greater than the other
    refine card_le_one.mpr fun u hu v hv => by_contra fun hne => ?_
    obtain ⟨hut, hu⟩ := hleast u hu
    obtain ⟨hvt, hv⟩ := hleast v hv
    exact cmp_asymm hlocale (hv u hut hne) (hu v hvt (Ne.symm hne))
  have hone : ∀ t ∈ cliques g,
      timesCounted localeCompare g t = 1 ↔ ∃ v, Least localeCompare t v := by
    intro t ht
    have hpos : 0 < timesCounted localeCompare g t ↔ ∃ v ∈ g.ids, Least localeCompare t v := by
      simp only [timesCounted, List.countP_pos_iff, decide_eq_true_eq]
    have hlet := hle t ht
    rw [← hall] at ht
    constructor
    · intro h
      obtain ⟨v, -, hv⟩ := hpos.mp (by omega)
      exact ⟨v, hv⟩
    · rintro ⟨v, hv⟩
      have hid : v ∈ g.ids := List.mem_toFinset.mp ((mem_filter.mp ht).2 hv.1)
      have := hpos.mpr ⟨v, hid, hv⟩
      omega
  have hat : ∀ x, timesCountedAt localeCompare g x = trianglesAt g x ↔
      ∀ t ∈ cliques g, x ∈ t → timesCounted localeCompare g t = 1 := by
    intro x
    rw [timesCountedAt, trianglesAt, hall, card_eq_sum_ones,
      sum_eq_sum_iff_of_le fun t ht => hle t (mem_filter.mp ht).1]
    simp only [mem_filter, and_imp]
  rw [counted_iff]
  simp only [hat]
  constructor
  · rintro ⟨-, hids, -⟩ t ht
    have hclique := hall ▸ ht
    obtain ⟨x, hx⟩ := card_pos.mp (by rw [(mem_cliques.mp hclique).1]; omega : 0 < t.card)
    have hid : x ∈ g.ids := List.mem_toFinset.mp ((mem_filter.mp ht).2 hx)
    exact (hone t hclique).mp (hids x hid t hclique hx)
  · intro h
    exact ⟨hquiet, fun x _ t ht _ => (hone t ht).mpr (h t (hall ▸ ht)), honce⟩

/-- The counts are right exactly if no vertex has an unknown id among its greater neighbors but
the last, every corner is listed once, and the sets around each vertex have as many least corners
as it has triangles.  With distinct ids and edges between vertices only: if every triangle has a
least corner. -/
theorem triangles_counted_iff (localeCompare : String → String → Int) (g : GraphFrame V E) :
    (Counted localeCompare g ↔ AllQuiet localeCompare g ∧
      (∀ x ∈ g.ids, timesCountedAt localeCompare g x = trianglesAt g x) ∧
      ∀ t ∈ triangles g, ∀ x ∈ t, g.ids.count x = 1) ∧
    (g.ids.Nodup → (∀ e ∈ g.edges, Edge.src e ∈ g.ids ∧ Edge.dst e ∈ g.ids) →
      (∀ a b, localeCompare a b > 0 → ¬ localeCompare b a > 0) →
      (Counted localeCompare g ↔ ∀ t ∈ triangles g, ∃ v, Least localeCompare t v)) :=
  ⟨counted_iff localeCompare g, counted_iff_least⟩

/-- A neighbor that is no vertex, before another one, makes it throw. -/
theorem triangleCount_unknown_throws :
    ¬ ∀ (localeCompare : String → String → Int) (g : GraphFrame VertexId (VertexId × VertexId)),
      Counted localeCompare g := by
  intro h
  obtain ⟨rows, hrows, -⟩ := h (fun _ _ => 0)
    ⟨[.num 1, .num 2], [(.num 1, .num 3), (.num 1, .num 2)]⟩
  have hthrows : triangleCount (fun _ _ => 0) (⟨[.num 1, .num 2],
      [(.num 1, .num 3), (.num 1, .num 2)]⟩ : GraphFrame VertexId (VertexId × VertexId)) =
      .error (.readOfUndefined "has") := by
    decide
  exact nomatch hthrows.symm.trans hrows

end Triangles

end Promin.Data
