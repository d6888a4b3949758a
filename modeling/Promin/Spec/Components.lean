import Promin.ForStd.DisjointSets
import Promin.Data.ConnectedComponents

/-!
# Components are reachability

The parents of `connectedComponents` are a forest whose ranks grow on the way
up, and its trees are what the edges processed so far connect.
-/

namespace Promin.Data

open DisjointSets List JsMap Function Relation
open Option hiding or or_assoc

namespace UnionFind

/-- The parent of an element; what is not in the map is a root. -/
def up (s : UnionFind) (x : VertexId) : VertexId := (s.parent.get x).getD x

def rankOf (s : UnionFind) (x : VertexId) : Nat := (s.rank.get x).getD 0

/-- Parents are in the map, and ranks grow on the way up, to no more than `bound`. -/
structure Sound (bound : Nat) (s : UnionFind) : Prop where
  closed : ∀ x y, s.parent.get x = some y → (s.parent.get y).isSome
  ranked : Ranked s.up s.rankOf
  bounded : ∀ x, s.rankOf x ≤ bound

structure SameSets (s t : UnionFind) : Prop where
  root : ∀ x r, Root t.up x r ↔ Root s.up x r
  known : ∀ x, (t.parent.get x).isSome = (s.parent.get x).isSome

variable {s : UnionFind} {fuel : Nat} {r x : VertexId}

theorem up_of_get {y : VertexId} (h : s.parent.get x = some y) : s.up x = y := by
  rw [up, h]
  rfl

theorem up_set (s : UnionFind) (c r : VertexId) :
    ({ s with parent := s.parent.set c r } : UnionFind).up = Function.update s.up c r := by
  funext x
  show ((s.parent.set c r).get x).getD x = _
  rw [get_set]
  by_cases hx : c = x
  · subst hx
    rw [if_pos rfl, update_self]
    rfl
  · rw [if_neg hx, update_of_ne (Ne.symm hx)]
    rfl

theorem isSome_set (parent : JsMap VertexId VertexId) {c : VertexId} (r x : VertexId)
    (hc : (parent.get c).isSome) : ((parent.set c r).get x).isSome = (parent.get x).isSome := by
  rw [get_set]
  split
  · rename_i hx
    rw [← hx, hc]
    rfl
  · rfl

variable {bound : Nat}

theorem Sound.isSome_root (h : s.Sound bound)
    (hx : (s.parent.get x).isSome) (hroot : Root s.up x r) : (s.parent.get r).isSome := by
  induction hroot with
  | self _ => exact hx
  | @step y r _ _ ih =>
    obtain ⟨next, hnext⟩ := isSome_iff_exists.mp hx
    rw [up_of_get hnext] at ih
    exact ih (h.closed y next hnext)

/-! ## Find -/

theorem climb_spec (h : s.Sound bound)
    (hx : (s.parent.get x).isSome) (hfuel : bound < fuel + s.rankOf x) :
    ∃ r, climb s.parent fuel x = some r ∧ Root s.up x r := by
  induction fuel generalizing x with
  | zero =>
    have hle := h.bounded x
    omega
  | succ fuel ih =>
    obtain ⟨next, hnext⟩ := isSome_iff_exists.mp hx
    have hup := up_of_get hnext
    rw [climb, hnext]
    by_cases hroot : next = x
    · exact ⟨x, if_pos hroot, .self (hup.trans hroot)⟩
    · -- the rank grows, so less fuel is enough
      have hne : s.up x ≠ x := hup ▸ hroot
      have hlt := h.ranked x hne
      rw [hup] at hlt
      obtain ⟨r, hr, hrootr⟩ := ih (h.closed x next hnext) (by omega)
      exact ⟨r, (if_neg hroot).trans hr, .step hne (hup ▸ hrootr)⟩

theorem Sound.point (h : s.Sound bound) {c : VertexId}
    (hc : (s.parent.get c).isSome) (hne : s.up c ≠ c) (hroot : Root s.up c r) :
    Sound bound { s with parent := s.parent.set c r } ∧
      SameSets s { s with parent := s.parent.set c r } := by
  have hr := h.isSome_root hc hroot
  refine ⟨⟨?_, ?_, h.bounded⟩, ?_, ?_⟩
  · intro x y hget
    rw [isSome_set _ _ _ hc]
    rw [get_set] at hget
    split at hget
    · cases hget
      exact hr
    · exact h.closed x y hget
  · intro x hx
    rw [up_set] at hx ⊢
    by_cases hxc : x = c
    · subst hxc
      rw [update_self]
      exact h.ranked.lt_root hroot hne
    · rw [update_of_ne hxc] at hx ⊢
      exact h.ranked x hx
  · intro x t
    rw [up_set]
    exact root_compress hroot
  · exact fun x => isSome_set _ _ _ hc

theorem compress_spec (h : s.Sound bound) (hx : (s.parent.get x).isSome) (hroot : Root s.up x r)
    (hfuel : bound < fuel + s.rankOf x) :
    ∃ parent, compress r fuel s.parent x = some parent ∧
      Sound bound { s with parent } ∧ SameSets s { s with parent } := by
  induction fuel generalizing s x with
  | zero =>
    have hle := h.bounded x
    omega
  | succ fuel ih =>
    obtain ⟨next, hnext⟩ := isSome_iff_exists.mp hx
    have hup := up_of_get hnext
    rw [compress, hnext]
    by_cases hdone : next = r
    · exact ⟨s.parent, if_pos hdone, h, fun _ _ => Iff.rfl, fun _ => rfl⟩
    · -- an element that does not point at its root is none itself
      have hne : s.up x ≠ x := by
        intro htop
        rw [hup] at htop
        exact hdone (htop.trans (hroot.of_isRoot (hup.trans htop)).symm)
      have hlt := h.ranked x hne
      rw [hup] at hlt
      obtain ⟨hsound, hsame⟩ := h.point hx hne hroot
      have hnextr : Root s.up next r := hup ▸ hroot.above
      have hknown : ((s.parent.set x r).get next).isSome := by
        rw [isSome_set _ _ _ hx]
        exact h.closed x next hnext
      obtain ⟨parent, hparent, hsound', hsame'⟩ :=
        ih (s := { s with parent := s.parent.set x r }) hsound hknown
          ((hsame.root next r).mpr hnextr) (by show bound < fuel + s.rankOf next; omega)
      refine ⟨parent, (if_neg hdone).trans hparent, hsound', ?_, ?_⟩
      · exact fun y t => (hsame'.root y t).trans (hsame.root y t)
      · exact fun y => (hsame'.known y).trans (hsame.known y)

theorem find_spec (h : s.Sound bound) (hx : (s.parent.get x).isSome) (hfuel : bound < fuel) :
    ∃ r t, s.find fuel x = some (r, t) ∧ Root s.up x r ∧ t.Sound bound ∧ s.SameSets t := by
  obtain ⟨r, hr, hroot⟩ := climb_spec h hx (by omega : bound < fuel + s.rankOf x)
  obtain ⟨parent, hparent, hsound, hsame⟩ :=
    compress_spec h hx hroot (by omega : bound < fuel + s.rankOf x)
  refine ⟨r, { s with parent }, ?_, hroot, hsound, hsame⟩
  simp only [find, hr, hparent, bind_eq_bind, bind_some]
  rfl

/-! ## Union -/

theorem SameSets.together {s t : UnionFind} (h : s.SameSets t) (x y : VertexId) :
    Together t.up x y ↔ Together s.up x y := by
  unfold Together
  simp only [h.root]

/-- Linking a root of no higher rank below another keeps the invariant, if the rank of the other
    is raised where it was no higher. -/
theorem Sound.link (h : s.Sound bound) {a b : VertexId}
    (ha : s.up a = a) (hb : s.up b = b) (hab : a ≠ b) (hka : (s.parent.get a).isSome)
    (hkb : (s.parent.get b).isSome) {rank : JsMap VertexId Nat}
    (hrank : ∀ x, x ≠ b → (rank.get x).getD 0 = s.rankOf x)
    (hlt : s.rankOf a < (rank.get b).getD 0) (hge : s.rankOf b ≤ (rank.get b).getD 0)
    (hle : (rank.get b).getD 0 ≤ bound + 1) :
    Sound (bound + 1) { parent := s.parent.set a b, rank } := by
  constructor
  · intro x y hget
    rw [isSome_set _ _ _ hka]
    rw [get_set] at hget
    split at hget
    · cases hget
      exact hkb
    · exact h.closed x y hget
  · intro x hx
    show (rank.get x).getD 0 < (rank.get _).getD 0
    have hup : ({ parent := s.parent.set a b, rank } : UnionFind).up =
        Function.update s.up a b := up_set s a b
    rw [hup] at hx ⊢
    by_cases hxa : x = a
    · subst hxa
      rw [update_self, hrank x hab]
      exact hlt
    · rw [update_of_ne hxa] at hx ⊢
      have hxb : x ≠ b := fun hxb => hx (hxb ▸ hb)
      have hgrows := h.ranked x hx
      rw [hrank x hxb]
      by_cases hub : s.up x = b
      · rw [hub] at hgrows ⊢
        omega
      · rw [hrank _ hub]
        exact hgrows
  · intro x
    show (rank.get x).getD 0 ≤ _
    by_cases hxb : x = b
    · rw [hxb]
      exact hle
    · rw [hrank x hxb]
      have hbound := h.bounded x
      omega

theorem union_spec (h : s.Sound bound) {a b : VertexId}
    (ha : (s.parent.get a).isSome) (hb : (s.parent.get b).isSome) (hfuel : bound < fuel) :
    ∃ t, s.union fuel a b = some t ∧ t.Sound (bound + 1) ∧
      (∀ x, (t.parent.get x).isSome = (s.parent.get x).isSome) ∧
      ∀ x y, Together t.up x y ↔ Together s.up x y ∨
        Together s.up x a ∧ Together s.up b y ∨ Together s.up x b ∧ Together s.up a y := by
  obtain ⟨ra, s₁, hfinda, hra, hsound₁, hsame₁⟩ := find_spec h ha hfuel
  obtain ⟨rb, s₂, hfindb, hrb, hsound₂, hsame₂⟩ :=
    find_spec hsound₁ ((hsame₁.known b).trans hb) hfuel
  have hsame : s.SameSets s₂ := ⟨fun x r => (hsame₂.root x r).trans (hsame₁.root x r),
    fun x => (hsame₂.known x).trans (hsame₁.known x)⟩
  rw [hsame₁.root] at hrb
  have hra₂ := (hsame.root a ra).mpr hra
  have hrb₂ := (hsame.root b rb).mpr hrb
  have hka : (s₂.parent.get ra).isSome := by
    rw [hsame.known]
    exact h.isSome_root ha hra
  have hkb : (s₂.parent.get rb).isSome := by
    rw [hsame.known]
    exact h.isSome_root hb hrb
  -- the sets, however the two roots are linked
  have hlinked : ra ≠ rb → ∀ t : UnionFind,
      t.up = Function.update s₂.up ra rb ∨ t.up = Function.update s₂.up rb ra →
      ∀ x y, Together t.up x y ↔ Together s.up x y ∨
        Together s.up x a ∧ Together s.up b y ∨ Together s.up x b ∧ Together s.up a y := by
    intro hne t ht x y
    rcases ht with ht | ht
    · rw [ht, together_link hra₂ hrb₂ hne]
      simp only [hsame.together]
    · rw [ht, together_link hrb₂ hra₂ (Ne.symm hne)]
      simp only [hsame.together]
      rw [or_comm (a := Together s.up x b ∧ _)]
  have hunion : s.union fuel a b = if ra = rb then some s₂
      else if (s₂.rank.get ra).getD 0 < (s₂.rank.get rb).getD 0 then
        some { s₂ with parent := s₂.parent.set ra rb }
      else if (s₂.rank.get ra).getD 0 > (s₂.rank.get rb).getD 0 then
        some { s₂ with parent := s₂.parent.set rb ra }
      else some { parent := s₂.parent.set rb ra,
                  rank := s₂.rank.set ra ((s₂.rank.get ra).getD 0 + 1) } := by
    simp only [union, hfinda, hfindb, bind_eq_bind, bind_some]
    rfl
  rw [hunion]
  by_cases hroots : ra = rb
  · refine ⟨s₂, if_pos hroots, ⟨hsound₂.closed, hsound₂.ranked, ?_⟩, hsame.known, ?_⟩
    · intro x
      have hbound := hsound₂.bounded x
      omega
    · -- the two are in one set already
      intro x y
      rw [hsame.together]
      subst hroots
      constructor
      · exact .inl
      · rintro (hxy | ⟨⟨r, hx, ha'⟩, t, hb', hy⟩ | ⟨⟨r, hx, hb'⟩, t, ha', hy⟩)
        · exact hxy
        · cases hra.unique ha'
          cases hrb.unique hb'
          exact ⟨ra, hx, hy⟩
        · cases hrb.unique hb'
          cases hra.unique ha'
          exact ⟨ra, hx, hy⟩
  rw [if_neg hroots]
  have hbounda := hsound₂.bounded ra
  have hboundb := hsound₂.bounded rb
  unfold rankOf at hbounda hboundb
  split
  · rename_i hlt
    refine ⟨_, rfl, ?_, ?_, hlinked hroots _ (.inl (up_set s₂ ra rb))⟩
    · exact hsound₂.link hra₂.isRoot hrb₂.isRoot hroots hka hkb (fun _ _ => rfl) hlt
        (Nat.le_refl _) (by omega)
    · exact fun x => (isSome_set _ _ _ hka).trans (hsame.known x)
  split
  · rename_i hgt
    refine ⟨_, rfl, ?_, ?_, hlinked hroots _ (.inr (up_set s₂ rb ra))⟩
    · exact hsound₂.link hrb₂.isRoot hra₂.isRoot (Ne.symm hroots) hkb hka (fun _ _ => rfl) hgt
        (Nat.le_refl _) (by omega)
    · exact fun x => (isSome_set _ _ _ hkb).trans (hsame.known x)
  · have hself : ((s₂.rank.set ra ((s₂.rank.get ra).getD 0 + 1)).get ra).getD 0 =
        (s₂.rank.get ra).getD 0 + 1 := by
      rw [get_set_self]
      rfl
    refine ⟨_, rfl, ?_, ?_, hlinked hroots _ (.inr ?_)⟩
    · apply hsound₂.link hrb₂.isRoot hra₂.isRoot (Ne.symm hroots) hkb hka
      · intro x hx
        rw [get_set_ne _ _ (Ne.symm hx)]
        rfl
      · rw [hself]
        show (s₂.rank.get rb).getD 0 < _
        omega
      · rw [hself]
        show (s₂.rank.get ra).getD 0 ≤ _
        omega
      · rw [hself]
        omega
    · exact fun x => (isSome_set _ _ _ hkb).trans (hsame.known x)
    · exact up_set s₂ rb ra

end UnionFind

/-! ## The edges -/

section Components

variable {V E : Type} [Vertex V] [Edge E]

open UnionFind

variable (vertices : List V)

theorem get_singletons (x : VertexId) :
    (singletons vertices).parent.get x =
      if x ∈ vertices.map Vertex.id then some x else none :=
  get_foldl_set Vertex.id id vertices JsMap.empty x

theorem rankOf_singletons (x : VertexId) :
    (singletons vertices).rankOf x = 0 := by
  have hget := get_foldl_set Vertex.id (fun _ => 0) vertices JsMap.empty x
  refine (congrArg (Option.getD · 0) hget).trans ?_
  split <;> rfl

theorem up_singletons (x : VertexId) : (singletons vertices).up x = x := by
  rw [up, get_singletons]
  split <;> rfl

theorem sound_singletons : (singletons vertices).Sound 0 := by
  constructor
  · intro x y hget
    rw [get_singletons] at hget ⊢
    split at hget
    · rename_i hx
      cases hget
      rw [if_pos hx]
      rfl
    · exact nomatch hget
  · exact fun x hx => absurd (up_singletons vertices x) hx
  · exact fun x => Nat.le_of_eq (rankOf_singletons vertices x)

theorem together_singletons (x y : VertexId) :
    Together (singletons vertices).up x y ↔ x = y := by
  constructor
  · rintro ⟨r, hx, hy⟩
    exact (hx.of_isRoot (up_singletons _ x)).symm.trans (hy.of_isRoot (up_singletons _ y))
  · rintro rfl
    exact ⟨x, .self (up_singletons _ x), .self (up_singletons _ x)⟩

variable {s : UnionFind} {l : Labelling V} {bound fuel : Nat} {vertices : List V}

theorem unionEdges_spec (h : s.Sound bound) (edges : List E)
    (hfuel : bound + edges.length < fuel) {R : VertexId → VertexId → Prop}
    (hR : ∀ x y, Together s.up x y ↔ EqvGen R x y) :
    ∃ t, edges.foldlM (unionEdge fuel) s = some t ∧ t.Sound (bound + edges.length) ∧
      (∀ x, (t.parent.get x).isSome = (s.parent.get x).isSome) ∧
      ∀ x y, Together t.up x y ↔ EqvGen (fun x y => R x y ∨
        (s.parent.get x).isSome ∧ (s.parent.get y).isSome ∧
          ∃ e ∈ edges, Edge.src e = x ∧ Edge.dst e = y) x y := by
  induction edges generalizing s bound R with
  | nil => exact ⟨s, rfl, h, fun _ => rfl, by simpa using hR⟩
  | cons e rest ih =>
    rw [length_cons] at hfuel
    -- one edge
    obtain ⟨t, ht, hsound, hknown, htogether⟩ : ∃ t, unionEdge fuel s e = some t ∧
        t.Sound (bound + 1) ∧ (∀ x, (t.parent.get x).isSome = (s.parent.get x).isSome) ∧
        ∀ x y, Together t.up x y ↔ EqvGen (fun x y => R x y ∨
          (s.parent.get x).isSome ∧ (s.parent.get y).isSome ∧
            Edge.src e = x ∧ Edge.dst e = y) x y := by
      unfold unionEdge JsMap.has
      by_cases hends : (s.parent.get (Edge.src e)).isSome ∧ (s.parent.get (Edge.dst e)).isSome
      · rw [if_pos (by simpa using hends)]
        obtain ⟨t, ht, hsound, hknown, htogether⟩ :=
          union_spec h hends.1 hends.2 (by omega : bound < fuel)
        refine ⟨t, ht, hsound, hknown, fun x y => ?_⟩
        have hpair : (fun x y => R x y ∨ (s.parent.get x).isSome ∧ (s.parent.get y).isSome ∧
            Edge.src e = x ∧ Edge.dst e = y) =
            fun x y => R x y ∨ x = Edge.src e ∧ y = Edge.dst e := by
          funext x y
          apply propext
          constructor
          · rintro (hxy | ⟨-, -, hx, hy⟩)
            · exact .inl hxy
            · exact .inr ⟨hx.symm, hy.symm⟩
          · rintro (hxy | ⟨rfl, rfl⟩)
            · exact .inl hxy
            · exact .inr ⟨hends.1, hends.2, rfl, rfl⟩
        rw [htogether, hpair, eqvGen_insert]
        simp only [hR]
      · -- an end of the edge is no vertex
        rw [if_neg (by simpa using hends)]
        refine ⟨s, rfl, ⟨h.closed, h.ranked, fun x => Nat.le_succ_of_le (h.bounded x)⟩,
          fun _ => rfl, fun x y => ?_⟩
        have hnone : (fun x y => R x y ∨ (s.parent.get x).isSome ∧ (s.parent.get y).isSome ∧
            Edge.src e = x ∧ Edge.dst e = y) = R := by
          funext x y
          apply propext
          constructor
          · rintro (hxy | ⟨hx, hy, rfl, rfl⟩)
            · exact hxy
            · exact absurd ⟨hx, hy⟩ hends
          · exact .inl
        rw [hnone, hR]
    obtain ⟨u, hu, hsoundu, hknownu, htogetheru⟩ := ih hsound (by omega) htogether
    refine ⟨u, ?_, ?_, fun x => (hknownu x).trans (hknown x), fun x y => ?_⟩
    · rw [foldlM_cons, ht]
      exact hu
    · rw [length_cons, show bound + (rest.length + 1) = bound + 1 + rest.length by omega]
      exact hsoundu
    · rw [htogetheru]
      simp only [hknown, exists_mem_cons_iff, or_assoc, ← and_or_left]

/-! ## The labels -/

/-- The labels so far number the roots of the vertices so far. -/
structure Labelled (s : UnionFind) (vertices : List V) (l : Labelling V) : Prop where
  same : s.SameSets l.sets
  next : ∀ r i, l.componentId.get r = some i → i < l.nextId
  distinct : ∀ r r' i, l.componentId.get r = some i → l.componentId.get r' = some i → r = r'
  vertices : l.rows.map Prod.fst = vertices
  rows : ∀ row ∈ l.rows, ∃ r, Root s.up (Vertex.id row.1) r ∧ l.componentId.get r = some row.2

theorem Labelled.row
    (h : Labelled s vertices l) {sets : UnionFind} (hsame : s.SameSets sets) {v : V}
    {r : VertexId} (hroot : Root s.up (Vertex.id v) r) {componentId : JsMap VertexId Nat}
    {nextId i : Nat} (hkeep : ∀ r i, l.componentId.get r = some i → componentId.get r = some i)
    (hnext : ∀ r i, componentId.get r = some i → i < nextId)
    (hdistinct : ∀ r r' i, componentId.get r = some i → componentId.get r' = some i → r = r')
    (hi : componentId.get r = some i) :
    Labelled s (vertices ++ [v])
      { sets, componentId, nextId, rows := l.rows ++ [(v, i)] } := by
  refine ⟨hsame, hnext, hdistinct, ?_, ?_⟩
  · simp [h.vertices]
  · intro row hrow
    rw [mem_append, mem_singleton] at hrow
    rcases hrow with hrow | rfl
    · obtain ⟨r', hroot', hget⟩ := h.rows row hrow
      exact ⟨r', hroot', hkeep _ _ hget⟩
    · exact ⟨r, hroot, hi⟩

theorem labelVertex_spec
    (h : Labelled s vertices l) (hsound : l.sets.Sound bound) (hfuel : bound < fuel) {v : V}
    (hv : (s.parent.get (Vertex.id v)).isSome) :
    ∃ l', labelVertex fuel l v = some l' ∧ Labelled s (vertices ++ [v]) l' ∧
      l'.sets.Sound bound := by
  obtain ⟨r, sets, hfind, hroot, hsound', hsame⟩ :=
    find_spec hsound ((h.same.known _).trans hv) hfuel
  rw [h.same.root] at hroot
  have hsame' : s.SameSets sets := ⟨fun x r => (hsame.root x r).trans (h.same.root x r),
    fun x => (hsame.known x).trans (h.same.known x)⟩
  unfold labelVertex
  rw [hfind]
  cases hget : l.componentId.get r with
  | some i =>
    refine ⟨_, by simp only [bind_eq_bind, bind_some, hget]; rfl, ?_, hsound'⟩
    exact h.row hsame' hroot (fun _ _ => id) h.next h.distinct hget
  | none =>
    refine ⟨_, by simp only [bind_eq_bind, bind_some, hget]; rfl, ?_, hsound'⟩
    have hset : ∀ r' i, (l.componentId.set r l.nextId).get r' = some i ↔
        r = r' ∧ l.nextId = i ∨ r ≠ r' ∧ l.componentId.get r' = some i := by
      intro r' i
      rw [get_set]
      by_cases hr : r = r' <;> simp [hr]
    apply h.row hsame' hroot
    · intro r' i hr'
      rw [hset]
      refine .inr ⟨fun hrr' => ?_, hr'⟩
      rw [hrr', hr'] at hget
      cases hget
    · intro r' i hr'
      rw [hset] at hr'
      rcases hr' with ⟨-, rfl⟩ | ⟨-, hr'⟩
      · exact Nat.lt_succ_self _
      · exact Nat.lt_succ_of_lt (h.next _ _ hr')
    · -- the new number is larger than all before
      intro r₁ r₂ i h₁ h₂
      rw [hset] at h₁ h₂
      rcases h₁ with ⟨rfl, rfl⟩ | ⟨-, h₁⟩ <;> rcases h₂ with ⟨rfl, h₂⟩ | ⟨-, h₂⟩
      · rfl
      · exact absurd (h.next _ _ h₂) (Nat.lt_irrefl _)
      · subst h₂
        exact absurd (h.next _ _ h₁) (Nat.lt_irrefl _)
      · exact h.distinct _ _ _ h₁ h₂
    · rw [hset]
      exact .inl ⟨rfl, rfl⟩

theorem labelVertices_spec (hfuel : bound < fuel) (rest : List V) (h : Labelled s vertices l)
    (hsound : l.sets.Sound bound) (hrest : ∀ v ∈ rest, (s.parent.get (Vertex.id v)).isSome) :
    ∃ l', rest.foldlM (labelVertex fuel) l = some l' ∧ Labelled s (vertices ++ rest) l' := by
  induction rest generalizing vertices l with
  | nil => exact ⟨l, rfl, by rwa [append_nil]⟩
  | cons v rest ih =>
    obtain ⟨hv, hrest⟩ := forall_mem_cons.mp hrest
    obtain ⟨l₁, hl₁, h₁, hsound₁⟩ := labelVertex_spec h hsound hfuel hv
    obtain ⟨l₂, hl₂, h₂⟩ := ih h₁ hsound₁ hrest
    refine ⟨l₂, ?_, ?_⟩
    · rw [foldlM_cons, hl₁]
      exact hl₂
    · rw [append_assoc] at h₂
      exact h₂

/-! ## Paths -/

theorem eqvGen_iff_reachable {α : Type} (R : α → α → Prop) (x y : α) :
    EqvGen R x y ↔ (SimpleGraph.fromRel R).Reachable x y := by
  constructor
  · intro h
    induction h with
    | rel x y h =>
      by_cases hxy : x = y
      · exact hxy ▸ .refl _
      · exact SimpleGraph.Adj.reachable ⟨hxy, .inl h⟩
    | refl x => exact .refl x
    | symm x y _ ih => exact ih.symm
    | trans x y z _ _ ihxy ihyz => exact ihxy.trans ihyz
  · rintro ⟨walk⟩
    induction walk with
    | nil => exact .refl _
    | cons hadj _ ih =>
      rw [SimpleGraph.fromRel_adj] at hadj
      rcases hadj.2 with h | h
      · exact .trans _ _ _ (.rel _ _ h) ih
      · exact .trans _ _ _ (.symm _ _ (.rel _ _ h)) ih

/-- **Two vertices get one label if and only if an undirected path connects them**, and every
    vertex gets one label.  With more fuel than there are edges all loops end. -/
theorem components_iff_reachable (g : GraphFrame V E) (fuel : Nat)
    (hfuel : g.edges.length < fuel) :
    ∃ rows, connectedComponents fuel g = some rows ∧ rows.map Prod.fst = g.vertices ∧
      ∀ row ∈ rows, ∀ row' ∈ rows,
        row.2 = row'.2 ↔ g.undirected.Reachable (Vertex.id row.1) (Vertex.id row'.1) := by
  have hstart : ∀ x y, Together (singletons g.vertices).up x y ↔
      EqvGen (fun _ _ => False) x y := by
    intro x y
    rw [together_singletons]
    constructor
    · rintro rfl
      exact .refl x
    · intro h
      induction h with
      | rel _ _ h => exact h.elim
      | refl _ => rfl
      | symm _ _ _ ih => exact ih.symm
      | trans _ _ _ _ _ ihxy ihyz => exact ihxy.trans ihyz
  have hbound : 0 + g.edges.length < fuel := by omega
  obtain ⟨sets, hsets, hsound, hknown, htogether⟩ :=
    unionEdges_spec (sound_singletons g.vertices) g.edges hbound hstart
  rw [Nat.zero_add] at hsound
  have hids : ∀ x, ((singletons g.vertices).parent.get x).isSome ↔ x ∈ g.ids := by
    intro x
    rw [get_singletons]
    by_cases hx : x ∈ g.vertices.map Vertex.id <;> simp [hx, GraphFrame.ids]
  -- the sets are what paths connect
  have hreach : ∀ x y, Together sets.up x y ↔ g.undirected.Reachable x y := by
    intro x y
    rw [htogether, GraphFrame.undirected, ← eqvGen_iff_reachable]
    simp only [false_or, hids]
    rfl
  have hnone : Labelled sets ([] : List V) { sets } :=
    ⟨⟨fun _ _ => Iff.rfl, fun _ => rfl⟩, fun _ _ h => (by cases h),
      fun _ _ _ h => (by cases h), rfl,
      fun _ h => by cases h⟩
  obtain ⟨labels, hlabels, hlabelled⟩ := labelVertices_spec hfuel g.vertices hnone hsound (by
      intro v hv
      rw [hknown, hids]
      exact mem_map_of_mem hv)
  refine ⟨labels.rows, ?_, hlabelled.vertices, ?_⟩
  · simp only [connectedComponents, hsets, hlabels, bind_eq_bind, bind_some]
    rfl
  · intro row hrow row' hrow'
    rw [← hreach]
    obtain ⟨r, hroot, hget⟩ := hlabelled.rows row hrow
    obtain ⟨r', hroot', hget'⟩ := hlabelled.rows row' hrow'
    constructor
    · intro hlabel
      rw [hlabel] at hget
      exact ⟨r, hroot, hlabelled.distinct _ _ _ hget hget' ▸ hroot'⟩
    · rintro ⟨t, ht, ht'⟩
      rw [hroot.unique ht] at hget
      rw [hroot'.unique ht', hget] at hget'
      exact Option.some.inj hget'

/-- An edge given twice, a loop, and an edge to an id that no vertex has. -/
theorem components_iff_reachable_unknown :
    let g : GraphFrame VertexId (VertexId × VertexId) := {
      vertices := [.num 1, .num 2, .str "a", .num 3]
      edges := [(.num 2, .num 1), (.num 1, .num 2), (.str "a", .str "a"), (.num 3, .num 9)] }
    ∃ rows, connectedComponents 5 g = some rows ∧ rows.map Prod.fst = g.vertices ∧
      ∀ row ∈ rows, ∀ row' ∈ rows,
        row.2 = row'.2 ↔ g.undirected.Reachable row.1 row'.1 :=
  components_iff_reachable _ 5 (by decide)

end Components

end Promin.Data
