import Promin.Data.ShortestPaths

/-!
# Shortest paths are shortest

A vertex is settled once the entry with its distance has left the heap.
-/

namespace Promin.Data

open JsMap Multiset Prod

namespace Search

open BinaryHeap

/-- An edge as the search sees it: from where, to where, and its weight. -/
abbrev Arc := VertexId × VertexId × Rat

/-- The neighbors the edges lead to from `u`. -/
def outgoing (arcs : List Arc) (u : VertexId) : List (VertexId × Rat) :=
  (arcs.filter fun arc => arc.1 = u).map snd

def Settled (s : Search) (x : VertexId) (d : Rat) : Prop :=
  s.distance.get x = some d ∧ (x, d) ∉ content s.heap

inductive Chain (arcs : List Arc) (source : VertexId) (s : Search) : VertexId → Rat → Prop
  | source : s.predecessor.get source = none → Chain arcs source s source 0
  | step {x u : VertexId} {c w : Rat} : s.predecessor.get x = some u → s.Settled u c →
      Chain arcs source s u c → (x, w) ∈ outgoing arcs u → Chain arcs source s x (c + w)

/-- The invariant of the search. The neighbors in `waived` need not be looked at yet. -/
structure Searching (arcs : List Arc) (source : VertexId)
    (waived : VertexId → VertexId × Rat → Prop) (s : Search) : Prop where
  heap : IsHeap snd s.heap
  nodup : (content s.heap).Nodup
  entries : ∀ x p, (x, p) ∈ content s.heap → ∃ d, s.distance.get x = some d ∧ d ≤ p
  start : s.distance.get source = some 0
  nonneg : ∀ x d, s.distance.get x = some d → 0 ≤ d
  frontier : ∀ x d, s.Settled x d → ∀ entry ∈ content s.heap, d ≤ entry.2
  relaxed : ∀ x d, s.Settled x d → ∀ n ∈ outgoing arcs x, ¬ waived x n →
    ∃ d', s.distance.get n.1 = some d' ∧ d' ≤ d + n.2
  chain : ∀ x d, s.distance.get x = some d → Chain arcs source s x d

variable {arcs : List Arc} {source : VertexId} {waived : VertexId → VertexId × Rat → Prop}
  {s : Search}

variable {d : Rat} {t : Search}

theorem Settled.unique {x : VertexId} {c : Rat} (hc : s.Settled x c) (hd : s.Settled x d) :
    c = d := by
  have hsame := hc.1
  rw [hd.1] at hsame
  exact (Option.some.inj hsame).symm

theorem Chain.transfer {x : VertexId} (h : Chain arcs source s x d)
    (hsettled : ∀ u c, s.Settled u c → t.Settled u c)
    (hpred : ∀ u c, s.Settled u c → t.predecessor.get u = s.predecessor.get u)
    (hx : t.predecessor.get x = s.predecessor.get x) : Chain arcs source t x d := by
  induction h with
  | source h => exact .source (hx.trans h)
  | step hu hsu _ hmem ih => exact .step (hx.trans hu) (hsettled _ _ hsu) (ih (hpred _ _ hsu)) hmem

/-! ## One neighbor -/

/-- The neighbors of `u` in `rest` need not be looked at yet. -/
def Waiting (u : VertexId) (rest : List (VertexId × Rat)) (x : VertexId) (n : VertexId × Rat) :
    Prop := x = u ∧ n ∈ rest

/-- What the loop over the neighbors of a vertex relies on: the vertex is settled, and no
    settled vertex is farther away. -/
structure Expanding (arcs : List Arc) (source u : VertexId) (d : Rat)
    (rest : List (VertexId × Rat)) (s : Search) : Prop where
  searching : Searching arcs source (Waiting u rest) s
  settled : s.Settled u d
  farthest : ∀ x c, s.Settled x c → c ≤ d

variable {u : VertexId}

theorem Expanding.look {n : VertexId × Rat}
    {rest : List (VertexId × Rat)} (h : Expanding arcs source u d (n :: rest) s)
    (hn : n ∈ outgoing arcs u) (hw : 0 ≤ n.2) :
    Expanding arcs source u d rest (relax u d s n) ∧
      (∀ x c, (Search.relax u d s n).Settled x c ↔ s.Settled x c) ∧
      (Search.relax u d s n).heap.size ≤ s.heap.size + 1 := by
  obtain ⟨hs, hu, hfar⟩ := h
  obtain ⟨y, w⟩ := n
  unfold Search.relax
  dsimp only
  by_cases hbetter : (s.distance.get y).all (d + w < ·) = true
  · rw [if_pos hbetter]
    generalize hcand : d + w = candidate at hbetter
    have hdc : d ≤ candidate := by
      rw [← hcand]
      exact le_add_of_nonneg_right hw
    have hlt : ∀ dy, s.distance.get y = some dy → candidate < dy := by
      intro dy hdy
      rw [hdy] at hbetter
      simpa using hbetter
    -- an improved distance is not settled
    have hunsettled : ∀ c, ¬ s.Settled y c := fun c hc =>
      absurd (hlt c hc.1) (not_lt.mpr (le_trans (hfar y c hc) hdc))
    have hyu : y ≠ u := fun hyu => hunsettled d (hyu ▸ hu)
    have hnew : (y, candidate) ∉ content s.heap := by
      intro hmem
      obtain ⟨dy, hdy, hle⟩ := hs.entries y candidate hmem
      exact absurd (hlt dy hdy) (not_lt.mpr hle)
    set t : Search := {
      distance := s.distance.set y candidate
      predecessor := s.predecessor.set y u
      heap := push snd s.heap (y, candidate) } with ht
    have hcontent : content t.heap = (y, candidate) ::ₘ content s.heap := push_content _ _
    have hsettled : ∀ x c, t.Settled x c ↔ s.Settled x c := by
      intro x c
      unfold Settled
      rw [hcontent, mem_cons]
      by_cases hxy : x = y
      · subst hxy
        constructor
        · rintro ⟨hget, hout⟩
          rw [show t.distance.get x = some candidate from get_set_self _ _ _] at hget
          cases hget
          exact absurd (.inl rfl) hout
        · exact fun hc => absurd hc (hunsettled c)
      · rw [show t.distance.get x = s.distance.get x from get_set_ne _ _ (Ne.symm hxy)]
        simp [hxy]
    have hpred : ∀ x, x ≠ y → t.predecessor.get x = s.predecessor.get x :=
      fun x hx => get_set_ne _ _ (Ne.symm hx)
    have hchain : ∀ x c, x ≠ y → Chain arcs source s x c → Chain arcs source t x c := by
      intro x c hx hc
      apply hc.transfer (fun _ _ => (hsettled _ _).mpr) _ (hpred x hx)
      intro v b hv
      exact hpred v fun hvy => hunsettled b (hvy ▸ hv)
    refine ⟨⟨⟨push_ordered hs.heap _, ?_, ?_, ?_, ?_, ?_, ?_, ?_⟩, ?_, ?_⟩, hsettled, ?_⟩
    · rw [hcontent]
      exact nodup_cons.mpr ⟨hnew, hs.nodup⟩
    · intro x p hmem
      rw [hcontent, mem_cons] at hmem
      by_cases hxy : x = y
      · subst hxy
        refine ⟨candidate, get_set_self _ _ _, ?_⟩
        rcases hmem with heq | hmem
        · cases heq
          exact le_refl _
        · obtain ⟨dy, hdy, hle⟩ := hs.entries x p hmem
          exact le_trans (le_of_lt (hlt dy hdy)) hle
      · rw [show t.distance.get x = s.distance.get x from get_set_ne _ _ (Ne.symm hxy)]
        exact hs.entries x p (hmem.resolve_left fun heq => hxy (congrArg fst heq))
    · -- the source is not improved on
      have hys : y ≠ source := by
        rintro rfl
        exact absurd (hlt 0 hs.start) (not_lt.mpr (le_trans (hs.nonneg u d hu.1) hdc))
      exact (get_set_ne _ _ hys).trans hs.start
    · intro x c hget
      by_cases hxy : x = y
      · rw [hxy, show t.distance.get y = some candidate from get_set_self _ _ _] at hget
        cases hget
        exact le_trans (hs.nonneg u d hu.1) hdc
      · exact hs.nonneg x c ((get_set_ne _ _ (Ne.symm hxy)).symm.trans hget)
    · intro x c hc entry hentry
      rw [hsettled] at hc
      rw [hcontent, mem_cons] at hentry
      rcases hentry with rfl | hentry
      · exact le_trans (hfar x c hc) hdc
      · exact hs.frontier x c hc entry hentry
    · intro x c hc n' hn' hwaived
      rw [hsettled] at hc
      by_cases hlooked : x = u ∧ n' = (y, w)
      · obtain ⟨rfl, rfl⟩ := hlooked
        refine ⟨candidate, get_set_self _ _ _, ?_⟩
        rw [hc.unique hu, hcand]
      · obtain ⟨d', hd', hle⟩ := hs.relaxed x c hc n' hn' fun hw' => by
          rcases List.mem_cons.mp hw'.2 with heq | hrest
          · exact hlooked ⟨hw'.1, heq⟩
          · exact hwaived ⟨hw'.1, hrest⟩
        by_cases hny : n'.1 = y
        · rw [hny] at hd' ⊢
          exact ⟨candidate, get_set_self _ _ _, le_trans (le_of_lt (hlt d' hd')) hle⟩
        · exact ⟨d', (get_set_ne _ _ (Ne.symm hny)).trans hd', hle⟩
    · intro x c hget
      by_cases hxy : x = y
      · subst hxy
        rw [show t.distance.get x = some candidate from get_set_self _ _ _] at hget
        cases hget
        rw [← hcand]
        exact .step (get_set_self _ _ _) ((hsettled u d).mpr hu)
          (hchain u d (Ne.symm hyu) (hs.chain u d hu.1)) hn
      · exact hchain x c hxy
          (hs.chain x c ((get_set_ne _ _ (Ne.symm hxy)).symm.trans hget))
    · exact (hsettled u d).mpr hu
    · exact fun x c hc => hfar x c ((hsettled x c).mp hc)
    · rw [← card_content, ← card_content, hcontent, card_cons]
  · rw [if_neg hbetter]
    refine ⟨⟨{ hs with relaxed := ?_ }, hu, hfar⟩, fun _ _ => Iff.rfl, Nat.le_succ _⟩
    intro x c hc n' hn' hwaived
    by_cases hlooked : x = u ∧ n' = (y, w)
    · obtain ⟨rfl, rfl⟩ := hlooked
      rw [hc.unique hu]
      cases hget : s.distance.get y with
      | none =>
        rw [hget] at hbetter
        exact absurd rfl hbetter
      | some dy =>
        rw [hget] at hbetter
        exact ⟨dy, rfl, by simpa using hbetter⟩
    · apply hs.relaxed x c hc n' hn'
      intro hw'
      rcases List.mem_cons.mp hw'.2 with heq | hrest
      · exact hlooked ⟨hw'.1, heq⟩
      · exact hwaived ⟨hw'.1, hrest⟩

theorem Expanding.lookAll (rest : List (VertexId × Rat))
    (h : Expanding arcs source u d rest s) (hrest : ∀ n ∈ rest, n ∈ outgoing arcs u ∧ 0 ≤ n.2) :
    Searching arcs source (fun _ _ => False) (rest.foldl (Search.relax u d) s) ∧
      (∀ x c, (rest.foldl (Search.relax u d) s).Settled x c ↔ s.Settled x c) ∧
      (rest.foldl (Search.relax u d) s).heap.size ≤ s.heap.size + rest.length := by
  induction rest generalizing s with
  | nil =>
    refine ⟨{ h.searching with relaxed := ?_ }, fun _ _ => Iff.rfl, Nat.le_refl _⟩
    exact fun x c hc n hn _ => h.searching.relaxed x c hc n hn fun hw => nomatch hw.2
  | cons n rest ih =>
    obtain ⟨hn, hrest⟩ := List.forall_mem_cons.mp hrest
    obtain ⟨hexp, hsettled, hsize⟩ := h.look hn.1 hn.2
    obtain ⟨hs, hsettled', hsize'⟩ := ih hexp hrest
    refine ⟨hs, fun x c => (hsettled' x c).trans (hsettled x c), ?_⟩
    rw [List.foldl_cons, List.length_cons]
    omega

/-! ## One entry -/

/-- A stale entry is passed over. -/
theorem Searching.pass (h : Searching arcs source (fun _ _ => False) s)
    {heap : Array (VertexId × Rat)} (hpop : pop snd s.heap = some ((u, d), heap))
    (hstale : ∃ du, s.distance.get u = some du ∧ du < d) :
    Searching arcs source (fun _ _ => False) { s with heap } ∧
      ∀ x c, ({ s with heap } : Search).Settled x c ↔ s.Settled x c := by
  have hcontent : content s.heap = (u, d) ::ₘ content heap := pop_content hpop
  obtain ⟨du, hdu, hlt⟩ := hstale
  have hsettled : ∀ x c, ({ s with heap } : Search).Settled x c ↔ s.Settled x c := by
    intro x c
    unfold Settled
    rw [hcontent, mem_cons]
    constructor
    · rintro ⟨hget, hout⟩
      refine ⟨hget, fun hmem => hmem.elim (fun heq => ?_) hout⟩
      cases heq
      rw [hdu] at hget
      cases hget
      exact lt_irrefl _ hlt
    · exact fun hc => ⟨hc.1, fun hmem => hc.2 (.inr hmem)⟩
  have hsub : ∀ entry ∈ content heap, entry ∈ content s.heap := by
    intro entry hentry
    rw [hcontent]
    exact mem_cons_of_mem hentry
  refine ⟨⟨pop_ordered h.heap hpop, ?_, fun x p hmem => h.entries x p (hsub _ hmem), h.start,
    h.nonneg, ?_, ?_, ?_⟩, hsettled⟩
  · have hnodup := h.nodup
    rw [hcontent] at hnodup
    exact (nodup_cons.mp hnodup).2
  · exact fun x c hc entry hentry => h.frontier x c ((hsettled x c).mp hc) entry (hsub _ hentry)
  · exact fun x c hc n hn => h.relaxed x c ((hsettled x c).mp hc) n hn
  · exact fun x c hget => (h.chain x c hget).transfer (fun v b => (hsettled v b).mpr)
      (fun _ _ _ => rfl) rfl

theorem Searching.settle (h : Searching arcs source (fun _ _ => False) s)
    {heap : Array (VertexId × Rat)} (hpop : pop snd s.heap = some ((u, d), heap))
    (hfresh : (s.distance.get u).any (· < d) = false) :
    Expanding arcs source u d (outgoing arcs u) { s with heap } ∧
      (∀ c, ¬ s.Settled u c) ∧
      ∀ x c, ({ s with heap } : Search).Settled x c ↔ s.Settled x c ∨ x = u ∧ c = d := by
  have hcontent : content s.heap = (u, d) ::ₘ content heap := pop_content hpop
  have htop : (u, d) ∈ content s.heap := by
    rw [hcontent]
    exact mem_cons_self _ _
  have hnodup := h.nodup
  rw [hcontent, nodup_cons] at hnodup
  -- the entry has the distance of the vertex
  have hdist : s.distance.get u = some d := by
    obtain ⟨du, hdu, hle⟩ := h.entries u d htop
    rw [hdu] at hfresh ⊢
    rw [Option.any_some, decide_eq_false_iff_not, not_lt] at hfresh
    rw [le_antisymm hle hfresh]
  have hwaiting : ∀ c, ¬ s.Settled u c := by
    intro c hc
    have hcd := hc.1
    rw [hdist] at hcd
    cases hcd
    exact hc.2 htop
  have hsettled : ∀ x c, ({ s with heap } : Search).Settled x c ↔
      s.Settled x c ∨ x = u ∧ c = d := by
    intro x c
    unfold Settled
    rw [hcontent, mem_cons]
    constructor
    · rintro ⟨hget, hout⟩
      by_cases heq : (x, c) = (u, d)
      · cases heq
        exact .inr ⟨rfl, rfl⟩
      · exact .inl ⟨hget, fun hmem => hmem.elim heq hout⟩
    · rintro (⟨hget, hout⟩ | ⟨rfl, rfl⟩)
      · exact ⟨hget, fun hmem => hout (.inr hmem)⟩
      · exact ⟨hdist, hnodup.1⟩
  have hsub : ∀ entry ∈ content heap, entry ∈ content s.heap := by
    intro entry hentry
    rw [hcontent]
    exact mem_cons_of_mem hentry
  refine ⟨⟨⟨pop_ordered h.heap hpop, hnodup.2, fun x p hmem => h.entries x p (hsub _ hmem),
    h.start, h.nonneg, ?_, ?_, ?_⟩, ?_, ?_⟩, hwaiting, hsettled⟩
  · intro x c hc entry hentry
    rcases (hsettled x c).mp hc with hc | ⟨rfl, rfl⟩
    · exact h.frontier x c hc entry (hsub _ hentry)
    · exact pop_least h.heap hpop (hsub _ hentry)
  · intro x c hc n hn hwaived
    rcases (hsettled x c).mp hc with hc | ⟨rfl, rfl⟩
    · exact h.relaxed x c hc n hn not_false
    · exact absurd ⟨rfl, hn⟩ hwaived
  · exact fun x c hget => (h.chain x c hget).transfer (fun v b hv => (hsettled v b).mpr (.inl hv))
      (fun _ _ _ => rfl) rfl
  · exact (hsettled u d).mpr (.inr ⟨rfl, rfl⟩)
  · intro x c hc
    rcases (hsettled x c).mp hc with hc | ⟨-, rfl⟩
    · exact h.frontier x c hc _ htop
    · exact le_refl _

open Classical in
/-- Edges out of vertices that are not settled. -/
noncomputable def pending (arcs : List Arc) (s : Search) : Nat :=
  arcs.countP fun arc => decide (∀ c, ¬ s.Settled arc.1 c)

open Classical in
theorem pending_congr (h : ∀ x c, t.Settled x c ↔ s.Settled x c) :
    pending arcs t = pending arcs s := by
  apply List.countP_congr
  intro arc _
  rw [decide_eq_true_iff, decide_eq_true_iff]
  exact forall_congr' fun c => not_congr (h arc.1 c)

theorem length_outgoing (u : VertexId) :
    (outgoing arcs u).length = arcs.countP fun arc => decide (arc.1 = u) := by
  rw [outgoing, List.length_map, List.countP_eq_length_filter]

variable (arcs) in
open Classical in
theorem pending_settle (hu : ∀ c, ¬ s.Settled u c)
    (h : ∀ x c, t.Settled x c ↔ s.Settled x c ∨ x = u ∧ c = d) :
    pending arcs t + (outgoing arcs u).length = pending arcs s := by
  rw [length_outgoing]
  unfold pending
  induction arcs with
  | nil => rfl
  | cons arc rest ih =>
    rw [List.countP_cons, List.countP_cons, List.countP_cons]
    by_cases harc : arc.1 = u
    · have hdone : ¬ ∀ c, ¬ t.Settled arc.1 c := fun hnone =>
        hnone d ((h arc.1 d).mpr (.inr ⟨harc, rfl⟩))
      rw [if_neg (by simpa using hdone), if_pos (by simpa using harc),
        if_pos (by simpa [harc] using hu)]
      omega
    · have hsame : (∀ c, ¬ t.Settled arc.1 c) ↔ ∀ c, ¬ s.Settled arc.1 c := by
        simp [h, harc]
      have hdec : decide (∀ c, ¬ t.Settled arc.1 c) = decide (∀ c, ¬ s.Settled arc.1 c) :=
        decide_eq_decide.mpr hsame
      have hother : decide (arc.1 = u) = false := decide_eq_false harc
      rw [hdec, hother, if_neg Bool.false_ne_true, ← ih]
      omega

theorem loop_spec {adj : Adjacency} (hadj : ∀ u, (adj.get u).getD [] = outgoing arcs u)
    (hweights : ∀ arc ∈ arcs, 0 ≤ arc.2.2) {fuel : Nat}
    (h : Searching arcs source (fun _ _ => False) s) (hfuel : s.heap.size + pending arcs s < fuel) :
    ∃ t, loop adj fuel s = some t ∧ Searching arcs source (fun _ _ => False) t ∧ t.heap = #[] := by
  induction fuel generalizing s with
  | zero => omega
  | succ fuel ih =>
    unfold loop
    cases hpop : pop snd s.heap with
    | none => exact ⟨s, rfl, h, pop_eq_none_iff.mp hpop⟩
    | some popped =>
      obtain ⟨⟨u, d⟩, heap⟩ := popped
      have hsize : s.heap.size = heap.size + 1 := by
        have hcard := congrArg Multiset.card (pop_content hpop)
        rw [card_cons, card_content, card_content] at hcard
        exact hcard
      dsimp only
      by_cases hstale : (s.distance.get u).any (· < d) = true
      · rw [if_pos hstale]
        obtain ⟨hs, hsettled⟩ := h.pass hpop (by simpa [Option.any_eq_true] using hstale)
        apply ih hs
        rw [pending_congr hsettled]
        show heap.size + _ < fuel
        omega
      · rw [if_neg hstale, hadj]
        obtain ⟨hexp, hwaiting, hsettled⟩ := h.settle hpop (by simpa using hstale)
        have hnew : ∀ n ∈ outgoing arcs u, n ∈ outgoing arcs u ∧ 0 ≤ n.2 := by
          intro n hn
          refine ⟨hn, ?_⟩
          obtain ⟨arc, harc, rfl⟩ := List.mem_map.mp hn
          exact hweights arc (List.mem_filter.mp harc).1
        obtain ⟨hs, hsame, hgrown⟩ := hexp.lookAll _ hnew
        apply ih hs
        -- what is pushed was pending before
        have hpending := pending_settle arcs hwaiting hsettled
        rw [pending_congr hsame]
        have hgrown : _ ≤ heap.size + _ := hgrown
        omega

end Search

section Correct

variable {V E : Type} [Vertex V] [Edge E]

open Search

/-- The weight of an edge that has a finite one. -/
def ShortestPathsParams.cost (params : ShortestPathsParams E) (e : E) : Rat :=
  match params.weight e with
  | .finite w => w
  | _ => 0

/-- Every weight is a finite number and none is negative. -/
def WeightsOk (g : GraphFrame V E) (params : ShortestPathsParams E) : Prop :=
  ∀ e ∈ g.edges, params.weight e = .finite (params.cost e) ∧ 0 ≤ params.cost e

/-- A path from the source to a vertex, with its cost. -/
inductive PathTo (g : GraphFrame V E) (params : ShortestPathsParams E) : VertexId → Rat → Prop
  | source : PathTo g params params.source 0
  | step {c : Rat} {e : E} : PathTo g params (Edge.src e) c → e ∈ g.edges →
      PathTo g params (Edge.dst e) (c + params.cost e)

/-- Following the predecessors from the vertex ends at the source, and the edges on the way
    have that weight. -/
inductive LeadsBack (g : GraphFrame V E) (params : ShortestPathsParams E)
    (predecessor : VertexId → Option VertexId) : VertexId → Rat → Prop
  | source : predecessor params.source = none → LeadsBack g params predecessor params.source 0
  | step {c : Rat} {e : E} : predecessor (Edge.dst e) = some (Edge.src e) → e ∈ g.edges →
      LeadsBack g params predecessor (Edge.src e) c →
      LeadsBack g params predecessor (Edge.dst e) (c + params.cost e)

/-- The edges as the search sees them. -/
def arcsOf (g : GraphFrame V E) (params : ShortestPathsParams E) : List Arc :=
  g.edges.map fun e => (Edge.src e, Edge.dst e, params.cost e)

omit [Vertex V] in
theorem mem_outgoing {g : GraphFrame V E} {params : ShortestPathsParams E} {u : VertexId}
    {n : VertexId × Rat} : n ∈ outgoing (arcsOf g params) u ↔
      ∃ e ∈ g.edges, Edge.src e = u ∧ Edge.dst e = n.1 ∧ params.cost e = n.2 := by
  simp only [outgoing, arcsOf, List.mem_map, List.mem_filter, decide_eq_true_eq]
  constructor
  · rintro ⟨arc, ⟨⟨e, he, rfl⟩, rfl⟩, rfl⟩
    exact ⟨e, he, rfl, rfl, rfl⟩
  · rintro ⟨e, he, rfl, hdst, hcost⟩
    exact ⟨_, ⟨⟨e, he, rfl⟩, rfl⟩, Prod.ext hdst hcost⟩

theorem addNeighbors_spec {params : ShortestPathsParams E} (edges : List E) (adj : Adjacency)
    (hweights : ∀ e ∈ edges, params.weight e = .finite (params.cost e) ∧ 0 ≤ params.cost e) :
    ∃ adj', edges.foldlM (addNeighbor params) adj = .ok adj' ∧
      ∀ u, (adj'.get u).getD [] = (adj.get u).getD [] ++
        outgoing (edges.map fun e => (Edge.src e, Edge.dst e, params.cost e)) u := by
  induction edges generalizing adj with
  | nil => exact ⟨adj, rfl, by simp [outgoing]⟩
  | cons e rest ih =>
    obtain ⟨he, hrest⟩ := List.forall_mem_cons.mp hweights
    obtain ⟨adj', hadj', hget⟩ := ih (adj.push (Edge.src e) (Edge.dst e, params.cost e)) hrest
    have hadd : addNeighbor params adj e =
        .ok (adj.push (Edge.src e) (Edge.dst e, params.cost e)) := by
      rw [addNeighbor, he.1]
      exact if_neg (not_lt.mpr he.2)
    refine ⟨adj', ?_, fun u => ?_⟩
    · rw [List.foldlM_cons, hadd]
      exact hadj'
    · rw [hget, push_eq_set, get_set]
      by_cases hu : Edge.src e = u
      · subst hu
        simp [outgoing]
      · simp [outgoing, hu]

theorem searching_start (arcs : List Arc) (source : VertexId) :
    Searching arcs source (fun _ _ => False) (start source) := by
  have hcontent : BinaryHeap.content (start source).heap = {(source, 0)} := by
    show BinaryHeap.content (BinaryHeap.push _ _ _) = _
    rw [BinaryHeap.push_content]
    rfl
  have hget : ∀ x d, (start source).distance.get x = some d → x = source ∧ d = 0 := by
    intro x d h
    have h : (JsMap.empty.set source (0 : Rat)).get x = some d := h
    rw [get_set] at h
    split at h
    · rename_i hx
      cases h
      exact ⟨hx.symm, rfl⟩
    · cases h
  have hsettled : ∀ x d, ¬ (start source).Settled x d := by
    intro x d h
    obtain ⟨rfl, rfl⟩ := hget x d h.1
    apply h.2
    rw [hcontent]
    exact mem_singleton_self _
  constructor
  · apply BinaryHeap.push_ordered
    exact fun i _ => le_of_eq (by simp [BinaryHeap.keyAt])
  · rw [hcontent]
    exact nodup_singleton _
  · intro x p hmem
    rw [hcontent, mem_singleton] at hmem
    cases hmem
    exact ⟨0, get_set_self _ _ _, le_refl _⟩
  · exact get_set_self _ _ _
  · exact fun x d h => le_of_eq (hget x d h).2.symm
  · exact fun x d h => absurd h (hsettled x d)
  · exact fun x d h => absurd h (hsettled x d)
  · intro x d h
    obtain ⟨rfl, rfl⟩ := hget x d h
    exact .source rfl

/-- **Distances are minimal and predecessors lead back along a path of that weight**, for every
    graph whose weights are not negative.  The search takes a step for each entry, and no more
    are pushed than the source and one for each edge. -/
theorem shortestPaths_correct (g : GraphFrame V E) (params : ShortestPathsParams E) (fuel : Nat)
    (hweights : WeightsOk g params) (hfuel : g.edges.length + 1 < fuel) :
    ∃ distance : VertexId → Option Rat, ∃ predecessor : VertexId → Option VertexId,
      shortestPaths fuel g params = .ok (some (g.vertices.map fun v =>
        ⟨Vertex.id v, distance (Vertex.id v), predecessor (Vertex.id v)⟩)) ∧
      (∀ x, distance x = none ↔ ∀ c, ¬ PathTo g params x c) ∧
      (∀ x d, distance x = some d → IsLeast {c | PathTo g params x c} d) ∧
      ∀ x d, distance x = some d → LeadsBack g params predecessor x d := by
  obtain ⟨adj, hadj, hget⟩ := addNeighbors_spec g.edges JsMap.empty hweights
  have harcs : ∀ arc ∈ arcsOf g params, 0 ≤ arc.2.2 := by
    intro arc harc
    obtain ⟨e, he, rfl⟩ := List.mem_map.mp harc
    exact (hweights e he).2
  have hstart : (start params.source).heap.size + pending (arcsOf g params) (start params.source)
      < fuel := by
    have hsize : (start params.source).heap.size = 1 := by
      rw [← BinaryHeap.card_content]
      show (BinaryHeap.content (BinaryHeap.push _ _ _)).card = 1
      rw [BinaryHeap.push_content]
      rfl
    have hpending : pending (arcsOf g params) (start params.source) ≤ g.edges.length := by
      have hle := List.countP_le_length (p := fun arc : Arc =>
        @decide (∀ c, ¬ (start params.source).Settled arc.1 c) (Classical.propDecidable _))
        (l := arcsOf g params)
      rwa [arcsOf, List.length_map] at hle
    omega
  obtain ⟨s, hloop, hs, hempty⟩ := loop_spec (fun u => (hget u).trans (List.nil_append _))
    harcs (searching_start _ params.source) hstart
  -- with an empty heap every distance is settled
  have hsettled : ∀ x d, s.distance.get x = some d → s.Settled x d := by
    intro x d hx
    refine ⟨hx, ?_⟩
    rw [hempty]
    exact notMem_zero _
  have hchain : ∀ x d, s.distance.get x = some d →
      LeadsBack g params s.predecessor.get x d := by
    intro x d hx
    have hc := hs.chain x d hx
    clear hx
    induction hc with
    | source h => exact .source h
    | step hu _ _ hmem ih =>
      obtain ⟨e, he, rfl, hdst, hcost⟩ := mem_outgoing.mp hmem
      dsimp only at hdst hcost
      subst hdst
      subst hcost
      exact .step hu he ih
  have hpath : ∀ x d, LeadsBack g params s.predecessor.get x d →
      PathTo g params x d := by
    intro x d h
    induction h with
    | source _ => exact .source
    | step _ he _ ih => exact .step ih he
  -- along every path the distances grow by no more than the weights
  have hle : ∀ x c, PathTo g params x c → ∃ d, s.distance.get x = some d ∧ d ≤ c := by
    intro x c h
    induction h with
    | source => exact ⟨0, hs.start, le_refl _⟩
    | @step c e _ he ih =>
      obtain ⟨d, hd, hdc⟩ := ih
      obtain ⟨d', hd', hle⟩ := hs.relaxed _ _ (hsettled _ _ hd) (Edge.dst e, params.cost e)
        (mem_outgoing.mpr ⟨e, he, rfl, rfl, rfl⟩) not_false
      exact ⟨d', hd', le_trans hle (add_le_add hdc (le_refl _))⟩
  refine ⟨s.distance.get, s.predecessor.get, ?_, ?_, ?_, hchain⟩
  · rw [shortestPaths, hadj]
    show Except.ok (Option.map _ (Search.loop adj fuel (start params.source))) = _
    rw [hloop]
    rfl
  · intro x
    constructor
    · intro hnone c hc
      obtain ⟨d, hd, -⟩ := hle x c hc
      rw [hnone] at hd
      exact nomatch hd
    · intro hno
      cases hget : s.distance.get x with
      | none => rfl
      | some d => exact absurd (hpath x d (hchain x d hget)) (hno d)
  · intro x d hx
    refine ⟨hpath x d (hchain x d hx), fun c hc => ?_⟩
    obtain ⟨d', hd', hle⟩ := hle x c hc
    rw [hx] at hd'
    cases hd'
    exact hle

/-- A graph with parallel edges, a loop and edges without weight. -/
theorem shortestPaths_correct_parallel :
    let g : GraphFrame VertexId (VertexId × VertexId) := {
      vertices := [.num 1, .num 2, .str "a"]
      edges := [(.num 1, .num 2), (.num 1, .num 2), (.num 2, .num 1), (.num 2, .num 2)] }
    let params : ShortestPathsParams (VertexId × VertexId) := {
      source := .num 1
      weightColumn := some fun e => .finite (if e.1 = .num 1 then 2 else 0) }
    ∃ distance : VertexId → Option Rat, ∃ predecessor : VertexId → Option VertexId,
      shortestPaths 6 g params = .ok (some (g.vertices.map fun v =>
        ⟨v, distance v, predecessor v⟩)) ∧
      (∀ x, distance x = none ↔ ∀ c, ¬ PathTo g params x c) ∧
      (∀ x d, distance x = some d → IsLeast {c | PathTo g params x c} d) ∧
      ∀ x d, distance x = some d → LeadsBack g params predecessor x d :=
  shortestPaths_correct _ _ 6 (by unfold WeightsOk; decide) (by decide)

end Correct

end Promin.Data
