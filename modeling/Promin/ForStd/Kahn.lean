import Mathlib.Order.WellFoundedSet

/-!
# Taking the nodes of a graph in dependency order

Kahn's algorithm over any choice among the available nodes: each node counts the edges
into it from nodes that are not taken yet, and is available once the count is zero.
-/

namespace Kahn

open List Relation

variable {κ : Type} [DecidableEq κ]

def Edge (deps : κ → List κ) (a b : κ) : Prop := b ∈ deps a

/-- No node reaches itself. -/
def Acyclic (deps : κ → List κ) : Prop := ∀ n, ¬ TransGen (Edge deps) n n

structure State (κ : Type) where
  /-- Edges into the node from nodes not taken yet. -/
  count : κ → Int
  available : List κ

/-- One edge to `dep` less. -/
def release (s : State κ) (dep : κ) : State κ where
  count := Function.update s.count dep (s.count dep - 1)
  available := if s.count dep - 1 = 0 then s.available ++ [dep] else s.available

/-- The nodes in the order they are taken. -/
def drain (deps : κ → List κ) (choose : List κ → Option (κ × List κ)) :
    Nat → State κ → List κ
  | 0, _ => []
  | fuel + 1, s =>
    match choose s.available with
    | none => []
    | some (next, rest) =>
      next :: drain deps choose fuel ((deps next).foldl release { s with available := rest })

/-- Choose the first item that no other comes `before`. -/
def chooseBest (before : κ → κ → Bool) : List κ → Option (κ × List κ)
  | [] => none
  | x :: xs =>
    let best := xs.foldl (fun best y => if before y best then y else best) x
    some (best, (x :: xs).erase best)

/-- A choice function takes one item out of a list, if there is one. -/
structure Choice (choose : List κ → Option (κ × List κ)) : Prop where
  some : ∀ {l x rest}, choose l = some (x, rest) → l.Perm (x :: rest)
  none : ∀ {l}, choose l = none → l = []

theorem chooseBest_choice (before : κ → κ → Bool) : Choice (chooseBest before) := by
  constructor
  · intro l x rest h
    cases l with
    | nil => simp [chooseBest] at h
    | cons y ys =>
      simp only [chooseBest, Option.some.injEq, Prod.mk.injEq] at h
      obtain ⟨hbest, hrest⟩ := h
      rw [hbest] at hrest
      have hmem : ∀ (l : List κ) (z : κ),
          l.foldl (fun best y => if before y best then y else best) z ∈ z :: l := by
        intro l
        induction l with
        | nil => simp
        | cons w ws ih =>
          intro z
          simp only [foldl_cons]
          split
          · exact mem_cons_of_mem _ (ih w)
          · have := ih z
            grind
      rw [← hrest]
      exact perm_cons_erase (hbest ▸ hmem ys y)
  · intro l h
    cases l with
    | nil => rfl
    | cons y ys => simp [chooseBest] at h

/-! ## Releasing -/

theorem count_foldl_release (ds : List κ) (s : State κ) (n : κ) :
    (ds.foldl release s).count n = s.count n - ds.count n := by
  induction ds generalizing s with
  | nil => simp
  | cons d ds ih =>
    rw [foldl_cons, ih, count_cons]
    by_cases h : d = n
    · subst h
      simp only [release, Function.update_self, BEq.rfl, ↓reduceIte]
      omega
    · have hne : ¬ (d == n) = true := by simpa using h
      simp [release, Function.update_of_ne (Ne.symm h), hne]

theorem available_foldl_release (ds : List κ) (s : State κ)
    (hle : ∀ n, (ds.count n : Int) ≤ s.count n) :
    ∃ new, (ds.foldl release s).available = s.available ++ new ∧ new.Nodup ∧
      ∀ n, n ∈ new ↔ n ∈ ds ∧ s.count n = ds.count n := by
  induction ds generalizing s with
  | nil => exact ⟨[], by simp⟩
  | cons d ds ih =>
    have hcount : ∀ n, (release s d).count n = if n = d then s.count d - 1 else s.count n := by
      intro n
      by_cases h : n = d <;> simp [release, h]
    have hcons : ∀ n, (((d :: ds).count n : Nat) : Int) =
        if n = d then (ds.count d : Int) + 1 else ds.count n := by
      intro n
      by_cases h : n = d
      · simp [h]
      · simp [h, count_cons_of_ne (Ne.symm h)]
    have hle' : ∀ n, (ds.count n : Int) ≤ (release s d).count n := by
      intro n
      have h := hle n
      rw [hcons] at h
      rw [hcount]
      by_cases hn : n = d
      · subst hn
        simp only [↓reduceIte] at h ⊢
        omega
      · simpa [hn] using h
    obtain ⟨new, hav, hnd, hmem⟩ := ih (release s d) hle'
    rw [foldl_cons, hav]
    by_cases hlast : s.count d - 1 = 0
    · -- the last edge to `d`: no further edge to it is left in `ds`
      have hnot : d ∉ ds := by
        intro hd
        have hpos := count_pos_iff.mpr hd
        have := hle d
        rw [hcons, if_pos rfl] at this
        omega
      refine ⟨d :: new, by simp [release, hlast], ?_, ?_⟩
      · exact nodup_cons.mpr ⟨fun h => hnot ((hmem d).mp h).1, hnd⟩
      · intro n
        rw [mem_cons, hmem, hcount, hcons]
        by_cases hn : n = d
        · subst hn
          have hzero := count_eq_zero.mpr hnot
          simp [hzero]
          omega
        · simp [hn]
    · refine ⟨new, by simp [release, hlast], hnd, ?_⟩
      intro n
      rw [hmem, hcount, hcons]
      by_cases hn : n = d
      · subst hn
        simp only [↓reduceIte, mem_cons, true_or, true_and]
        constructor
        · exact fun h => by omega
        · intro h
          have hpos : 0 < ds.count n := by omega
          exact ⟨count_pos_iff.mp hpos, by omega⟩
      · simp [hn]

/-! ## Draining -/

/-- What holds before each choice, `rest` being the nodes not taken yet. -/
structure Inv (deps : κ → List κ) (rest : List κ) (s : State κ) : Prop where
  nodup : rest.Nodup
  closed : ∀ m ∈ rest, ∀ d ∈ deps m, d ∈ rest
  count : ∀ n, s.count n = ((rest.flatMap deps).count n : Int)
  available_nodup : s.available.Nodup
  available : ∀ n, n ∈ s.available ↔ n ∈ rest ∧ s.count n = 0

variable {deps : κ → List κ} {s : State κ} {l rest : List κ}

theorem Inv.no_edge (h : Inv deps rest s)
    {n : κ} (hzero : s.count n = 0) : ∀ m ∈ rest, n ∉ deps m := by
  intro m hm hn
  have hpos : 0 < (rest.flatMap deps).count n :=
    count_pos_iff.mpr (mem_flatMap.mpr ⟨m, hm, hn⟩)
  have := h.count n
  omega

theorem Inv.available_ne_nil (hacyclic : Acyclic deps)
    (h : Inv deps rest s) (hrest : rest ≠ []) : s.available ≠ [] := by
  -- a node no other reaches: its count is zero
  let below : {n // n ∈ rest} → {n // n ∈ rest} → Prop :=
    fun a b => TransGen (Edge deps) a.1 b.1
  have : IsTrans _ below := ⟨fun _ _ _ hab hbc => hab.trans hbc⟩
  have : Std.Irrefl below := ⟨fun a => hacyclic a.1⟩
  have hwf : WellFounded below := Finite.wellFounded_of_trans_of_irrefl below
  obtain ⟨x, hx⟩ := exists_mem_of_ne_nil rest hrest
  obtain ⟨n, -, hmin⟩ := hwf.has_min Set.univ ⟨⟨x, hx⟩, trivial⟩
  have hzero : (rest.flatMap deps).count n.1 = 0 := by
    rw [count_eq_zero]
    intro hmem
    obtain ⟨m, hm, hn⟩ := mem_flatMap.mp hmem
    exact hmin ⟨m, hm⟩ trivial (TransGen.single hn)
  have hav : n.1 ∈ s.available := (h.available n.1).mpr ⟨n.2, by rw [h.count]; simp [hzero]⟩
  exact ne_nil_of_mem hav

theorem Inv.take (h : Inv deps rest s)
    {next : κ} {others : List κ} (hperm : s.available.Perm (next :: others)) :
    Inv deps (rest.erase next) ((deps next).foldl release { s with available := others }) := by
  have hav : next ∈ s.available := hperm.mem_iff.mpr mem_cons_self
  obtain ⟨hmem, hzero⟩ := (h.available next).mp hav
  have hedge := h.no_edge hzero
  have hnd := hperm.nodup_iff.mp h.available_nodup
  have hrest : rest.Perm (next :: rest.erase next) := perm_cons_erase hmem
  have hsplit : ∀ n, (rest.flatMap deps).count n =
      (deps next).count n + ((rest.erase next).flatMap deps).count n := by
    intro n
    rw [(hrest.flatMap_right deps).count_eq n, flatMap_cons, count_append]
  have hcount : ∀ n, ((deps next).foldl release { s with available := others }).count n =
      (((rest.erase next).flatMap deps).count n : Int) := by
    intro n
    rw [count_foldl_release, h.count, hsplit]
    omega
  have hle : ∀ n, ((deps next).count n : Int) ≤
      ({ s with available := others } : State κ).count n := by
    intro n
    show _ ≤ s.count n
    rw [h.count, hsplit]
    omega
  obtain ⟨new, havail, hnew, hin⟩ := available_foldl_release (deps next) _ hle
  constructor
  · exact h.nodup.erase _
  · intro m hm d hd
    have hmrest := mem_of_mem_erase hm
    rw [h.nodup.mem_erase_iff]
    exact ⟨fun heq => hedge m hmrest (heq ▸ hd), h.closed m hmrest d hd⟩
  · exact hcount
  · rw [havail, nodup_append]
    refine ⟨(nodup_cons.mp hnd).2, hnew, ?_⟩
    -- what was available has no edges left, what becomes available had some
    intro a ha b hb heq
    subst heq
    have hold : a ∈ s.available := hperm.mem_iff.mpr (mem_cons_of_mem _ ha)
    obtain ⟨hda, -⟩ := (hin a).mp hb
    exact h.no_edge ((h.available a).mp hold).2 next hmem hda
  · intro n
    rw [havail, hcount, mem_append, hin, h.nodup.mem_erase_iff]
    have hothers : n ∈ others ↔ n ≠ next ∧ n ∈ s.available := by
      rw [hperm.mem_iff, mem_cons]
      have := (nodup_cons.mp hnd).1
      grind
    rw [hothers, h.available]
    have hs : s.count n =
        ((deps next).count n : Int) + ((rest.erase next).flatMap deps).count n := by
      rw [h.count, hsplit]
      simp
    have hdeps : n ∈ deps next → n ∈ rest ∧ n ≠ next := fun hn =>
      ⟨h.closed next hmem n hn, fun heq => hedge next hmem (heq ▸ hn)⟩
    show (_ ∨ n ∈ deps next ∧ s.count n = _) ↔ _
    by_cases hn : n ∈ deps next
    · obtain ⟨hnrest, hne⟩ := hdeps hn
      have hpos := count_pos_iff.mpr hn
      simp only [hn, hnrest, hne, ne_eq, not_false_eq_true, true_and]
      omega
    · have hzero' := count_eq_zero.mpr hn
      simp only [hn, false_and, or_false, ne_eq]
      rw [hzero'] at hs
      constructor
      · exact fun hx => ⟨⟨hx.1, hx.2.1⟩, by omega⟩
      · exact fun hx => ⟨hx.1.1, hx.1.2, by omega⟩

theorem drain_spec (hacyclic : Acyclic deps)
    {choose : List κ → Option (κ × List κ)} (hchoose : Choice choose) (fuel : Nat) :
    ∀ rest s, Inv deps rest s → rest.length ≤ fuel →
      (drain deps choose fuel s).Perm rest ∧
        (drain deps choose fuel s).Pairwise fun a b => a ∉ deps b := by
  induction fuel with
  | zero =>
    intro rest s _ hlen
    have hnil : rest = [] := length_eq_zero_iff.mp (by omega)
    simp [drain, hnil]
  | succ fuel ih =>
    intro rest s h hlen
    simp only [drain]
    cases hc : choose s.available with
    | none =>
      have hnil : rest = [] := by
        by_contra hne
        exact h.available_ne_nil hacyclic hne (hchoose.none hc)
      simp [hnil]
    | some p =>
      obtain ⟨next, others⟩ := p
      have hperm := hchoose.some hc
      obtain ⟨hmem, hzero⟩ := (h.available next).mp (hperm.mem_iff.mpr mem_cons_self)
      have hlen' : (rest.erase next).length ≤ fuel := by
        rw [length_erase_of_mem hmem]
        omega
      obtain ⟨hp, hpw⟩ := ih _ _ (h.take hperm) hlen'
      constructor
      · exact (hp.cons next).trans (perm_cons_erase hmem).symm
      · apply pairwise_cons.mpr
        refine ⟨fun b hb => ?_, hpw⟩
        exact h.no_edge hzero b (mem_of_mem_erase (hp.mem_iff.mp hb))

theorem drain_sound {choose : List κ → Option (κ × List κ)} (hchoose : Choice choose) (fuel : Nat) :
    ∀ rest s, Inv deps rest s → ∃ left, (drain deps choose fuel s ++ left).Perm rest ∧
      ((drain deps choose fuel s).Pairwise fun a b => a ∉ deps b) ∧
      ∀ a ∈ drain deps choose fuel s, a ∉ deps a := by
  induction fuel with
  | zero =>
    intro rest s _
    exact ⟨rest, by simp [drain]⟩
  | succ fuel ih =>
    intro rest s h
    simp only [drain]
    cases hc : choose s.available with
    | none => exact ⟨rest, by simp⟩
    | some p =>
      obtain ⟨next, others⟩ := p
      have hperm := hchoose.some hc
      obtain ⟨hmem, hzero⟩ := (h.available next).mp (hperm.mem_iff.mpr mem_cons_self)
      obtain ⟨left, hp, hpw, hself⟩ := ih _ _ (h.take hperm)
      refine ⟨left, (hp.cons next).trans (perm_cons_erase hmem).symm, ?_, ?_⟩
      · refine pairwise_cons.mpr ⟨fun b hb => ?_, hpw⟩
        have hrest := hp.mem_iff.mp (mem_append_left left hb)
        exact h.no_edge hzero b (mem_of_mem_erase hrest)
      · intro a ha
        rcases mem_cons.mp ha with rfl | ha
        · exact h.no_edge hzero a hmem
        · exact hself a ha

theorem edge_idxOf_lt (hpw : l.Pairwise fun a b => a ∉ deps b) {m d : κ} (hm : m ∈ l) (hd : d ∈ l)
    (hself : m ∉ deps m) (hedge : d ∈ deps m) : l.idxOf m < l.idxOf d := by
  have hm' := idxOf_lt_length_of_mem hm
  have hd' := idxOf_lt_length_of_mem hd
  rcases Nat.lt_trichotomy (l.idxOf m) (l.idxOf d) with h | h | h
  · exact h
  · have heq : m = d := by
      rw [← getElem_idxOf hm', ← getElem_idxOf hd']
      simp only [h]
    exact absurd hedge (heq ▸ hself)
  · have hnot := pairwise_iff_getElem.mp hpw _ _ hd' hm' h
    rw [getElem_idxOf, getElem_idxOf] at hnot
    exact absurd hedge hnot

theorem reach_idxOf_lt
    (hclosed : ∀ m ∈ l, ∀ d ∈ deps m, d ∈ l) (hpw : l.Pairwise fun a b => a ∉ deps b)
    (hself : ∀ m ∈ l, m ∉ deps m) {m d : κ} (hreach : TransGen (Edge deps) m d)
    (hm : m ∈ l) : d ∈ l ∧ l.idxOf m < l.idxOf d := by
  induction hreach with
  | single hedge =>
    have hd := hclosed m hm _ hedge
    exact ⟨hd, edge_idxOf_lt hpw hm hd (hself m hm) hedge⟩
  | tail _ hedge ih =>
    obtain ⟨hmid, hlt⟩ := ih
    have hd := hclosed _ hmid _ hedge
    exact ⟨hd, hlt.trans (edge_idxOf_lt hpw hmid hd (hself _ hmid) hedge)⟩

theorem pairwise_not_reach (hacyclic : Acyclic deps)
    (hnd : l.Nodup) (hclosed : ∀ m ∈ l, ∀ d ∈ deps m, d ∈ l)
    (hpw : l.Pairwise fun a b => a ∉ deps b) :
    l.Pairwise fun a b => ¬ TransGen (Edge deps) b a := by
  have hself : ∀ m ∈ l, m ∉ deps m := fun m _ hedge => hacyclic m (.single hedge)
  rw [pairwise_iff_getElem]
  intro i j hi hj hij hreach
  have hlt := (reach_idxOf_lt hclosed hpw hself hreach (getElem_mem hj)).2
  rw [hnd.idxOf_getElem, hnd.idxOf_getElem] at hlt
  omega

theorem Inv.perm {rest' : List κ} (h : Inv deps rest s)
    (hperm : rest.Perm rest') : Inv deps rest' s where
  nodup := hperm.nodup_iff.mp h.nodup
  closed := fun m hm d hd => hperm.mem_iff.mp (h.closed m (hperm.mem_iff.mpr hm) d hd)
  count := fun n => by rw [h.count, (hperm.flatMap_right deps).count_eq]
  available_nodup := h.available_nodup
  available := fun n => by rw [h.available, hperm.mem_iff]

/-- The item that comes before all others is chosen. -/
theorem chooseBest_eq {before : κ → κ → Bool} {x : κ} (hx : x ∈ l)
    (hfirst : ∀ y ∈ l, y ≠ x → before x y = true)
    (hlast : ∀ y ∈ l, before y x = false) : chooseBest before l = some (x, l.erase x) := by
  have hfold : ∀ (l : List κ) (z : κ), x ∈ z :: l →
      (∀ y ∈ z :: l, y ≠ x → before x y = true) → (∀ y ∈ z :: l, before y x = false) →
      l.foldl (fun best y => if before y best then y else best) z = x := by
    intro l
    induction l with
    | nil =>
      intro z hx _ _
      exact (mem_singleton.mp hx).symm
    | cons w ws ih =>
      intro z hx hfirst hlast
      rw [foldl_cons]
      have hz := forall_mem_cons.mp hfirst
      have hz' := forall_mem_cons.mp hlast
      split
      · rename_i hbefore
        -- the item leads only until a better one comes
        apply ih
        · rcases mem_cons.mp hx with rfl | hx
          · exact absurd hbefore (by simp [hz'.2 w mem_cons_self])
          · exact hx
        · exact hz.2
        · exact hz'.2
      · rename_i hbefore
        apply ih
        · rcases mem_cons.mp hx with rfl | hx
          · exact mem_cons_self
          · rcases mem_cons.mp hx with rfl | hx
            · by_cases hzx : z = x
              · exact hzx ▸ mem_cons_self
              · exact absurd (hz.1 hzx) hbefore
            · exact mem_cons_of_mem _ hx
        · exact fun y hy => hfirst y (by grind)
        · exact fun y hy => hlast y (by grind)
  cases l with
  | nil => exact nomatch hx
  | cons z l => simp only [chooseBest, hfold l z hx hfirst hlast]

/-- Taking the best available node first follows an order of all nodes that is best first
    and takes dependents first. -/
theorem drain_eq {before : κ → κ → Bool} (fuel : Nat) :
    ∀ (order : List κ) (s : State κ), Inv deps order s →
      (order.Pairwise fun a b => before a b = true ∧ before b a = false) →
      (∀ a ∈ order, before a a = false) → (order.Pairwise fun a b => a ∉ deps b) →
      (∀ a ∈ order, a ∉ deps a) → order.length ≤ fuel →
      drain deps (chooseBest before) fuel s = order := by
  induction fuel with
  | zero =>
    intro order s _ _ _ _ _ hlen
    have hnil : order = [] := length_eq_zero_iff.mp (by omega)
    simp [drain, hnil]
  | succ fuel ih =>
    intro order s h hbest hirrefl hpw hself hlen
    cases order with
    | nil =>
      have hnone : s.available = [] := by
        apply eq_nil_iff_forall_not_mem.mpr
        exact fun n hn => nomatch ((h.available n).mp hn).1
      simp [drain, chooseBest, hnone]
    | cons x order =>
      obtain ⟨hx, hbest⟩ := pairwise_cons.mp hbest
      obtain ⟨hxdeps, hpw⟩ := pairwise_cons.mp hpw
      obtain ⟨hxself, hself⟩ := forall_mem_cons.mp hself
      obtain ⟨hxirrefl, hirrefl⟩ := forall_mem_cons.mp hirrefl
      -- no node has an edge to the first one
      have hzero : s.count x = 0 := by
        rw [h.count, flatMap_cons, count_append, count_eq_zero.mpr hxself]
        have hrest : (order.flatMap deps).count x = 0 := by
          rw [count_eq_zero, mem_flatMap]
          exact fun ⟨b, hb, hxb⟩ => hxdeps b hb hxb
        simp [hrest]
      have havail : x ∈ s.available := (h.available x).mpr ⟨mem_cons_self, hzero⟩
      have hchoose : chooseBest before s.available = some (x, s.available.erase x) := by
        apply chooseBest_eq havail
        · intro y hy hne
          have hmem := ((h.available y).mp hy).1
          exact (hx y ((mem_cons.mp hmem).resolve_left hne)).1
        · intro y hy
          have hmem := ((h.available y).mp hy).1
          rcases mem_cons.mp hmem with rfl | hmem
          · exact hxirrefl
          · exact (hx y hmem).2
      have hnext := h.take (perm_cons_erase havail)
      rw [erase_cons_head] at hnext
      simp only [drain, hchoose]
      rw [ih order _ hnext hbest hirrefl hpw hself (by simpa using hlen)]

theorem Inv.start {nodes : List κ} (hnd : nodes.Nodup)
    (hclosed : ∀ m ∈ nodes, ∀ d ∈ deps m, d ∈ nodes) {count : κ → Int}
    (hcount : ∀ n, count n = ((nodes.flatMap deps).count n : Int)) :
    Inv deps nodes ⟨count, nodes.filter fun n => count n = 0⟩ where
  nodup := hnd
  closed := hclosed
  count := hcount
  available_nodup := hnd.filter _
  available := fun n => by simp

end Kahn
