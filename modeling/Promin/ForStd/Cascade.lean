import Mathlib.Data.Finset.Card

/-!
# Walking down from a node

Two ways to go down from a node of a graph that is given by the children of each
node.
-/

namespace Cascade

open Relation

open List hiding mem_filter

open Finset

variable {κ : Type} (children : κ → List κ)

def Child (k c : κ) : Prop := c ∈ children k

/-- `x` is reachable from `k`, both and everything between being live. -/
def LiveReach (live : κ → Bool) (k x : κ) : Prop :=
  live k = true ∧ ReflTransGen (fun a b => Child children a b ∧ live b = true) k x

/-- The marked nodes after a depth-first search from `k` that stops at nodes that are not
    live or already marked. -/
def mark [DecidableEq κ] (live : κ → Bool) : Nat → List κ → κ → List κ
  | 0, marked, _ => marked
  | fuel + 1, marked, k =>
    if live k && !marked.contains k then
      (children k).foldl (fun marked c => mark live fuel marked c) (k :: marked)
    else marked

def visit : Nat → κ → Option (List κ)
  | 0, _ => none
  | fuel + 1, k => (children k).foldlM (fun l c => (visit fuel c).map (l ++ ·)) [k]

variable {children} {k : κ} {fuel : Nat} {l nodes : List κ}

theorem LiveReach.last {live : κ → Bool} {x : κ} (h : LiveReach children live k x) :
    live x = true := by
  obtain ⟨hlive, hsteps⟩ := h
  cases hsteps.cases_tail with
  | inl heq => exact heq ▸ hlive
  | inr htail =>
    obtain ⟨_, -, -, hx⟩ := htail
    exact hx

/-! ## Marking -/

/-- What a search from the nodes `roots` makes of the marks. -/
structure Marks (children : κ → List κ) (live : κ → Bool) (roots marked result : List κ) :
    Prop where
  kept : ∀ x ∈ marked, x ∈ result
  roots_marked : ∀ k ∈ roots, live k = true → k ∈ result
  sound : ∀ x ∈ result, x ∈ marked ∨ ∃ k ∈ roots, LiveReach children live k x
  closed : ∀ x ∈ result, x ∉ marked → ∀ c ∈ children x, live c = true → c ∈ result

section Marking

variable [DecidableEq κ] {live : κ → Bool} {nodes : List κ}

private def free (nodes : List κ) (live : κ → Bool) (marked : List κ) : Nat :=
  (nodes.toFinset.filter fun x => live x = true ∧ x ∉ marked).card

variable {k : κ} {marked : List κ}

private theorem free_le {marked' : List κ} (h : ∀ x ∈ marked, x ∈ marked') :
    free nodes live marked' ≤ free nodes live marked := by
  apply card_le_card
  intro x hx
  simp only [mem_filter] at hx ⊢
  exact ⟨hx.1, hx.2.1, fun hmem => hx.2.2 (h x hmem)⟩

private theorem free_cons_lt (hk : k ∈ nodes) (hlive : live k = true)
    (hnew : k ∉ marked) : free nodes live (k :: marked) < free nodes live marked := by
  apply card_lt_card
  rw [ssubset_iff_of_subset]
  · refine ⟨k, ?_, ?_⟩
    · simp [hk, hlive, hnew]
    · simp
  · intro x hx
    simp only [mem_filter, List.mem_cons, not_or] at hx ⊢
    exact ⟨hx.1, hx.2.1, hx.2.2.2⟩

omit [DecidableEq κ] in
private theorem Marks.refl (roots marked : List κ)
    (h : ∀ k ∈ roots, live k = true → k ∈ marked) : Marks children live roots marked marked :=
  ⟨fun _ hx => hx, h, fun _ hx => .inl hx, fun _ hx hnot => absurd hx hnot⟩

/-- Searching from one node after another. -/
private theorem Marks.cons {roots middle result : List κ}
    (h : Marks children live [k] marked middle) (h' : Marks children live roots middle result) :
    Marks children live (k :: roots) marked result := by
  constructor
  · exact fun x hx => h'.kept x (h.kept x hx)
  · intro r hr hlive
    cases List.mem_cons.mp hr with
    | inl heq =>
      rw [heq] at hlive ⊢
      exact h'.kept k (h.roots_marked k mem_cons_self hlive)
    | inr hrest => exact h'.roots_marked r hrest hlive
  · intro x hx
    cases h'.sound x hx with
    | inl hmiddle =>
      cases h.sound x hmiddle with
      | inl hmarked => exact .inl hmarked
      | inr hreach =>
        obtain ⟨r, hr, hreach⟩ := hreach
        rw [List.mem_singleton.mp hr] at hreach
        exact .inr ⟨k, mem_cons_self, hreach⟩
    | inr hreach =>
      obtain ⟨r, hr, hreach⟩ := hreach
      exact .inr ⟨r, mem_cons_of_mem _ hr, hreach⟩
  · intro x hx hnot c hc hlive
    by_cases hmiddle : x ∈ middle
    · exact h'.kept c (h.closed x hmiddle hnot c hc hlive)
    · exact h'.closed x hx hmiddle c hc hlive

private theorem Marks.node {result : List κ} (hlive : live k = true)
    (h : Marks children live (children k) (k :: marked) result) :
    Marks children live [k] marked result := by
  constructor
  · exact fun x hx => h.kept x (mem_cons_of_mem _ hx)
  · intro r hr _
    rw [List.mem_singleton.mp hr]
    exact h.kept k mem_cons_self
  · intro x hx
    cases h.sound x hx with
    | inl hmarked =>
      cases List.mem_cons.mp hmarked with
      | inl heq =>
        right
        exact ⟨k, mem_cons_self, hlive, heq ▸ .refl⟩
      | inr hold => exact .inl hold
    | inr hreach =>
      obtain ⟨c, hc, hclive, hsteps⟩ := hreach
      right
      exact ⟨k, mem_cons_self, hlive, .head ⟨hc, hclive⟩ hsteps⟩
  · intro x hx hnot c hc hclive
    by_cases hxk : x = k
    · rw [hxk] at hc
      exact h.roots_marked c hc hclive
    · exact h.closed x hx (fun hmem => (List.mem_cons.mp hmem).elim hxk hnot) c hc hclive

theorem mark_spec (hnodes : ∀ x, live x = true → x ∈ nodes) (fuel : Nat) :
    ∀ marked k, free nodes live marked < fuel →
      Marks children live [k] marked (mark children live fuel marked k) := by
  induction fuel with
  | zero => exact fun marked k h => absurd h (Nat.not_lt_zero _)
  | succ fuel ih =>
    have hlist : ∀ (roots marked : List κ), free nodes live marked < fuel →
        Marks children live roots marked
          (roots.foldl (fun marked c => mark children live fuel marked c) marked) := by
      intro roots
      induction roots with
      | nil => exact fun marked _ => .refl [] marked (by simp)
      | cons k roots ihRoots =>
        intro marked hfree
        have hfirst := ih marked k hfree
        have hless : free nodes live _ ≤ free nodes live _ := free_le hfirst.kept
        exact hfirst.cons (ihRoots _ (by omega))
    intro marked k hfree
    simp only [mark]
    by_cases hgo : live k = true ∧ k ∉ marked
    · obtain ⟨hlive, hnew⟩ := hgo
      have hless := free_cons_lt (hnodes k hlive) hlive hnew
      simp only [hlive, contains_eq_mem, hnew, decide_false, Bool.not_false, Bool.and_self,
        ↓reduceIte]
      exact Marks.node hlive (hlist _ _ (by omega))
    · have hstop : (live k && !marked.contains k) = false := by
        simp only [contains_eq_mem]
        grind
      simp only [hstop, Bool.false_eq_true, ↓reduceIte]
      apply Marks.refl
      intro r hr hlive
      rw [List.mem_singleton.mp hr] at hlive ⊢
      by_contra hnew
      exact hgo ⟨hlive, hnew⟩

theorem mem_mark_iff (children : κ → List κ) (hnodes : ∀ x, live x = true → x ∈ nodes) {fuel : Nat}
    (hfuel : nodes.length < fuel) (k x : κ) :
    x ∈ mark children live fuel [] k ↔ LiveReach children live k x := by
  have hfree : free nodes live [] < fuel := by
    have hle : free nodes live [] ≤ nodes.toFinset.card := card_filter_le _ _
    have := nodes.toFinset_card_le
    omega
  have hmarks : Marks children live [k] [] _ := mark_spec hnodes fuel [] k hfree
  constructor
  · intro hx
    cases hmarks.sound x hx with
    | inl hnil => exact absurd hnil not_mem_nil
    | inr hreach =>
      obtain ⟨r, hr, hreach⟩ := hreach
      rw [List.mem_singleton.mp hr] at hreach
      exact hreach
  · intro hreach
    obtain ⟨hlive, hsteps⟩ := hreach
    induction hsteps with
    | refl => exact hmarks.roots_marked k mem_cons_self hlive
    | tail _ hstep ih => exact hmarks.closed _ ih not_mem_nil _ hstep.1 hstep.2

end Marking

/-! ## Visiting -/

private theorem foldlM_append_eq (f : κ → Option (List κ)) (cs acc : List κ) :
    cs.foldlM (fun l c => (f c).map (l ++ ·)) acc =
      if cs.all fun c => (f c).isSome then some (acc ++ cs.flatMap fun c => (f c).getD [])
      else none := by
  induction cs generalizing acc with
  | nil => simp
  | cons c cs ih =>
    rw [foldlM_cons]
    cases hc : f c with
    | none => simp [hc]
    | some l =>
      simp only [Option.map_some, Option.bind_eq_bind, Option.bind_some, ih]
      simp [hc]

theorem visit_succ_eq (fuel : Nat) (k : κ) :
    visit children (fuel + 1) k =
      if (children k).all fun c => (visit children fuel c).isSome then
        some (k :: (children k).flatMap fun c => (visit children fuel c).getD [])
      else none := by
  simp only [visit, foldlM_append_eq]
  rfl

theorem mem_visit_iff (h : visit children fuel k = some l)
    (x : κ) : x ∈ l ↔ ReflTransGen (Child children) k x := by
  induction fuel generalizing k l with
  | zero => cases h
  | succ fuel ih =>
    rw [visit_succ_eq] at h
    split at h
    · rename_i hall
      cases h
      rw [all_eq_true] at hall
      have hchild : ∀ c ∈ children k,
          (x ∈ (visit children fuel c).getD [] ↔ ReflTransGen (Child children) c x) := by
        intro c hc
        obtain ⟨lc, hlc⟩ := Option.isSome_iff_exists.mp (hall c hc)
        rw [hlc]
        exact ih hlc
      rw [List.mem_cons, mem_flatMap]
      constructor
      · intro hx
        cases hx with
        | inl heq => exact heq ▸ .refl
        | inr hx =>
          obtain ⟨c, hc, hx⟩ := hx
          exact .head hc ((hchild c hc).mp hx)
      · intro hsteps
        cases hsteps.cases_head with
        | inl heq => exact .inl heq.symm
        | inr hhead =>
          obtain ⟨c, hc, hsteps⟩ := hhead
          exact .inr ⟨c, hc, (hchild c hc).mpr hsteps⟩
    · cases h

private theorem visit_child {c : κ}
    (h : visit children (fuel + 1) k = some l) (hc : Child children k c) :
    ∃ lc, visit children fuel c = some lc := by
  rw [visit_succ_eq] at h
  split at h
  · rename_i hall
    exact Option.isSome_iff_exists.mp (all_eq_true.mp hall c hc)
  · cases h

/-- A node below itself keeps a walk from coming to an end. -/
private theorem visit_acyclic
    (h : visit children fuel k = some l) : ¬ TransGen (Child children) k k := by
  induction fuel using Nat.strong_induction_on generalizing k l with
  | _ fuel ih =>
    -- along the cycle the fuel runs down, and the walk comes back to the node with less
    have hdown : ∀ {y}, TransGen (Child children) k y →
        ∃ less ly, less < fuel ∧ visit children less y = some ly := by
      intro y hy
      induction hy with
      | single hc =>
        cases fuel with
        | zero => cases h
        | succ fuel =>
          obtain ⟨lc, hlc⟩ := visit_child h hc
          exact ⟨fuel, lc, Nat.lt_succ_self _, hlc⟩
      | tail _ hc ihy =>
        obtain ⟨less, ly, hless, hly⟩ := ihy
        cases less with
        | zero => cases hly
        | succ less =>
          obtain ⟨lc, hlc⟩ := visit_child hly hc
          exact ⟨less, lc, by omega, hlc⟩
    intro hcycle
    obtain ⟨less, lk, hless, hlk⟩ := hdown hcycle
    exact ih less hless hlk hcycle

theorem visit_of_reach {x : κ} (h : visit children fuel k = some l)
    (hx : ReflTransGen (Child children) k x) :
    ∃ less lx, visit children less x = some lx := by
  induction hx with
  | refl => exact ⟨fuel, l, h⟩
  | tail _ hc ih =>
    obtain ⟨less, ly, hly⟩ := ih
    cases less with
    | zero => cases hly
    | succ less =>
      obtain ⟨lc, hlc⟩ := visit_child hly hc
      exact ⟨less, lc, hlc⟩

open Classical in
private noncomputable def below (children : κ → List κ) (nodes : List κ) (k : κ) : Nat :=
  (nodes.toFinset.filter fun x => TransGen (Child children) k x).card

section

variable (hnodes : ∀ k, ∀ c ∈ children k, c ∈ nodes)
include hnodes

private theorem below_lt {c : κ}
    (hc : Child children k c) (hacyclic : ¬ TransGen (Child children) c c) :
    below children nodes c < below children nodes k := by
  apply card_lt_card
  rw [ssubset_iff_of_subset]
  · refine ⟨c, ?_, ?_⟩
    · simp only [mem_filter, mem_toFinset]
      exact ⟨hnodes k c hc, .single hc⟩
    · simp only [mem_filter, not_and]
      exact fun _ => hacyclic
  · intro x hx
    simp only [mem_filter] at hx ⊢
    exact ⟨hx.1, .head hc hx.2⟩

theorem visit_isSome (fuel : Nat) :
    ∀ k, (∀ x, ReflTransGen (Child children) k x →
        ¬ TransGen (Child children) x x) →
      below children nodes k < fuel → (visit children fuel k).isSome := by
  induction fuel with
  | zero => exact fun k _ h => absurd h (Nat.not_lt_zero _)
  | succ fuel ih =>
    intro k hacyclic hbelow
    have hall : ((children k).all fun c => (visit children fuel c).isSome) = true := by
      rw [all_eq_true]
      intro c hc
      have hless := below_lt hnodes hc (hacyclic c (.single hc))
      exact ih c (fun x hx => hacyclic x (.head hc hx)) (by omega)
    rw [visit_succ_eq, if_pos hall]
    rfl

theorem visit_ends_iff (k : κ) :
    (∃ fuel l, visit children fuel k = some l) ↔
      ∀ x, ReflTransGen (Child children) k x →
        ¬ TransGen (Child children) x x := by
  constructor
  · intro h x hx
    obtain ⟨fuel, l, hl⟩ := h
    obtain ⟨less, lx, hlx⟩ := visit_of_reach hl hx
    exact visit_acyclic hlx
  · intro hacyclic
    have hsome := visit_isSome hnodes (below children nodes k + 1) k hacyclic (Nat.lt_succ_self _)
    obtain ⟨l, hl⟩ := Option.isSome_iff_exists.mp hsome
    exact ⟨_, l, hl⟩

end

end Cascade
