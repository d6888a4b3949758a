import Mathlib.Data.List.Induction
import Mathlib.Data.List.Sort

/-!
# Stable sorting by a comparator

`after a b` says that a comparator wants `a` behind `b`.
-/

namespace StableSort

open List

variable {α : Type} (after : α → α → Bool)

/-- Insert an item before the first item it need not follow. -/
def insertFirst (x : α) : List α → List α
  | [] => [x]
  | y :: l => if after x y then y :: insertFirst x l else x :: y :: l

def insertLast (x : α) : List α → List α
  | [] => [x]
  | y :: l => if after y x then x :: y :: l else y :: insertLast x l

def sort (l : List α) : List α := l.foldr (insertFirst after) []

/-- No item must follow a later one. -/
def Sorted (l : List α) : Prop := l.Pairwise fun a b => after a b = false

/-- On the items with `P` the comparator is a strict weak order. -/
structure Consistent (P : α → Prop) : Prop where
  asymm : ∀ {a b}, P a → P b → after a b = true → after b a = false
  between : ∀ {a b c}, P a → P b → P c → after a c = true → after a b = true ∨ after b c = true

variable {after} {P : α → Prop} {x : α} {l : List α}

theorem Consistent.trans (h : Consistent after P) {a b c : α} (ha : P a) (hb : P b) (hc : P c)
    (hab : after a b = false) (hbc : after b c = false) : after a c = false := by
  cases hac : after a c with
  | false => rfl
  | true =>
    cases h.between ha hb hc hac with
    | inl hab' => simp [hab] at hab'
    | inr hbc' => simp [hbc] at hbc'

/-- A second comparator decides between what the first leaves undecided. -/
theorem Consistent.lex {next : α → α → Bool} (h : Consistent after P) (hnext : Consistent next P) :
    Consistent (fun a b => after a b || (!after b a && next a b)) P where
  asymm := by
    intro a b ha hb hab
    cases hfirst : after a b with
    | true => simp [h.asymm ha hb hfirst]
    | false =>
      simp only [hfirst, Bool.false_or, Bool.and_eq_true, Bool.not_eq_true'] at hab
      simp [hab.1, hnext.asymm ha hb hab.2]
  between := by
    intro a b c ha hb hc hac
    cases hfirst : after a c with
    | true => cases h.between ha hb hc hfirst with
      | inl hab => exact .inl (by simp [hab])
      | inr hbc => exact .inr (by simp [hbc])
    | false =>
      simp only [hfirst, Bool.false_or, Bool.and_eq_true, Bool.not_eq_true'] at hac
      cases hab : after a b with
      | true => exact .inl (by simp)
      | false =>
        cases hbc : after b c with
        | true => exact .inr (by simp)
        | false =>
          -- The first comparator leaves all three undecided.
          have hba : after b a = false := h.trans hb hc ha hbc hac.1
          have hcb : after c b = false := h.trans hc ha hb hac.1 hab
          simpa [hba, hcb] using hnext.between ha hb hc hac.2

theorem Consistent.congr {other : α → α → Bool} (h : Consistent after P)
    (heq : ∀ {a b}, P a → P b → other a b = after a b) : Consistent other P where
  asymm := by
    intro a b ha hb hab
    rw [heq hb ha]
    exact h.asymm ha hb (heq ha hb ▸ hab)
  between := by
    intro a b c ha hb hc hac
    rw [heq ha hb, heq hb hc]
    exact h.between ha hb hc (heq ha hc ▸ hac)

theorem mem_insertFirst {y : α} : y ∈ insertFirst after x l ↔ y = x ∨ y ∈ l := by
  induction l with
  | nil => simp [insertFirst]
  | cons z l ih =>
    simp only [insertFirst]
    split
    · simp only [mem_cons, ih]
      exact or_left_comm
    · simp

@[simp] theorem mem_sort {y : α} : y ∈ sort after l ↔ y ∈ l := by
  induction l with
  | nil => simp [sort]
  | cons x l ih => simp only [sort, foldr_cons, mem_insertFirst, mem_cons] at ih ⊢; rw [ih]

@[simp] theorem length_insertFirst : (insertFirst after x l).length = l.length + 1 := by
  induction l with
  | nil => rfl
  | cons y l ih =>
    simp only [insertFirst]
    split <;> simp [ih]

@[simp] theorem length_sort : (sort after l).length = l.length := by
  induction l with
  | nil => rfl
  | cons x l ih => simpa [sort] using ih

theorem insertFirst_perm : (insertFirst after x l).Perm (x :: l) := by
  induction l with
  | nil => exact List.Perm.refl _
  | cons y l ih =>
    simp only [insertFirst]
    split
    · exact (ih.cons y).trans (List.Perm.swap x y l)
    · exact List.Perm.refl _

theorem sort_perm (l : List α) : (sort after l).Perm l := by
  induction l with
  | nil => exact List.Perm.refl _
  | cons x l ih => exact insertFirst_perm.trans (ih.cons x)

/-- Only what the comparator says about the items matters. -/
theorem sort_congr {after' : α → α → Bool} (h : ∀ a ∈ l, ∀ b ∈ l, after a b = after' a b) :
    sort after l = sort after' l := by
  induction l with
  | nil => rfl
  | cons x l ih =>
    have hrest := ih fun a ha b hb => h a (mem_cons_of_mem _ ha) b (mem_cons_of_mem _ hb)
    have hinsert : ∀ m : List α, (∀ y ∈ m, y ∈ l) →
        insertFirst after x m = insertFirst after' x m := by
      intro m
      induction m with
      | nil => exact fun _ => rfl
      | cons y m ihm =>
        intro hm
        have hxy := h x mem_cons_self y (mem_cons_of_mem _ (hm y mem_cons_self))
        simp only [insertFirst, hxy, ihm fun z hz => hm z (mem_cons_of_mem _ hz)]
    show insertFirst after x (sort after l) = insertFirst after' x (sort after' l)
    rw [hinsert _ fun y hy => mem_sort.mp hy, hrest]

theorem sorted_insertFirst (h : Consistent after P) (hx : P x) (hl : ∀ y ∈ l, P y)
    (hs : Sorted after l) : Sorted after (insertFirst after x l) := by
  induction l with
  | nil => exact pairwise_singleton _ _
  | cons y l ih =>
    obtain ⟨hy, hrest⟩ := pairwise_cons.mp hs
    have hPy : P y := hl y mem_cons_self
    have hPl : ∀ z ∈ l, P z := fun z hz => hl z (mem_cons_of_mem _ hz)
    simp only [insertFirst]
    split
    · rename_i hxy
      apply pairwise_cons.mpr
      constructor
      · intro z hz
        cases mem_insertFirst.mp hz with
        | inl hzx => exact hzx ▸ h.asymm hx hPy hxy
        | inr hzl => exact hy z hzl
      · exact ih hPl hrest
    · rename_i hxy
      have hxy' : after x y = false := by simpa using hxy
      apply pairwise_cons.mpr
      constructor
      · intro z hz
        cases mem_cons.mp hz with
        | inl hzy => exact hzy ▸ hxy'
        | inr hzl => exact h.trans hx hPy (hPl z hzl) hxy' (hy z hzl)
      · exact hs

theorem sorted_sort (h : Consistent after P) (hl : ∀ y ∈ l, P y) : Sorted after (sort after l) := by
  induction l with
  | nil => exact List.Pairwise.nil
  | cons x l ih =>
    have hPl : ∀ y ∈ l, P y := fun y hy => hl y (mem_cons_of_mem _ hy)
    apply sorted_insertFirst h (hl x mem_cons_self)
    · intro y hy
      exact hPl y (mem_sort.mp hy)
    · exact ih hPl

theorem insertFirst_of_forall (hx : ∀ y ∈ l, after x y = false) :
    insertFirst after x l = x :: l := by
  cases l with
  | nil => rfl
  | cons y l => simp [insertFirst, hx y mem_cons_self]

theorem filter_insertFirst (h : Consistent after P) (hx : P x) (hl : ∀ y ∈ l, P y)
    (hs : Sorted after l) (p : α → Bool) :
    (insertFirst after x l).filter p =
      if p x then insertFirst after x (l.filter p) else l.filter p := by
  induction l with
  | nil => simp [insertFirst, filter_cons]
  | cons y l ih =>
    obtain ⟨hy, hrest⟩ := pairwise_cons.mp hs
    have hPy : P y := hl y mem_cons_self
    have hPl : ∀ z ∈ l, P z := fun z hz => hl z (mem_cons_of_mem _ hz)
    have ih := ih hPl hrest
    simp only [insertFirst]
    cases hxy : after x y with
    | true =>
      simp only [↓reduceIte, filter_cons, ih]
      cases hpy : p y <;> cases hpx : p x <;> simp [insertFirst, hxy]
    | false =>
      -- What is left of the rest need not be behind the new item either.
      have hfront : ∀ z ∈ (y :: l).filter p, after x z = false := by
        intro z hz
        cases mem_cons.mp (mem_filter.mp hz).1 with
        | inl hzy => exact hzy ▸ hxy
        | inr hzl => exact h.trans hx hPy (hPl z hzl) hxy (hy z hzl)
      rw [insertFirst_of_forall hfront]
      simp [filter_cons]

theorem sort_filter (h : Consistent after P) (hl : ∀ y ∈ l, P y) (p : α → Bool) :
    sort after (l.filter p) = (sort after l).filter p := by
  induction l with
  | nil => rfl
  | cons x l ih =>
    have hPl : ∀ y ∈ l, P y := fun y hy => hl y (mem_cons_of_mem _ hy)
    have hrest := filter_insertFirst h (hl x mem_cons_self)
      (fun y hy => hPl y (mem_sort.mp hy)) (sorted_sort h hPl) p
    show _ = (insertFirst after x (sort after l)).filter p
    rw [hrest, ← ih hPl, filter_cons]
    split <;> rfl

/-! ## Inserting from the left -/

theorem insertLast_insertFirst {a : α} (h : Consistent after P) (ha : P a) (hx : P x)
    (hl : ∀ y ∈ l, P y) :
    insertFirst after a (insertLast after x l) = insertLast after x (insertFirst after a l) := by
  induction l with
  | nil =>
    simp only [insertLast, insertFirst]
  | cons y l ih =>
    have hPy : P y := hl y mem_cons_self
    have ih := ih fun z hz => hl z (mem_cons_of_mem _ hz)
    simp only [insertLast, insertFirst]
    cases hyx : after y x with
    | true =>
      cases hay : after a y with
      | true =>
        -- `a` must follow `y`, and `y` must follow `x`.
        have hax : after a x = true := by
          cases h.between hPy ha hx hyx with
          | inl hya => simp [h.asymm ha hPy hay] at hya
          | inr hax => exact hax
        simp [insertFirst, insertLast, hax, hay, hyx]
      | false => cases hax : after a x <;> simp [insertFirst, insertLast, hax, hay, hyx]
    | false =>
      cases hay : after a y with
      | true => simp [insertFirst, insertLast, hay, hyx, ih]
      | false =>
        have hax : after a x = false := h.trans ha hPy hx hay hyx
        simp [insertFirst, insertLast, hax, hay, hyx]

theorem sort_snoc (h : Consistent after P) (hx : P x) (hl : ∀ y ∈ l, P y) :
    sort after (l ++ [x]) = insertLast after x (sort after l) := by
  induction l with
  | nil => rfl
  | cons a l ih =>
    have hPl : ∀ y ∈ l, P y := fun y hy => hl y (mem_cons_of_mem _ hy)
    show insertFirst after a (sort after (l ++ [x])) = _
    rw [ih hPl]
    exact insertLast_insertFirst h (hl a mem_cons_self) hx
      fun y hy => hPl y (mem_sort.mp hy)

theorem take_insertLast (n : Nat) :
    (insertLast after x (l.take n)).take n = (insertLast after x l).take n := by
  induction l generalizing n with
  | nil => simp
  | cons y l ih =>
    cases n with
    | zero => simp
    | succ n =>
      simp only [take_succ_cons, insertLast]
      split
      · cases n with
        | zero => simp
        | succ n => simp [take_take]
      · simp [ih]

theorem insertLast_of_forall (hx : ∀ y ∈ l, after y x = false) :
    insertLast after x l = l ++ [x] := by
  induction l with
  | nil => rfl
  | cons y l ih =>
    simp [insertLast, hx y mem_cons_self, ih fun z hz => hx z (mem_cons_of_mem _ hz)]

/-- Insert an item by looking from the back: before the items that must follow it
there. -/
def insertBack (after : α → α → Bool) (x : α) (l : List α) : List α :=
  (insertFirst (fun a b => after b a) x l.reverse).reverse

theorem insertBack_snoc {y : α} : insertBack after x (l ++ [y]) =
    if after y x then insertBack after x l ++ [y] else l ++ [y] ++ [x] := by
  simp only [insertBack, reverse_append, reverse_cons, reverse_nil, nil_append,
    singleton_append, insertFirst]
  split <;> simp

theorem insertLast_snoc_of_after {y : α} (h : after y x = true) :
    insertLast after x (l ++ [y]) = insertLast after x l ++ [y] := by
  induction l with
  | nil => simp [insertLast, h]
  | cons z l ih =>
    simp only [cons_append, insertLast, ih]
    split <;> simp

theorem insertBack_eq_insertLast (h : Consistent after P) (hx : P x) (hl : ∀ y ∈ l, P y)
    (hs : Sorted after l) : insertBack after x l = insertLast after x l := by
  induction l using List.reverseRecOn with
  | nil => rfl
  | append_singleton l y ih =>
    obtain ⟨hs', -, hlast⟩ := pairwise_append.mp hs
    have hPl : ∀ z ∈ l, P z := fun z hz => hl z (mem_append_left _ hz)
    have hPy : P y := hl y (by simp)
    rw [insertBack_snoc]
    cases hyx : after y x with
    | true => simp [insertLast_snoc_of_after hyx, ih hPl hs']
    | false =>
      have hnone : ∀ z ∈ l ++ [y], after z x = false := by
        intro z hz
        cases mem_append.mp hz with
        | inl hzl => exact h.trans (hPl z hzl) hPy hx (hlast z hzl y (by simp)) hyx
        | inr hzy =>
          rw [mem_singleton.mp hzy]
          exact hyx
      rw [insertLast_of_forall hnone]
      rfl

theorem sorted_take (hs : Sorted after l) (n : Nat) : Sorted after (l.take n) :=
  List.Pairwise.sublist (take_sublist n l) hs

/-- Keep the first `n` items while inserting one item after the other. -/
def insertTop (after : α → α → Bool) (n : Nat) (top : List α) (x : α) : List α :=
  (insertBack after x top).take n

theorem foldl_insertTop (h : Consistent after P) (hl : ∀ y ∈ l, P y) (n : Nat) :
    l.foldl (insertTop after n) [] = (sort after l).take n := by
  induction l using List.reverseRecOn with
  | nil => simp [sort]
  | append_singleton l x ih =>
    have hPl : ∀ y ∈ l, P y := fun y hy => hl y (mem_append_left _ hy)
    have hPx : P x := hl x (by simp)
    have hPtop : ∀ y ∈ (sort after l).take n, P y := fun y hy =>
      hPl y (mem_sort.mp (mem_of_mem_take hy))
    rw [foldl_append, ih hPl, foldl_cons, foldl_nil, sort_snoc h hPx hPl]
    show (insertBack after x ((sort after l).take n)).take n = _
    rw [insertBack_eq_insertLast h hPx hPtop (sorted_take (sorted_sort h hPl) n)]
    exact take_insertLast n

/-! ## Insertion sort by a preorder -/

section Preorder

variable {r earlier : α → α → Prop} [DecidableRel r]

theorem pairwise_orderedInsert (htotal : ∀ a b, r a b ∨ r b a)
    (htrans : ∀ a b c, r a b → r b c → r a c)
    (hl : l.Pairwise fun a b => r a b ∧ (r b a → earlier a b)) (hx : ∀ y ∈ l, earlier x y) :
    (l.orderedInsert r x).Pairwise fun a b => r a b ∧ (r b a → earlier a b) := by
  induction l with
  | nil => simp
  | cons y l ih =>
    obtain ⟨hy, hrest⟩ := pairwise_cons.mp hl
    rw [List.orderedInsert]
    split
    · rename_i hxy
      rw [pairwise_cons]
      refine ⟨fun z hz => ⟨?_, fun _ => hx z hz⟩, hl⟩
      rcases mem_cons.mp hz with rfl | hz
      · exact hxy
      · exact htrans x y z hxy (hy z hz).1
    · rename_i hxy
      have hyx : r y x := (htotal x y).resolve_left hxy
      rw [pairwise_cons]
      refine ⟨fun z hz => ?_, ih hrest fun z hz => hx z (mem_cons_of_mem _ hz)⟩
      rcases (mem_orderedInsert r).mp hz with rfl | hz
      · exact ⟨hyx, fun h => absurd h hxy⟩
      · exact hy z hz

theorem pairwise_insertionSort (htotal : ∀ a b, r a b ∨ r b a)
    (htrans : ∀ a b c, r a b → r b c → r a c) (hl : l.Pairwise earlier) :
    (l.insertionSort r).Pairwise fun a b => r a b ∧ (r b a → earlier a b) := by
  induction l with
  | nil => exact List.Pairwise.nil
  | cons x l ih =>
    obtain ⟨hx, hrest⟩ := pairwise_cons.mp hl
    rw [insertionSort_cons]
    apply pairwise_orderedInsert htotal htrans (ih hrest)
    intro y hy
    exact hx y ((mem_insertionSort r).mp hy)

end Preorder

end StableSort
