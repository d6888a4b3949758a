import Mathlib.Logic.Function.Basic
import Mathlib.Logic.Relation

/-!
# Disjoint sets

A forest over any type is given by the parent of each element; a root is its own
parent. The trees are the sets.
-/

namespace DisjointSets

open Function Relation

variable {α : Type} {up : α → α} {x y r a b c : α}

inductive Root (up : α → α) : α → α → Prop
  | self {x : α} : up x = x → Root up x x
  | step {x r : α} : up x ≠ x → Root up (up x) r → Root up x r

theorem Root.isRoot (h : Root up x r) : up r = r := by
  induction h with
  | self h => exact h
  | step _ _ ih => exact ih

theorem Root.unique {s : α} (h : Root up x r) (h' : Root up x s) : r = s := by
  induction h with
  | self h =>
    cases h' with
    | self _ => rfl
    | step hne _ => exact absurd h hne
  | step hne _ ih =>
    cases h' with
    | self h => exact absurd h hne
    | step _ h' => exact ih h'

theorem Root.above (h : Root up x r) : Root up (up x) r := by
  cases h with
  | self h =>
    rw [h]
    exact .self h
  | step _ h => exact h

theorem Root.of_isRoot (h : Root up x r) (hx : up x = x) : r = x :=
  h.unique (.self hx)

/-! ## Ranks -/

def Ranked (up : α → α) (rank : α → Nat) : Prop := ∀ x, up x ≠ x → rank x < rank (up x)

theorem Ranked.lt_root {rank : α → Nat} (hr : Ranked up rank) (h : Root up x r) (hne : up x ≠ x) :
    rank x < rank r := by
  induction h with
  | self h => exact absurd h hne
  | step hne' hroot ih =>
    rename_i y s
    by_cases htop : up (up y) = up y
    · rw [hroot.of_isRoot htop]
      exact hr _ hne'
    · exact Nat.lt_trans (hr _ hne') (ih htop)

/-! ## Moving pointers -/

section Moves

variable [DecidableEq α]

theorem root_compress (h : Root up c r) {s : α} :
    Root (Function.update up c r) x s ↔ Root up x s := by
  constructor
  · intro hx
    induction hx with
    | @self y hy =>
      by_cases hyc : y = c
      · subst hyc
        rw [update_self] at hy
        exact hy ▸ h
      · rw [update_of_ne hyc] at hy
        exact .self hy
    | @step y s hy _ ih =>
      by_cases hyc : y = c
      · subst hyc
        rw [update_self] at ih
        rw [ih.of_isRoot h.isRoot]
        exact h
      · rw [update_of_ne hyc] at ih hy
        exact .step hy ih
  · intro hx
    induction hx with
    | @self y hy =>
      apply Root.self
      by_cases hyc : y = c
      · subst hyc
        rw [update_self]
        exact h.of_isRoot hy
      · rw [update_of_ne hyc]
        exact hy
    | @step y s hy hys ih =>
      by_cases hyc : y = c
      · subst hyc
        -- the walk is cut short to one step
        have hrne : r ≠ y := fun hry => hy (hry ▸ h.isRoot)
        have hs : s = r := hys.unique h.above
        have htop : Function.update up y r r = r := by
          rw [update_of_ne hrne]
          exact h.isRoot
        apply Root.step
        · rw [update_self]
          exact hrne
        · rw [update_self, hs]
          exact .self htop
      · apply Root.step
        · rw [update_of_ne hyc]
          exact hy
        · rw [update_of_ne hyc]
          exact ih

theorem root_link (ha : up a = a) (hb : up b = b) (hab : a ≠ b) {s : α} :
    Root (Function.update up a b) x s ↔ Root up x a ∧ s = b ∨ Root up x s ∧ s ≠ a := by
  have hba : Function.update up a b b = b := by
    rw [update_of_ne (Ne.symm hab)]
    exact hb
  constructor
  · intro hx
    induction hx with
    | @self y hy =>
      have hya : y ≠ a := by
        intro hya
        rw [hya, update_self] at hy
        exact hab hy.symm
      rw [update_of_ne hya] at hy
      exact .inr ⟨.self hy, hya⟩
    | @step y s hy hys ih =>
      by_cases hya : y = a
      · subst hya
        rw [update_self] at hys
        exact .inl ⟨.self ha, hys.of_isRoot hba⟩
      · rw [update_of_ne hya] at ih hy
        exact ih.imp (fun h => ⟨.step hy h.1, h.2⟩) fun h => ⟨.step hy h.1, h.2⟩
  · have hof : ∀ {s : α}, Root up x s → s = a ∧ Root (Function.update up a b) x b ∨
        s ≠ a ∧ Root (Function.update up a b) x s := by
      intro s hx
      induction hx with
      | @self y hy =>
        by_cases hya : y = a
        · subst hya
          have hne : Function.update up y b y ≠ y := by
            rw [update_self]
            exact Ne.symm hab
          refine .inl ⟨rfl, .step hne ?_⟩
          rw [update_self]
          exact .self hba
        · refine .inr ⟨hya, .self ?_⟩
          rw [update_of_ne hya]
          exact hy
      | @step y s hy _ ih =>
        have hya : y ≠ a := fun hya => hy (hya ▸ ha)
        have hstep : ∀ {t : α}, Root (Function.update up a b) (up y) t →
            Root (Function.update up a b) y t := by
          intro t ht
          apply Root.step
          · rw [update_of_ne hya]
            exact hy
          · rw [update_of_ne hya]
            exact ht
        exact ih.imp (fun h => ⟨h.1, hstep h.2⟩) fun h => ⟨h.1, hstep h.2⟩
    rintro (⟨hx, rfl⟩ | ⟨hx, hne⟩)
    · exact (hof hx).elim And.right fun h => absurd rfl h.1
    · exact (hof hx).elim (fun h => absurd h.1 hne) And.right

/-- The elements are in one set. -/
def Together (up : α → α) (x y : α) : Prop := ∃ r, Root up x r ∧ Root up y r

theorem together_link {ra rb : α} (hra : Root up a ra) (hrb : Root up b rb) (hne : ra ≠ rb) :
    Together (Function.update up ra rb) x y ↔
      Together up x y ∨ Together up x a ∧ Together up b y ∨ Together up x b ∧ Together up a y := by
  have hlink : ∀ {z s : α}, Root (Function.update up ra rb) z s ↔
      Root up z ra ∧ s = rb ∨ Root up z s ∧ s ≠ ra :=
    fun {_ _} => root_link hra.isRoot hrb.isRoot hne
  have hof : ∀ {z s t : α}, Together up z s → Root up s t → Root up z t := by
    rintro z s t ⟨u, hz, hs⟩ ht
    exact hs.unique ht ▸ hz
  constructor
  · rintro ⟨s, hx, hy⟩
    rw [hlink] at hx hy
    rcases hx with ⟨hx, rfl⟩ | ⟨hx, hsx⟩ <;> rcases hy with ⟨hy, hsy⟩ | ⟨hy, hsy⟩
    · exact .inl ⟨ra, hx, hy⟩
    · exact .inr (.inl ⟨⟨ra, hx, hra⟩, ⟨s, hrb, hy⟩⟩)
    · subst hsy
      exact .inr (.inr ⟨⟨s, hx, hrb⟩, ⟨ra, hra, hy⟩⟩)
    · exact .inl ⟨s, hx, hy⟩
  · rintro (⟨s, hx, hy⟩ | ⟨hxa, s, hb, hy⟩ | ⟨hxb, s, ha, hy⟩)
    · by_cases hs : s = ra
      · subst hs
        exact ⟨rb, hlink.mpr (.inl ⟨hx, rfl⟩), hlink.mpr (.inl ⟨hy, rfl⟩)⟩
      · exact ⟨s, hlink.mpr (.inr ⟨hx, hs⟩), hlink.mpr (.inr ⟨hy, hs⟩)⟩
    · cases hrb.unique hb
      exact ⟨rb, hlink.mpr (.inl ⟨hof hxa hra, rfl⟩), hlink.mpr (.inr ⟨hy, Ne.symm hne⟩)⟩
    · cases hra.unique ha
      exact ⟨rb, hlink.mpr (.inr ⟨hof hxb hrb, Ne.symm hne⟩), hlink.mpr (.inl ⟨hy, rfl⟩)⟩

end Moves

/-! ## Generated equivalences -/

/-- What a further pair adds to a generated equivalence. -/
theorem eqvGen_insert (R : α → α → Prop) :
    EqvGen (fun x y => R x y ∨ x = a ∧ y = b) x y ↔
      EqvGen R x y ∨ EqvGen R x a ∧ EqvGen R b y ∨
        EqvGen R x b ∧ EqvGen R a y := by
  constructor
  · intro h
    induction h with
    | rel x y h =>
      rcases h with h | ⟨rfl, rfl⟩
      · exact .inl (.rel _ _ h)
      · exact .inr (.inl ⟨.refl _, .refl _⟩)
    | refl x => exact .inl (.refl x)
    | symm x y _ ih =>
      rcases ih with h | ⟨hxa, hby⟩ | ⟨hxb, hay⟩
      · exact .inl (.symm _ _ h)
      · exact .inr (.inr ⟨.symm _ _ hby, .symm _ _ hxa⟩)
      · exact .inr (.inl ⟨.symm _ _ hay, .symm _ _ hxb⟩)
    | trans x y z _ _ ihxy ihyz =>
      rcases ihxy with hxy | ⟨hxa, hby⟩ | ⟨hxb, hay⟩ <;>
        rcases ihyz with hyz | ⟨hya, hbz⟩ | ⟨hyb, haz⟩
      · exact .inl (.trans _ _ _ hxy hyz)
      · exact .inr (.inl ⟨.trans _ _ _ hxy hya, hbz⟩)
      · exact .inr (.inr ⟨.trans _ _ _ hxy hyb, haz⟩)
      · exact .inr (.inl ⟨hxa, .trans _ _ _ hby hyz⟩)
      · exact .inr (.inl ⟨hxa, hbz⟩)
      · exact .inl (.trans _ _ _ hxa haz)
      · exact .inr (.inr ⟨hxb, .trans _ _ _ hay hyz⟩)
      · exact .inl (.trans _ _ _ hxb hbz)
      · exact .inr (.inr ⟨hxb, haz⟩)
  · have hmono : ∀ {x y : α}, EqvGen R x y →
        EqvGen (fun x y => R x y ∨ x = a ∧ y = b) x y :=
      fun {x y} h => EqvGen.mono (fun _ _ => Or.inl) x y h
    have hpair : EqvGen (fun x y => R x y ∨ x = a ∧ y = b) a b :=
      .rel _ _ (.inr ⟨rfl, rfl⟩)
    rintro (h | ⟨hxa, hby⟩ | ⟨hxb, hay⟩)
    · exact hmono h
    · exact .trans _ _ _ (hmono hxa) (.trans _ _ _ hpair (hmono hby))
    · exact .trans _ _ _ (hmono hxb) (.trans _ _ _ (.symm _ _ hpair) (hmono hay))

end DisjointSets
