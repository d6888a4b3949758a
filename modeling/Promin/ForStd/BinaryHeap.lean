import Mathlib.Order.WithBot
import Mathlib.Data.Multiset.Basic
import Mathlib.Logic.Equiv.Basic

/-!
# Binary heaps

A min-heap in an array, the children of position `i` at `2 * i + 1` and `2 * i +
2`.
-/

namespace BinaryHeap

open Multiset List Equiv

variable {α κ : Type} [LinearOrder κ]

def parent (i : Nat) : Nat := (i - 1) / 2

/-! ## Operations -/

section Operations

variable (key : α → κ)

def siftUp : (fuel : Nat) → Array α → Nat → Array α
  | 0, a, _ => a
  | fuel + 1, a, i =>
    if h : 0 < i ∧ i < a.size then
      have hp : parent i < a.size := by
        unfold parent
        omega
      if key a[parent i] ≤ key a[i] then a
      else siftUp fuel (a.swap i (parent i) h.2 hp) (parent i)
    else a

/-- The better one of the best position so far and the position `child`. -/
def better (a : Array α) (best : Fin a.size) (child : Nat) : Fin a.size :=
  if h : child < a.size then
    if key a[child] < key a[best] then ⟨child, h⟩ else best
  else best

/-- The position of `i` and its children with the smallest key. -/
def smallest (a : Array α) (i : Fin a.size) : Fin a.size :=
  better key a (better key a i (2 * i + 1)) (2 * i + 2)

def siftDown : (fuel : Nat) → Array α → Nat → Array α
  | 0, a, _ => a
  | fuel + 1, a, i =>
    if h : i < a.size then
      let best := smallest key a ⟨i, h⟩
      if best.val = i then a else siftDown fuel (a.swap i best h best.isLt) best
    else a

def push (a : Array α) (x : α) : Array α := siftUp key a.size (a.push x) a.size

/-- The first item and the heap without it. -/
def pop (a : Array α) : Option (α × Array α) :=
  match a[0]?, a.back? with
  | some top, some last =>
    some (top, if 1 < a.size then siftDown key a.size (a.pop.setIfInBounds 0 last) 0 else a.pop)
  | _, _ => none

end Operations

/-! ## Orders on the positions -/

/-- No key is smaller than that of the parent. -/
def Ordered (f : Nat → WithTop κ) : Prop := ∀ i, 0 < i → f (parent i) ≤ f i

/-- In order but for position `i` and its parent. -/
structure UpTo (f : Nat → WithTop κ) (i : Nat) : Prop where
  others : ∀ j, 0 < j → j ≠ i → f (parent j) ≤ f j
  across : 0 < i → ∀ j, 0 < j → parent j = i → f (parent i) ≤ f j

/-- In order but for position `i` and its children. -/
structure DownFrom (f : Nat → WithTop κ) (i : Nat) : Prop where
  others : ∀ j, 0 < j → parent j ≠ i → f (parent j) ≤ f j
  across : 0 < i → ∀ j, 0 < j → parent j = i → f (parent i) ≤ f j

theorem parent_lt {i : Nat} (h : 0 < i) : parent i < i := by
  unfold parent
  omega

theorem children {i j : Nat} (h : 0 < j) : parent j = i ↔ j = 2 * i + 1 ∨ j = 2 * i + 2 := by
  unfold parent
  omega

variable {f : Nat → WithTop κ} {i : Nat}

theorem Ordered.top_le (h : Ordered f) (i : Nat) : f 0 ≤ f i := by
  induction i using Nat.strongRecOn with
  | ind i ih =>
    by_cases hi : i = 0
    · rw [hi]
    · exact le_trans (ih (parent i) (parent_lt (by omega))) (h i (by omega))

theorem UpTo.ordered (h : UpTo f i) (hi : 0 < i → f (parent i) ≤ f i) : Ordered f := by
  intro j hj
  by_cases hji : j = i
  · subst hji
    exact hi hj
  · exact h.others j hj hji

theorem UpTo.swap (h : UpTo f i) (hi : 0 < i) (hlt : f i < f (parent i)) :
    UpTo (f ∘ swap i (parent i)) (parent i) := by
  have hpi := parent_lt hi
  have hleft : (f ∘ Equiv.swap i (parent i)) i = f (parent i) := by simp
  have hright : (f ∘ Equiv.swap i (parent i)) (parent i) = f i := by simp
  have hother : ∀ j, j ≠ i → j ≠ parent i → (f ∘ Equiv.swap i (parent i)) j = f j := by
    intro j hj hjp
    show f (Equiv.swap i (parent i) j) = f j
    rw [swap_apply_of_ne_of_ne hj hjp]
  constructor
  · intro j hj hjp
    by_cases hji : j = i
    · rw [hji, hleft, hright]
      exact le_of_lt hlt
    rw [hother j hji hjp]
    by_cases hpj : parent j = i
    · rw [hpj, hleft]
      exact h.across hi j hj hpj
    by_cases hpp : parent j = parent i
    · -- the sibling of `i`
      rw [hpp, hright]
      exact le_of_lt (lt_of_lt_of_le hlt (hpp ▸ h.others j hj hji))
    · rw [hother _ hpj hpp]
      exact h.others j hj hji
  · intro hpos j hj hjp
    have hpp := parent_lt hpos
    have hgrand : f (parent (parent i)) ≤ f (parent i) := h.others _ hpos (by omega)
    rw [hother _ (by omega) (by omega)]
    by_cases hji : j = i
    · rw [hji, hleft]
      exact hgrand
    · have hjlt := parent_lt hj
      rw [hother j hji (by omega)]
      exact le_trans hgrand (hjp ▸ h.others j hj hji)

theorem DownFrom.ordered (h : DownFrom f i) (hi : ∀ j, 0 < j → parent j = i → f i ≤ f j) :
    Ordered f := by
  intro j hj
  by_cases hji : parent j = i
  · rw [hji]
    exact hi j hj hji
  · exact h.others j hj hji

/-- An item that is larger than a smallest child changes places with it. -/
theorem DownFrom.swap (h : DownFrom f i) {c : Nat} (hc : 0 < c) (hci : parent c = i)
    (hlt : f c < f i) (hleast : ∀ j, 0 < j → parent j = i → f c ≤ f j) :
    DownFrom (f ∘ swap i c) c := by
  have hic := parent_lt hc
  rw [hci] at hic
  have hleft : (f ∘ Equiv.swap i c) i = f c := by simp
  have hright : (f ∘ Equiv.swap i c) c = f i := by simp
  have hother : ∀ j, j ≠ i → j ≠ c → (f ∘ Equiv.swap i c) j = f j := by
    intro j hj hjc
    show f (Equiv.swap i c j) = f j
    rw [swap_apply_of_ne_of_ne hj hjc]
  constructor
  · intro j hj hjc
    have hjlt := parent_lt hj
    by_cases hji : j = i
    · subst hji
      rw [hleft, hother _ (by omega) (by omega)]
      exact h.across hj c hc hci
    by_cases hpj : parent j = i
    · rw [hpj, hleft]
      by_cases hjc' : j = c
      · rw [hjc', hright]
        exact le_of_lt hlt
      · rw [hother j hji hjc']
        exact hleast j hj hpj
    · have hjc' : j ≠ c := fun hjc' => hpj (hjc' ▸ hci)
      rw [hother _ hpj hjc, hother j hji hjc']
      exact h.others j hj hpj
  · intro _ j hj hjc
    have hjlt := parent_lt hj
    rw [hci, hleft, hother j (by omega) (by omega), ← hjc]
    exact h.others j hj (by omega)

/-! ## Arrays -/

section Arrays

variable {key : α → κ} {a : Array α}

def keyAt (key : α → κ) (a : Array α) (i : Nat) : WithTop κ :=
  match a[i]? with
  | some x => (key x : WithTop κ)
  | none => ⊤

omit [LinearOrder κ] in
theorem keyAt_of_lt (h : i < a.size) : keyAt key a i = (key a[i] : WithTop κ) := by
  rw [keyAt, Array.getElem?_eq_getElem h]

omit [LinearOrder κ] in
theorem keyAt_of_le (h : a.size ≤ i) : keyAt key a i = ⊤ := by
  rw [keyAt, Array.getElem?_eq_none h]

omit [LinearOrder κ] in
theorem keyAt_swap {j : Nat} (hi : i < a.size) (hj : j < a.size) :
    keyAt key (a.swap i j hi hj) = keyAt key a ∘ swap i j := by
  funext k
  show keyAt key (a.swap i j hi hj) k = keyAt key a (swap i j k)
  rw [keyAt, Array.getElem?_swap]
  by_cases hkj : j = k
  · subst hkj
    rw [if_pos rfl, swap_apply_right, keyAt_of_lt hi]
  rw [if_neg hkj]
  by_cases hki : i = k
  · subst hki
    rw [if_pos rfl, swap_apply_left, keyAt_of_lt hj]
  · rw [if_neg hki, swap_apply_of_ne_of_ne (Ne.symm hki) (Ne.symm hkj)]
    rfl

def IsHeap (key : α → κ) (a : Array α) : Prop := Ordered (keyAt key a)

def content (a : Array α) : Multiset α := (a.toList : Multiset α)

theorem content_swap {j : Nat} (hi : i < a.size) (hj : j < a.size) :
    content (a.swap i j hi hj) = content a :=
  coe_eq_coe.mpr (Array.perm_iff_toList_perm.mp (Array.swap_perm hi hj))

theorem card_content (a : Array α) : (content a).card = a.size := by
  rw [content, coe_card, Array.length_toList]

variable {x : α} {a' : Array α}

theorem mem_content : x ∈ content a ↔ x ∈ a := by
  rw [content, mem_coe, Array.mem_toList_iff]

/-! ## Sifting up -/

theorem content_siftUp (fuel : Nat) (a : Array α) (i : Nat) :
    content (siftUp key fuel a i) = content a := by
  induction fuel generalizing a i with
  | zero => rfl
  | succ fuel ih =>
    unfold siftUp
    split
    · dsimp only
      split
      · rfl
      · rw [ih, content_swap]
    · rfl

theorem siftUp_ordered {fuel : Nat} (hfuel : i ≤ fuel) (h : UpTo (keyAt key a) i) :
    IsHeap key (siftUp key fuel a i) := by
  induction fuel generalizing a i with
  | zero => exact h.ordered fun hi => by omega
  | succ fuel ih =>
    unfold siftUp
    split
    · rename_i hin
      have hp : parent i < a.size := Nat.lt_trans (parent_lt hin.1) hin.2
      dsimp only
      split
      · rename_i hle
        apply h.ordered
        intro _
        rw [keyAt_of_lt hp, keyAt_of_lt hin.2]
        exact WithTop.coe_le_coe.mpr hle
      · rename_i hnle
        apply ih
        · have hlt := parent_lt hin.1
          omega
        · rw [keyAt_swap]
          apply h.swap hin.1
          rw [keyAt_of_lt hp, keyAt_of_lt hin.2]
          exact WithTop.coe_lt_coe.mpr (not_le.mp hnle)
    · rename_i hout
      apply h.ordered
      intro hi
      rw [keyAt_of_le (by omega : a.size ≤ i)]
      exact le_top

omit [LinearOrder κ] in
theorem keyAt_push (x : α) (i : Nat) (h : i ≠ a.size) : keyAt key (a.push x) i = keyAt key a i := by
  rw [keyAt, Array.getElem?_push, if_neg h]
  rfl

theorem push_ordered (h : IsHeap key a) (x : α) : IsHeap key (push key a x) := by
  apply siftUp_ordered (Nat.le_refl _)
  constructor
  · intro j hj hjn
    rw [keyAt_push x j hjn]
    by_cases hp : parent j = a.size
    · -- behind the new item there is nothing
      have hlt := parent_lt hj
      rw [keyAt_of_le (by omega : a.size ≤ j)]
      exact le_top
    · rw [keyAt_push x _ hp]
      exact h j hj
  · intro _ j hj hjn
    have hlt := parent_lt hj
    rw [keyAt_push x j (by omega), keyAt_of_le (by omega : a.size ≤ j)]
    exact le_top

theorem push_content (a : Array α) (x : α) : content (push key a x) = x ::ₘ content a := by
  rw [push, content_siftUp, content, content, Array.toList_push, cons_coe]
  exact coe_eq_coe.mpr (perm_append_singleton _ _)

/-! ## Sifting down -/

variable (key) in
theorem better_le (best : Fin a.size) (child : Nat) :
    keyAt key a (better key a best child) ≤ keyAt key a best ∧
      keyAt key a (better key a best child) ≤ keyAt key a child := by
  unfold better
  split
  · rename_i hin
    rw [keyAt_of_lt best.isLt, keyAt_of_lt hin]
    split
    · rename_i hlt
      rw [keyAt_of_lt hin]
      exact ⟨WithTop.coe_le_coe.mpr (le_of_lt hlt), le_refl _⟩
    · rename_i hnlt
      rw [keyAt_of_lt best.isLt]
      exact ⟨le_refl _, WithTop.coe_le_coe.mpr (not_lt.mp hnlt)⟩
  · rename_i hout
    rw [keyAt_of_le (not_lt.mp hout)]
    exact ⟨le_refl _, le_top⟩

variable (key) in
theorem better_cases (best : Fin a.size) (child : Nat) :
    better key a best child = best ∨ (better key a best child).val = child ∧
      keyAt key a child < keyAt key a best := by
  unfold better
  split
  · rename_i hin
    split
    · rename_i hlt
      rw [keyAt_of_lt best.isLt, keyAt_of_lt hin]
      exact .inr ⟨rfl, WithTop.coe_lt_coe.mpr hlt⟩
    · exact .inl rfl
  · exact .inl rfl

variable (key) in
theorem smallest_spec (i : Fin a.size) :
    (∀ j, 0 < j → parent j = i → keyAt key a (smallest key a i) ≤ keyAt key a j) ∧
      ((smallest key a i).val = i ∨ (0 < (smallest key a i).val ∧
        parent (smallest key a i) = i ∧ keyAt key a (smallest key a i) < keyAt key a i)) := by
  unfold smallest
  obtain ⟨hl, hl'⟩ := better_le key i (2 * i + 1)
  have hlcases := better_cases key i (2 * i + 1)
  generalize better key a i (2 * i + 1) = left at hl hl' hlcases
  obtain ⟨hs, hs'⟩ := better_le key left (2 * i + 2)
  have hscases := better_cases key left (2 * i + 2)
  generalize better key a left (2 * i + 2) = best at hs hs' hscases
  constructor
  · intro j hj hji
    rcases (children hj).mp hji with rfl | rfl
    · exact le_trans hs hl'
    · exact hs'
  · rcases hscases with rfl | ⟨hval, hlt⟩
    · rcases hlcases with rfl | ⟨hval, hlt⟩
      · exact .inl rfl
      · have hpos : 0 < best.val := by omega
        exact .inr ⟨hpos, (children hpos).mpr (.inl hval), hval ▸ hlt⟩
    · have hpos : 0 < best.val := by omega
      exact .inr ⟨hpos, (children hpos).mpr (.inr hval), hval ▸ lt_of_lt_of_le hlt hl⟩

theorem content_siftDown (fuel : Nat) (a : Array α) (i : Nat) :
    content (siftDown key fuel a i) = content a := by
  induction fuel generalizing a i with
  | zero => rfl
  | succ fuel ih =>
    unfold siftDown
    split
    · dsimp only
      split
      · rfl
      · rw [ih, content_swap]
    · rfl

theorem siftDown_ordered {fuel : Nat} (hfuel : a.size ≤ fuel + i) (h : DownFrom (keyAt key a) i) :
    IsHeap key (siftDown key fuel a i) := by
  have houtside : ∀ {a : Array α} {i : Nat}, a.size ≤ i → DownFrom (keyAt key a) i →
      IsHeap key a := by
    intro a i hout h
    apply h.ordered
    intro j hj hji
    have hlt := parent_lt hj
    rw [keyAt_of_le (by omega : a.size ≤ j)]
    exact le_top
  induction fuel generalizing a i with
  | zero => exact houtside (a := a) (by omega) h
  | succ fuel ih =>
    unfold siftDown
    split
    · rename_i hi
      dsimp only
      obtain ⟨hleast, hcases⟩ := smallest_spec key ⟨i, hi⟩
      split
      · rename_i hstop
        rw [hstop] at hleast
        exact h.ordered hleast
      · rename_i hgo
        obtain ⟨hpos, hparent, hlt⟩ := hcases.resolve_left hgo
        apply ih
        · have hfurther := parent_lt hpos
          rw [hparent] at hfurther
          have hfurther : i < (smallest key a ⟨i, hi⟩).val := hfurther
          rw [Array.size_swap]
          omega
        · rw [keyAt_swap]
          exact h.swap hpos hparent hlt hleast
    · rename_i hout
      exact houtside (not_lt.mp hout) h

theorem pop_eq_none_iff : pop key a = none ↔ a = #[] := by
  unfold pop
  cases hn : a.size with
  | zero =>
    rw [Array.size_eq_zero_iff] at hn
    simp [hn]
  | succ n =>
    have hne : a ≠ #[] := by
      rintro rfl
      exact nomatch hn
    simp [Array.back?, hn, hne]

theorem pop_eq_some (h : pop key a = some (x, a')) :
    ∃ hsize : 0 < a.size, x = a[0] ∧ (a.size = 1 ∧ a' = a.pop ∨ 1 < a.size ∧
      a' = siftDown key a.size (a.pop.setIfInBounds 0 a[a.size - 1]) 0) := by
  unfold pop at h
  split at h
  · rename_i top last htop hlast
    have hsize : 0 < a.size := by
      rw [Array.getElem?_eq_some_iff] at htop
      exact htop.1
    rw [Array.getElem?_eq_getElem hsize] at htop
    rw [Array.back?, Array.getElem?_eq_getElem (by omega)] at hlast
    cases htop
    cases hlast
    simp only [Option.some.injEq, Prod.mk.injEq] at h
    obtain ⟨rfl, rfl⟩ := h
    refine ⟨hsize, rfl, ?_⟩
    by_cases hone : 1 < a.size
    · exact .inr ⟨hone, if_pos hone⟩
    · exact .inl ⟨by omega, if_neg hone⟩
  · exact nomatch h

theorem pop_ordered (h : IsHeap key a) (hpop : pop key a = some (x, a')) :
    IsHeap key a' := by
  obtain ⟨hsize, -, ⟨hone, rfl⟩ | ⟨hmore, rfl⟩⟩ := pop_eq_some hpop
  · intro i hi
    rw [keyAt_of_le (by rw [Array.size_pop]; omega : a.pop.size ≤ i)]
    exact le_top
  · apply siftDown_ordered (by simp)
    have hkey : ∀ j, 0 < j → keyAt key (a.pop.setIfInBounds 0 a[a.size - 1]) j =
        if j < a.size - 1 then keyAt key a j else ⊤ := by
      intro j hj
      rw [keyAt, Array.getElem?_setIfInBounds_ne (Nat.ne_of_lt hj), Array.getElem?_pop]
      by_cases hin : j < a.size - 1
      · rw [if_pos hin, if_pos hin]
        rfl
      · rw [if_neg hin, if_neg hin]
    constructor
    · intro j hj hpj
      have hlt := parent_lt hj
      rw [hkey j hj, hkey (parent j) (by omega)]
      by_cases hin : j < a.size - 1
      · rw [if_pos hin, if_pos (by omega)]
        exact h j hj
      · rw [if_neg hin]
        exact le_top
    · exact fun hpos => absurd hpos (Nat.lt_irrefl 0)

theorem pop_content (hpop : pop key a = some (x, a')) :
    content a = x ::ₘ content a' := by
  obtain ⟨hsize, rfl, ⟨hone, rfl⟩ | ⟨hmore, rfl⟩⟩ := pop_eq_some hpop
  · obtain ⟨l⟩ := a
    match l, hone with
    | [x], _ => rfl
  · rw [content_siftDown]
    obtain ⟨l⟩ := a
    match l, hmore with
    | x :: y :: l, _ =>
      -- the last item stands in for the first
      have hlast : (y :: l).dropLast ++ [(y :: l).getLast (cons_ne_nil y l)] = y :: l :=
        dropLast_append_getLast _
      have hperm := perm_append_singleton ((y :: l).getLast (cons_ne_nil y l))
        (y :: l).dropLast
      rw [hlast] at hperm
      have hlist : ((x :: y :: l).toArray.pop.setIfInBounds 0
          (x :: y :: l).toArray[(x :: y :: l).toArray.size - 1]).toList =
          (y :: l).getLast (cons_ne_nil y l) :: (y :: l).dropLast := by
        simp [getLast_eq_getElem]
      have hcontent : content ((x :: y :: l).toArray.pop.setIfInBounds 0
          (x :: y :: l).toArray[(x :: y :: l).toArray.size - 1]) = (y :: l : List α) := by
        rw [content, hlist]
        exact coe_eq_coe.mpr hperm.symm
      rw [hcontent]
      rfl

theorem pop_least (h : IsHeap key a) (hpop : pop key a = some (x, a'))
    {y : α} (hy : y ∈ content a) : key x ≤ key y := by
  obtain ⟨hsize, rfl, -⟩ := pop_eq_some hpop
  rw [mem_content] at hy
  obtain ⟨i, hi, rfl⟩ := Array.mem_iff_getElem.mp hy
  have htop := h.top_le i
  rw [keyAt_of_lt hsize, keyAt_of_lt hi] at htop
  exact WithTop.coe_le_coe.mp htop

end Arrays

end BinaryHeap
