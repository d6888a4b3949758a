import Mathlib.Data.Nat.Digits.Lemmas

/-!
# Text of numbers and joined names

Ids and tokens are built by printing a counter, and keys by joining names with a
separator, so their distinctness rests on the printed numeral determining the
number and on the separator being found again.
-/

theorem Nat.toString_inj {m n : Nat} (h : toString m = toString n) : m = n := by
  have hdigits : Nat.toDigits 10 m = Nat.toDigits 10 n := by
    rw [← Nat.toList_repr, ← Nat.toList_repr]
    exact congrArg String.toList h
  rw [← Nat.ofDigitChars_ten_toDigits (n := m), hdigits, Nat.ofDigitChars_ten_toDigits]

theorem Nat.append_toString_inj (head : String) {m n : Nat}
    (h : head ++ toString m = head ++ toString n) : m = n :=
  Nat.toString_inj ((String.append_right_inj head).mp h)

/-- A list up to the first occurrence of a separator, and the rest after it, are
    determined by the whole. -/
theorem List.append_cons_inj_of_first {α : Type} {a : α} {x₁ x₂ z₁ z₂ : List α}
    (h₁ : a ∉ x₁) (h₂ : a ∉ x₂) (h : x₁ ++ a :: z₁ = x₂ ++ a :: z₂) : x₁ = x₂ ∧ z₁ = z₂ := by
  induction x₁ generalizing x₂ with
  | nil =>
    cases x₂ with
    | nil => exact ⟨rfl, (List.cons.inj h).2⟩
    | cons b x₂ =>
      have hb : a = b := (List.cons.inj h).1
      exact absurd (hb ▸ List.mem_cons_self) h₂
  | cons c x₁ ih =>
    cases x₂ with
    | nil =>
      have hc : c = a := (List.cons.inj h).1
      exact absurd (hc ▸ List.mem_cons_self) h₁
    | cons b x₂ =>
      obtain ⟨hcb, hrest⟩ := List.cons.inj h
      obtain ⟨hx, hz⟩ := ih (List.not_mem_of_not_mem_cons h₁)
        (List.not_mem_of_not_mem_cons h₂) hrest
      exact ⟨by rw [hcb, hx], hz⟩

/-- Texts without the separator are determined by their number and the joined text. -/
theorem String.intercalate_inj {sep : String} {c : Char} (hsep : sep.toList = [c])
    {xs ys : List String} (hlength : xs.length = ys.length) (hxs : ∀ x ∈ xs, c ∉ x.toList)
    (hys : ∀ y ∈ ys, c ∉ y.toList) (h : sep.intercalate xs = sep.intercalate ys) : xs = ys := by
  induction xs generalizing ys with
  | nil => exact (List.length_eq_zero_iff.mp hlength.symm).symm
  | cons x xs ih =>
    cases ys with
    | nil => exact absurd hlength (Nat.succ_ne_zero _)
    | cons y ys =>
      obtain ⟨hx, hxs⟩ := List.forall_mem_cons.mp hxs
      obtain ⟨hy, hys⟩ := List.forall_mem_cons.mp hys
      replace hlength : xs.length = ys.length := Nat.succ.inj hlength
      cases xs with
      | nil =>
        obtain rfl := List.length_eq_zero_iff.mp hlength.symm
        rw [String.intercalate_singleton, String.intercalate_singleton] at h
        rw [h]
      | cons x' xs =>
        cases ys with
        | nil => exact absurd hlength (Nat.succ_ne_zero _)
        | cons y' ys =>
          rw [String.intercalate_cons_cons, String.intercalate_cons_cons] at h
          have hlist := congrArg String.toList h
          simp only [String.toList_append, hsep, List.append_assoc, List.singleton_append] at hlist
          obtain ⟨hfirst, hrest⟩ := List.append_cons_inj_of_first hx hy hlist
          rw [String.toList_inj.mp hfirst, ih hlength hxs hys (String.toList_inj.mp hrest)]

def NoDouble {α : Type} (a : α) (x : List α) : Prop := ¬ [a, a] <:+: x

theorem NoDouble.tail {α : Type} {a b : α} {x : List α} (h : NoDouble a (b :: x)) :
    NoDouble a x := fun hx => h (hx.trans (List.suffix_cons b x).isInfix)

theorem not_noDouble_cons {α : Type} {a : α} {x : List α} : ¬ NoDouble a (a :: a :: x) :=
  fun h => h ⟨[], x, rfl⟩

theorem List.flatMap_append_inj {α β : Type} {code : α → List β} {stop : β}
    (hcode : ∀ a b t t', code a ++ t = code b ++ t' → a = b ∧ t = t')
    (hstop : ∀ a t t', code a ++ t ≠ stop :: t') {xs ys : List α} {z z' : List β}
    (h : xs.flatMap code ++ stop :: z = ys.flatMap code ++ stop :: z') : xs = ys ∧ z = z' := by
  induction xs generalizing ys with
  | nil =>
    cases ys with
    | nil => exact ⟨rfl, (List.cons.inj h).2⟩
    | cons y ys =>
      rw [List.flatMap_cons, List.append_assoc] at h
      exact absurd h.symm (hstop y _ z)
  | cons x xs ih =>
    rw [List.flatMap_cons, List.append_assoc] at h
    cases ys with
    | nil => exact absurd h (hstop x _ z')
    | cons y ys =>
      rw [List.flatMap_cons, List.append_assoc] at h
      obtain ⟨hxy, hrest⟩ := hcode x y _ _ h
      obtain ⟨hxs, hz⟩ := ih hrest
      exact ⟨by rw [hxy, hxs], hz⟩

/-! ## Base 36 -/

/-- The digit of a number below 36, as JavaScript prints it. -/
def digit36 (d : Nat) : Char := Char.ofNat (if d < 10 then 48 + d else 87 + d)

/-- `n.toString(36)`. -/
def Nat.toBase36 (n : Nat) : String :=
  if n = 0 then "0" else String.ofList ((Nat.digits 36 n).reverse.map digit36)

def Int.toBase36 (n : Int) : String :=
  if n < 0 then "-" ++ n.natAbs.toBase36 else n.natAbs.toBase36

private theorem digit36_inj : ∀ d < 36, ∀ e < 36, digit36 d = digit36 e → d = e := by
  decide +kernel

theorem digit36_ne_dash : ∀ d < 36, digit36 d ≠ '-' := by
  decide +kernel

private theorem map_digit36_inj {l l' : List Nat} (hl : ∀ d ∈ l, d < 36) (hl' : ∀ d ∈ l', d < 36)
    (h : l.map digit36 = l'.map digit36) : l = l' := by
  induction l generalizing l' with
  | nil => exact (List.map_eq_nil_iff.mp h.symm).symm
  | cons d l ih =>
    cases l' with
    | nil => exact nomatch h
    | cons e l' =>
      obtain ⟨hd, hrest⟩ := List.cons.inj h
      have hde := digit36_inj d (hl d List.mem_cons_self) e (hl' e List.mem_cons_self) hd
      have hll := ih (fun x hx => hl x (List.mem_cons_of_mem _ hx))
        (fun x hx => hl' x (List.mem_cons_of_mem _ hx)) hrest
      rw [hde, hll]

private theorem digits36_lt (n : Nat) : ∀ d ∈ (Nat.digits 36 n).reverse, d < 36 := by
  intro d hd
  exact Nat.digits_lt_base (by decide) (List.mem_reverse.mp hd)

theorem Nat.toBase36_inj {m n : Nat} (hm : 0 < m) (hn : 0 < n) (h : m.toBase36 = n.toBase36) :
    m = n := by
  unfold Nat.toBase36 at h
  rw [if_neg (by omega), if_neg (by omega)] at h
  have hdigits := map_digit36_inj (digits36_lt m) (digits36_lt n) (String.ofList_injective h)
  exact Nat.digits_inj_iff.mp (List.reverse_injective hdigits)

theorem Nat.dash_not_mem_toBase36 (n : Nat) : '-' ∉ n.toBase36.toList := by
  unfold Nat.toBase36
  split
  · decide
  · rw [String.toList_ofList]
    intro hmem
    obtain ⟨d, hd, he⟩ := List.mem_map.mp hmem
    exact digit36_ne_dash d (digits36_lt n d hd) he
