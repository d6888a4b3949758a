import Mathlib.Algebra.BigOperators.Group.Finset.Piecewise
import Mathlib.Tactic.Linarith
import Mathlib.Tactic.Positivity
import Mathlib.Tactic.Ring
import Promin.ForStd.JsMap

/-!
# Amounts

Maps that hold an amount at each key; a key without an entry counts as zero. A
loop adds to the amounts one by one, and what it adds in all is what the total
grows by.
-/

theorem List.foldlM_some {α β : Type} {f : β → α → Option β} {g : β → α → β} {P : β → Prop} :
    ∀ {l : List α} {b : β}, (∀ b, ∀ a ∈ l, P b → f b a = some (g b a) ∧ P (g b a)) → P b →
      l.foldlM f b = some (l.foldl g b) ∧ P (l.foldl g b)
  | [], _, _, hb => ⟨rfl, hb⟩
  | a :: l, b, hstep, hb => by
    obtain ⟨hf, hg⟩ := hstep b a (mem_cons_self ..) hb
    rw [foldlM_cons, hf]
    exact foldlM_some (fun b a' ha' => hstep b a' (mem_cons_of_mem a ha')) hg

theorem List.foldl_measure {α β M : Type} [AddCommMonoid M] {step : β → α → β} (measure : β → M)
    (added : α → M) {l : List α} {b : β}
    (hstep : ∀ b, ∀ a ∈ l, measure (step b a) = measure b + added a) :
    measure (l.foldl step b) = measure b + (l.map added).sum := by
  induction l generalizing b with
  | nil => exact (add_zero _).symm
  | cons a l ih =>
    rw [foldl_cons, ih fun b a' ha' => hstep b a' (mem_cons_of_mem a ha'),
      hstep b a (mem_cons_self ..), List.map_cons, List.sum_cons, add_assoc]

namespace JsMap

open List

section Amounts

variable {κ : Type} [DecidableEq κ] {M : Type} [AddCommMonoid M]

/-- The amount at a key, `map.get(key) ?? 0`. -/
def amount (m : JsMap κ M) (k : κ) : M := (m.get k).getD 0

/-- `map.set(key, (map.get(key) ?? 0) + w)`. -/
def add (m : JsMap κ M) (k : κ) (w : M) : JsMap κ M := m.set k (m.amount k + w)

/-- The amounts at some keys together. -/
def total (m : JsMap κ M) (ks : Finset κ) : M := ∑ k ∈ ks, m.amount k

variable {m : JsMap κ M} {k : κ} {w : M}

theorem amount_of_get (h : m.get k = some w) : m.amount k = w := by
  rw [amount, h, Option.getD_some]

theorem get_eq_amount (h : (m.get k).isSome) : m.get k = some (m.amount k) := by
  obtain ⟨w, hw⟩ := Option.isSome_iff_exists.mp h
  rw [amount_of_get hw, hw]

omit [AddCommMonoid M] in
theorem isSome_get_set (m : JsMap κ M) (k k' : κ) (w : M) :
    ((m.set k w).get k').isSome = (decide (k = k') || (m.get k').isSome) := by
  rw [get_set]
  by_cases hk : k = k' <;> simp [hk]

@[simp] theorem amount_empty (k : κ) : (empty : JsMap κ M).amount k = 0 := rfl

theorem amount_set (m : JsMap κ M) (k k' : κ) (w : M) :
    (m.set k w).amount k' = if k = k' then w else m.amount k' := by
  rw [amount, get_set]
  by_cases hk : k = k'
  · rw [if_pos hk, if_pos hk, Option.getD_some]
  · rw [if_neg hk, if_neg hk, amount]

theorem amount_add (m : JsMap κ M) (k k' : κ) (w : M) :
    (m.add k w).amount k' = m.amount k' + if k = k' then w else 0 := by
  rw [add, amount_set]
  by_cases hk : k = k'
  · rw [if_pos hk, if_pos hk, hk]
  · rw [if_neg hk, if_neg hk, add_zero]

theorem total_add (m : JsMap κ M) {ks : Finset κ} (hk : k ∈ ks) (w : M) :
    (m.add k w).total ks = m.total ks + w := by
  unfold total
  rw [Finset.sum_congr rfl fun k' _ => amount_add m k k' w, Finset.sum_add_distrib,
    Finset.sum_ite_eq ks k fun _ => w, if_pos hk]

/-! ## Loops -/

variable {α : Type}

def addAll (key : α → κ) (weight : α → M) (items : List α) (m : JsMap κ M) : JsMap κ M :=
  items.foldl (fun m a => m.add (key a) (weight a)) m

variable (key : α → κ) (weight : α → M)

theorem amount_addAll (items : List α) (m : JsMap κ M) (k : κ) :
    (addAll key weight items m).amount k =
      m.amount k + (items.map fun a => if key a = k then weight a else 0).sum := by
  induction items generalizing m with
  | nil => exact (add_zero _).symm
  | cons a items ih =>
    show (addAll key weight items (m.add (key a) (weight a))).amount k = _
    rw [ih, amount_add, List.map_cons, List.sum_cons, add_assoc]

theorem total_addAll {items : List α} {ks : Finset κ} (h : ∀ a ∈ items, key a ∈ ks)
    (m : JsMap κ M) : (addAll key weight items m).total ks =
      m.total ks + (items.map weight).sum := by
  induction items generalizing m with
  | nil => exact (add_zero _).symm
  | cons a items ih =>
    show (addAll key weight items (m.add (key a) (weight a))).total ks = _
    rw [ih (fun b hb => h b (mem_cons_of_mem a hb)), total_add m (h a (mem_cons_self ..)),
      List.map_cons, List.sum_cons, add_assoc]

omit [AddCommMonoid M] in
theorem sum_entries {β : Type} (m : JsMap κ β) (default : β) (ks : Finset κ)
    (hks : ∀ k ∈ m.keys, k ∈ ks) [AddCommMonoid M] {f : κ → β → M} (hf : ∀ k, f k default = 0) :
    (m.entries.map fun e => f e.1 e.2).sum = ∑ k ∈ ks, f k ((m.get k).getD default) := by
  have hnodup : m.keys.Nodup := m.nodup
  have hentries : (m.entries.map fun e => f e.1 e.2) =
      m.keys.map fun k => f k ((m.get k).getD default) := by
    rw [keys, map_map]
    apply map_congr_left
    intro e he
    show f e.1 e.2 = f e.1 ((m.get e.1).getD default)
    rw [(m.mem_entries_iff e.1 e.2).mp he, Option.getD_some]
  rw [hentries, ← sum_toFinset _ hnodup]
  refine Finset.sum_subset (fun k hk => hks k (mem_toFinset.mp hk)) fun k _ hk => ?_
  rw [mem_toFinset, mem_keys_iff, Option.not_isSome_iff_eq_none] at hk
  rw [hk, Option.getD_none, hf]

theorem isSome_get_addAll {items : List α} {m : JsMap κ M} (h : (m.get k).isSome) :
    ((addAll key weight items m).get k).isSome := by
  induction items generalizing m with
  | nil => exact h
  | cons a items ih =>
    apply ih
    show ((m.set (key a) (m.amount (key a) + weight a)).get k).isSome
    rw [isSome_get_set, h, Bool.or_true]

theorem amount_setAll (f : κ → M) (ks : List κ) (m : JsMap κ M) (k : κ) :
    (ks.foldl (fun m k => m.set k (f k)) m).amount k = if k ∈ ks then f k else m.amount k := by
  have hget := get_foldl_set id f ks m k
  rw [map_id] at hget
  refine (congrArg (Option.getD · 0) hget).trans ?_
  split <;> rfl

omit [AddCommMonoid M] in
theorem isSome_get_setAll (f : κ → M) (ks : List κ) (m : JsMap κ M) :
    ((ks.foldl (fun m k => m.set k (f k)) m).get k).isSome =
      (decide (k ∈ ks) || (m.get k).isSome) := by
  have hget := get_foldl_set id f ks m k
  rw [map_id] at hget
  refine (congrArg Option.isSome hget).trans ?_
  by_cases hk : k ∈ ks <;> simp [hk]

end Amounts

end JsMap

/-!
## Allotting an amount in equal shares

An amount is shared between items that ask for their shares one at a time.
`charge i` is what an item was given, or what it kept of that, and nothing while
it is open: it may still ask.
-/

namespace Allotment

variable {ι K : Type} [Field K] [LinearOrder K] [IsStrictOrderedRing K]

def total (items : List ι) (charge : ι → Option K) (level : K) : K :=
  (items.map fun i => (charge i).getD level).sum

/-- The open items can be given the level each, and no more. -/
structure Fair (items : List ι) (amount : K) (charge : ι → Option K) (level : K) : Prop where
  nonneg : 0 ≤ level
  within : total items charge level ≤ amount
  full : ∀ i ∈ items, charge i = none → amount ≤ total items charge level

variable {items : List ι} {amount level : K} {charge charge' : ι → Option K}

theorem total_mono {level' : K} (h : ∀ i ∈ items, (charge i).getD level ≤ (charge' i).getD level') :
    total items charge level ≤ total items charge' level' :=
  List.sum_le_sum h

omit [LinearOrder K] [IsStrictOrderedRing K] in
theorem total_add (rise : K) : total items charge (level + rise) =
    total items charge level + (items.countP fun i => (charge i).isNone) * rise := by
  induction items with
  | nil => simp [total]
  | cons i items ih =>
    simp only [total, List.map_cons, List.sum_cons, List.countP_cons] at ih ⊢
    rw [ih]
    cases charge i with
    | none =>
      simp only [Option.getD_none, Option.isNone_none, ↓reduceIte, Nat.cast_add, Nat.cast_one]
      ring
    | some x =>
      simp only [Option.getD_some, Option.isNone_some, Bool.false_eq_true, ↓reduceIte, Nat.add_zero]
      ring

theorem Fair.start (items : List ι) (hamount : 0 ≤ amount) :
    ∃ level : K, Fair items amount (fun _ => none) level := by
  have htotal : ∀ level : K, total items (fun _ => none) level = items.length * level := by
    intro level
    simp [total]
  refine ⟨amount / items.length, by positivity, ?_, ?_⟩
  · rw [htotal]
    rcases items.length.eq_zero_or_pos with hzero | hpos
    · simpa [hzero] using hamount
    · exact (mul_div_cancel₀ _ (by positivity)).le
  · intro i hi _
    have hpos : (0 : K) < items.length := by exact_mod_cast List.length_pos_of_mem hi
    exact (htotal _ ▸ mul_div_cancel₀ _ hpos.ne').ge

theorem Fair.lower (h : Fair items amount charge level)
    (hle : ∀ i ∈ items, (charge' i).getD level ≤ (charge i).getD level) :
    ∃ level', level ≤ level' ∧ Fair items amount charge' level' := by
  have hwithin : total items charge' level ≤ amount := (total_mono hle).trans h.within
  by_cases hopen : ∃ i ∈ items, charge' i = none
  · have hpos : (0 : K) < items.countP fun i => (charge' i).isNone := by
      obtain ⟨i, hi, hnone⟩ := hopen
      exact_mod_cast List.countP_pos_iff.mpr ⟨i, hi, by simp [hnone]⟩
    have hrise : 0 ≤ (amount - total items charge' level) /
        (items.countP fun i => (charge' i).isNone) := div_nonneg (by linarith) hpos.le
    have htotal : total items charge' (level + (amount - total items charge' level) /
        (items.countP fun i => (charge' i).isNone)) = amount := by
      rw [total_add, mul_div_cancel₀ _ hpos.ne']
      ring
    exact ⟨_, by linarith, by linarith [h.nonneg], htotal.le, fun _ _ _ => htotal.ge⟩
  · exact ⟨level, le_rfl, h.nonneg, hwithin, fun i hi hnone => (hopen ⟨i, hi, hnone⟩).elim⟩

/-- Whoever sees no charge too low, and of some items nothing, finds at most the level left for
    each of these. -/
theorem Fair.share_le (h : Fair items amount charge level) {seen : ι → Option K}
    (hseen : ∀ i ∈ items, (charge i).getD level ≤ (seen i).getD level)
    {i : ι} (hi : i ∈ items) (hopen : charge i = none) :
    amount - total items seen 0 ≤ (items.countP fun i => (seen i).isNone) * level := by
  have hfull := h.full i hi hopen
  have hle := total_mono hseen
  have hlevel : total items seen (0 + level) =
      total items seen 0 + (items.countP fun i => (seen i).isNone) * level := total_add level
  rw [zero_add] at hlevel
  linarith

end Allotment
