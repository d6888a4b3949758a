import Mathlib.Data.Finset.Card
import Promin.ForStd.JsMap

/-!
# Grouping

The items of a list by a key, the keys in the order in which they first occur.
-/

namespace Grouping

open List JsMap

variable {α β κ κ' : Type} [DecidableEq κ] [DecidableEq κ']

/-! ## Distinct keys -/

theorem eraseDups_sublist : ∀ l : List κ, l.eraseDups.Sublist l
  | [] => List.Sublist.slnil
  | k :: l => by
    rw [eraseDups_cons]
    exact ((eraseDups_sublist (l.filter fun k' => !k' == k)).trans filter_sublist).cons_cons k
  termination_by l => l.length
  decreasing_by
    exact Nat.lt_succ_of_le (length_filter_le _ _)

theorem nodup_eraseDups : ∀ l : List κ, l.eraseDups.Nodup
  | [] => nodup_nil
  | k :: l => by
    rw [eraseDups_cons, nodup_cons]
    refine ⟨fun hk => ?_, nodup_eraseDups (l.filter fun k' => !k' == k)⟩
    rw [mem_eraseDups, mem_filter] at hk
    simp at hk
  termination_by l => l.length
  decreasing_by
    exact Nat.lt_succ_of_le (length_filter_le _ _)

theorem eraseDups_of_nodup : ∀ {l : List κ}, l.Nodup → l.eraseDups = l
  | [], _ => rfl
  | k :: l, h => by
    obtain ⟨hk, hl⟩ := nodup_cons.mp h
    have hfilter : (l.filter fun k' => !k' == k) = l :=
      filter_eq_self.mpr fun k' hk' => by
        simp only [Bool.not_eq_true', beq_eq_false_iff_ne]
        exact fun heq => hk (heq ▸ hk')
    rw [eraseDups_cons, hfilter, eraseDups_of_nodup hl]

theorem filter_eraseDups (p : κ → Bool) : ∀ l : List κ,
    l.eraseDups.filter p = (l.filter p).eraseDups
  | [] => rfl
  | k :: l => by
    have hrest := filter_eraseDups p (l.filter fun k' => !k' == k)
    rw [eraseDups_cons, filter_cons, filter_cons, hrest, filter_filter]
    by_cases hk : p k = true
    · rw [if_pos hk, if_pos hk, eraseDups_cons, filter_filter]
      simp only [Bool.and_comm]
    · rw [if_neg hk, if_neg hk]
      congr 1
      apply filter_congr
      intro k' _
      by_cases heq : k' = k
      · simp [heq, hk]
      · simp [heq]
  termination_by l => l.length
  decreasing_by
    exact Nat.lt_succ_of_le (length_filter_le _ _)

def withKey (key : α → κ) (k : κ) (items : List α) : List α :=
  items.filter fun a => decide (key a = k)

def groups (key : α → κ) (items : List α) : List (List α) :=
  (items.map key).eraseDups.map fun k => withKey key k items

theorem ne_nil_of_mem_groups {key : α → κ} {items group : List α} (h : group ∈ groups key items) :
    group ≠ [] := by
  obtain ⟨k, hk, rfl⟩ := mem_map.mp h
  obtain ⟨a, ha, rfl⟩ := mem_map.mp (mem_eraseDups.mp hk)
  exact ne_nil_of_mem (mem_filter.mpr ⟨ha, decide_eq_true rfl⟩)

theorem subset_of_mem_groups {key : α → κ} {items group : List α} (h : group ∈ groups key items) :
    group ⊆ items := by
  obtain ⟨k, -, rfl⟩ := mem_map.mp h
  exact filter_sublist.subset

variable (key : α → κ)

theorem groups_cons (a : α) (items : List α) :
    groups key (a :: items) = withKey key (key a) (a :: items) ::
      groups key (items.filter fun b => decide (key b ≠ key a)) := by
  unfold groups
  rw [map_cons, eraseDups_cons, map_cons]
  congr 1
  have hfilter : (items.map key).filter (fun k => !k == key a) =
      (items.filter fun b => decide (key b ≠ key a)).map key := by
    rw [filter_map]
    congr 1
    apply filter_congr
    intro b _
    by_cases hb : key b = key a <;> simp [hb]
  rw [hfilter]
  apply map_congr_left
  intro k hk
  rw [mem_eraseDups, mem_map] at hk
  obtain ⟨b, hb, rfl⟩ := hk
  have hne : key b ≠ key a := of_decide_eq_true (mem_filter.mp hb).2
  unfold withKey
  rw [filter_cons, if_neg (by simpa using Ne.symm hne), filter_filter]
  apply filter_congr
  intro c _
  by_cases hc : key c = key b <;> simp [hc, hne]

theorem groups_congr {key : α → κ} {key' : α → κ'} : ∀ {items : List α},
    (∀ a ∈ items, ∀ b ∈ items, key a = key b ↔ key' a = key' b) →
      groups key items = groups key' items
  | [], _ => rfl
  | a :: items, h => by
    have hsame : ∀ b ∈ items, (key b = key a ↔ key' b = key' a) := fun b hb =>
      h b (mem_cons_of_mem _ hb) a mem_cons_self
    have hrest : (items.filter fun b => decide (key b ≠ key a)) =
        items.filter fun b => decide (key' b ≠ key' a) :=
      filter_congr fun b hb => decide_eq_decide.mpr (not_congr (hsame b hb))
    have hfirst : withKey key (key a) (a :: items) = withKey key' (key' a) (a :: items) :=
      filter_congr fun b hb => decide_eq_decide.mpr (h b hb a mem_cons_self)
    rw [groups_cons, groups_cons, hfirst, hrest, groups_congr]
    intro b hb c hc
    exact h b (mem_cons_of_mem _ (mem_filter.mp hb).1) c
      (mem_cons_of_mem _ (mem_filter.mp hc).1)
  termination_by items => items.length
  decreasing_by
    exact Nat.lt_succ_of_le (length_filter_le _ _)

theorem length_eraseDups (keys : List κ) : keys.eraseDups.length = keys.toFinset.card := by
  rw [← toFinset_card_of_nodup (nodup_eraseDups keys)]
  congr 1
  ext k
  rw [mem_toFinset, mem_toFinset, mem_eraseDups]

theorem length_groups_comp (f : κ → κ') (items : List α) :
    (groups (fun a => f (key a)) items).length = (groups key items).length ↔
      ∀ a ∈ items, ∀ b ∈ items, f (key a) = f (key b) → key a = key b := by
  unfold groups
  rw [length_map, length_map, length_eraseDups, length_eraseDups]
  have himage : (items.map fun a => f (key a)).toFinset = (items.map key).toFinset.image f := by
    ext k
    simp
  rw [himage, Finset.card_image_iff]
  constructor
  · intro h a ha b hb heq
    exact h (by simpa using ⟨a, ha, rfl⟩) (by simpa using ⟨b, hb, rfl⟩) heq
  · intro h k hk k' hk' heq
    obtain ⟨a, ha, rfl⟩ := mem_map.mp (mem_toFinset.mp hk)
    obtain ⟨b, hb, rfl⟩ := mem_map.mp (mem_toFinset.mp hk')
    exact h a ha b hb heq

/-! ## Lists by key -/

def pushAll (key : α → κ) (items : List α) (map : JsMap κ (List α)) : JsMap κ (List α) :=
  items.foldl (fun map a => map.push (key a) a) map

theorem get_foldl_push (value : α → β) (items : List α) (map : JsMap κ (List β))
    (k : κ) : (items.foldl (fun map a => map.push (key a) (value a)) map).get k =
      if withKey key k items = [] then map.get k
      else some ((map.get k).getD [] ++ (withKey key k items).map value) := by
  induction items generalizing map with
  | nil => rfl
  | cons a items ih =>
    rw [foldl_cons, ih, push, get_set, withKey, withKey, filter_cons]
    by_cases hk : key a = k
    · simp only [hk, if_true, decide_true]
      by_cases hrest : (items.filter fun b => decide (key b = k)) = [] <;> simp [hrest]
    · simp only [hk, if_false, decide_false, Bool.false_eq_true]

theorem get_pushAll (items : List α) (map : JsMap κ (List α)) (k : κ) :
    (pushAll key items map).get k = if withKey key k items = [] then map.get k
      else some ((map.get k).getD [] ++ withKey key k items) := by
  have hpush := get_foldl_push key id items map k
  rw [map_id] at hpush
  exact hpush

/-! ## Accumulating by key -/

def accumulate (key : α → κ) (start : α → β) (step : β → α → β) (items : List α)
    (map : JsMap κ β) : JsMap κ β :=
  items.foldl (fun map a => map.set (key a) (step ((map.get (key a)).getD (start a)) a)) map

def folded (start : α → β) (step : β → α → β) (old : Option β) : List α → Option β
  | [] => old
  | a :: items => some ((a :: items).foldl step (old.getD (start a)))

variable (start : α → β) (step : β → α → β)

theorem get_accumulate (items : List α)
    (map : JsMap κ β) (k : κ) : (accumulate key start step items map).get k =
      folded start step (map.get k) (withKey key k items) := by
  induction items generalizing map with
  | nil => rfl
  | cons a items ih =>
    show (accumulate key start step items _).get k = _
    rw [ih, get_set, withKey, withKey, filter_cons]
    by_cases hk : key a = k
    · rw [if_pos hk, if_pos (decide_eq_true hk), hk]
      cases hrest : items.filter fun b => decide (key b = k) with
      | nil => rfl
      | cons b rest => rfl
    · rw [if_neg hk, if_neg (by simpa using hk)]

theorem keys_accumulate (items : List α)
    (map : JsMap κ β) : (accumulate key start step items map).keys =
      map.keys ++ ((items.map key).filter fun k => decide (k ∉ map.keys)).eraseDups := by
  induction items generalizing map with
  | nil => simp [accumulate]
  | cons a items ih =>
    show (accumulate key start step items _).keys = _
    rw [ih, map_cons, filter_cons]
    cases hget : map.get (key a) with
    | some old =>
      have hmem : key a ∈ map.keys := (mem_keys_iff map _).mpr (by rw [hget]; rfl)
      rw [keys_set_of_get hget, if_neg (by simpa using hmem)]
    | none =>
      have hmem : key a ∉ map.keys := fun h => by
        rw [mem_keys_iff, hget] at h
        exact absurd h Bool.false_ne_true
      rw [keys_set_of_none hget, if_pos (by simpa using hmem), eraseDups_cons,
        append_assoc, filter_filter, singleton_append]
      congr 3
      apply filter_congr
      intro k _
      simp only [mem_append, mem_singleton, not_or]
      by_cases hk : k = key a <;> simp [hk]

theorem keys_accumulate_empty (items : List α) :
    (accumulate key start step items empty).keys = (items.map key).eraseDups := by
  rw [keys_accumulate]
  simp [JsMap.keys, JsMap.empty]

theorem entries_accumulate (items : List α) :
    ((accumulate key start step items empty).values.map some) =
      (groups key items).map (folded start step none) := by
  rw [values_map_some, keys_accumulate_empty, groups, map_map]
  apply map_congr_left
  intro k _
  exact get_accumulate key start step items empty k

end Grouping
