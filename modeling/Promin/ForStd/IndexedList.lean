import Promin.ForStd.JsMap

/-!
# Lists with a position index

A list of records beside a map from each record's key to its position: a write
looks its key up and replaces in place or appends, and a filter rebuilds the
map.
-/

namespace JsMap

open List

variable {κ α : Type} [DecidableEq κ] {key : α → κ} {position : JsMap κ Nat} {entries : List α}

def find (position : JsMap κ Nat) (entries : List α) (k : κ) : Option α :=
  (position.get k).bind fun i => entries[i]?

def Indexes (key : α → κ) (position : JsMap κ Nat) (entries : List α) : Prop :=
  ∀ k i, position.get k = some i ↔ ∃ e, entries[i]? = some e ∧ key e = k

def indexFrom (key : α → κ) (i : Nat) (position : JsMap κ Nat) : List α → JsMap κ Nat
  | [] => position
  | e :: rest => indexFrom key (i + 1) (position.set (key e) i) rest

theorem indexes_empty : Indexes key empty ([] : List α) := by
  intro k i
  simp

section

variable (h : Indexes key position entries)
include h

theorem Indexes.find_eq_some_iff (k : κ) (e : α) :
    find position entries k = some e ↔ e ∈ entries ∧ key e = k := by
  unfold find
  constructor
  · intro hfind
    obtain ⟨i, hpos, hi⟩ := Option.bind_eq_some_iff.mp hfind
    obtain ⟨e', he', hk⟩ := (h k i).mp hpos
    rw [hi] at he'
    cases he'
    exact ⟨mem_of_getElem? hi, hk⟩
  · rintro ⟨hmem, hk⟩
    obtain ⟨i, hi⟩ := List.getElem?_of_mem hmem
    rw [(h k i).mpr ⟨e, hi, hk⟩]
    exact hi

theorem Indexes.has_iff (k : κ) :
    position.has k = (find position entries k).isSome := by
  unfold has find
  cases hpos : position.get k with
  | none => rfl
  | some i =>
    obtain ⟨e, he, -⟩ := (h k i).mp hpos
    simp [he]

theorem Indexes.nodup : (entries.map key).Nodup := by
  rw [nodup_iff_getElem?_ne_getElem?]
  intro i j hij hj heq
  have hj' : j < entries.length := by simpa using hj
  have hi' : i < entries.length := by omega
  simp only [List.getElem?_map, List.getElem?_eq_getElem hi', List.getElem?_eq_getElem hj',
    Option.map_some, Option.some.injEq] at heq
  have hposi := (h (key entries[i]) i).mpr ⟨entries[i], List.getElem?_eq_getElem hi', rfl⟩
  have hposj := (h (key entries[i]) j).mpr ⟨entries[j], List.getElem?_eq_getElem hj', heq.symm⟩
  rw [hposi] at hposj
  cases hposj
  omega

theorem Indexes.replace {i : Nat} {e : α}
    (hpos : position.get (key e) = some i) : Indexes key position (entries.set i e) := by
  intro k j
  rw [h k j]
  obtain ⟨old, hold, hkey⟩ := (h (key e) i).mp hpos
  have hi : i < entries.length := (List.getElem?_eq_some_iff.mp hold).1
  by_cases hij : i = j
  · subst hij
    simp only [hold, List.getElem?_set_self hi, Option.some.injEq, exists_eq_left', hkey]
  · rw [List.getElem?_set_ne hij]

theorem Indexes.snoc {e : α} (hpos : position.get (key e) = none) :
    Indexes key (position.set (key e) entries.length) (entries ++ [e]) := by
  intro k i
  rw [get_set]
  by_cases hk : key e = k
  · subst hk
    simp only [↓reduceIte, Option.some.injEq]
    constructor
    · rintro rfl
      exact ⟨e, by simp, rfl⟩
    · rintro ⟨e', he', hkey⟩
      by_contra hne
      have hi : i < entries.length := by
        have hlen := (List.getElem?_eq_some_iff.mp he').1
        simp only [length_append, length_singleton] at hlen
        omega
      rw [List.getElem?_append_left hi] at he'
      rw [(h (key e) i).mpr ⟨e', he', hkey⟩] at hpos
      exact nomatch hpos
  · simp only [hk, ↓reduceIte, h k i]
    constructor
    · rintro ⟨e', he', hkey⟩
      have hi := (List.getElem?_eq_some_iff.mp he').1
      exact ⟨e', by rw [List.getElem?_append_left hi, he'], hkey⟩
    · rintro ⟨e', he', hkey⟩
      by_cases hi : i < entries.length
      · rw [List.getElem?_append_left hi] at he'
        exact ⟨e', he', hkey⟩
      · rw [List.getElem?_append_right (by omega)] at he'
        have hmem := mem_of_getElem? he'
        rw [mem_singleton] at hmem
        exact absurd (hmem ▸ hkey) hk

end

private theorem get_indexFrom (i : Nat) (position : JsMap κ Nat) (l : List α)
    (hnd : (l.map key).Nodup) (k : κ) (n : Nat) :
    (indexFrom key i position l).get k = some n ↔
      (∃ j e, l[j]? = some e ∧ key e = k ∧ n = i + j) ∨
        (k ∉ l.map key ∧ position.get k = some n) := by
  induction l generalizing i position with
  | nil => simp [indexFrom]
  | cons e rest ih =>
    simp only [map_cons, nodup_cons] at hnd
    simp only [indexFrom, ih _ _ hnd.2, get_set, map_cons, mem_cons, not_or]
    constructor
    · rintro (⟨j, e', he', hk, rfl⟩ | ⟨hk, hget⟩)
      · exact .inl ⟨j + 1, e', he', hk, by omega⟩
      · split at hget
        · rename_i hek
          cases hget
          exact .inl ⟨0, e, rfl, hek, rfl⟩
        · rename_i hek
          exact .inr ⟨⟨fun h => hek h.symm, hk⟩, hget⟩
    · rintro (⟨j, e', he', hk, rfl⟩ | ⟨⟨hek, hk⟩, hget⟩)
      · cases j with
        | zero =>
          simp only [List.getElem?_cons_zero, Option.some.injEq] at he'
          subst he'
          exact .inr ⟨hk ▸ hnd.1, by simp [hk]⟩
        | succ j => exact .inl ⟨j, e', he', hk, by omega⟩
      · rw [if_neg (Ne.symm hek)]
        exact .inr ⟨hk, hget⟩

theorem indexes_indexFrom (hnd : (entries.map key).Nodup) :
    Indexes key (indexFrom key 0 empty entries) entries := by
  intro k i
  rw [get_indexFrom 0 empty entries hnd]
  constructor
  · rintro (⟨j, e, he, hk, rfl⟩ | ⟨-, hget⟩)
    · exact ⟨e, by simpa using he, hk⟩
    · exact nomatch hget
  · rintro ⟨e, he, hk⟩
    exact .inl ⟨i, e, he, hk, by omega⟩

/-! ## Lookups after a write -/

section

variable (h : Indexes key position entries)
include h

theorem Indexes.find_replace {i : Nat} {e : α} (hpos : position.get (key e) = some i) (k : κ) :
    find position (entries.set i e) k = if key e = k then some e else find position entries k := by
  obtain ⟨old, hold, hkey⟩ := (h (key e) i).mp hpos
  have hi : i < entries.length := (List.getElem?_eq_some_iff.mp hold).1
  unfold find
  by_cases hk : key e = k
  · subst hk
    simp [hpos, List.getElem?_set_self hi]
  · rw [if_neg hk]
    cases hget : position.get k with
    | none => rfl
    | some j =>
      have hij : i ≠ j := by
        rintro rfl
        obtain ⟨e', he', hk'⟩ := (h k i).mp hget
        rw [hold] at he'
        cases he'
        exact hk (hkey.symm.trans hk')
      simp [List.getElem?_set_ne hij]

theorem Indexes.find_snoc (e : α) (k : κ) :
    find (position.set (key e) entries.length) (entries ++ [e]) k =
      if key e = k then some e else find position entries k := by
  unfold find
  rw [get_set]
  by_cases hk : key e = k
  · simp [hk]
  · rw [if_neg hk, if_neg hk]
    cases hget : position.get k with
    | none => rfl
    | some j =>
      obtain ⟨e', he', -⟩ := (h k j).mp hget
      have hj := (List.getElem?_eq_some_iff.mp he').1
      simp [List.getElem?_append_left hj]

theorem Indexes.find_filter (keep : α → Bool) (k : κ) :
    find (indexFrom key 0 empty (entries.filter keep)) (entries.filter keep) k =
      (find position entries k).filter keep := by
  have hnd : ((entries.filter keep).map key).Nodup :=
    (filter_sublist.map key).nodup h.nodup
  refine Option.ext fun e => ?_
  rw [(indexes_indexFrom hnd).find_eq_some_iff, Option.filter_eq_some_iff,
    h.find_eq_some_iff, mem_filter]
  exact ⟨fun ⟨⟨hmem, hkeep⟩, hk⟩ => ⟨⟨hmem, hk⟩, hkeep⟩,
    fun ⟨⟨hmem, hk⟩, hkeep⟩ => ⟨⟨hmem, hkeep⟩, hk⟩⟩

end

end JsMap
