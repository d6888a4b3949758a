import Mathlib.Data.List.Induction
import Mathlib.Data.List.Nodup

/-!
# Insertion-ordered maps

A finite map whose iteration order is the order in which the keys were first
inserted: overwriting a key keeps its position, deleting it gives the position
up.
-/

/-- A map that remembers the order in which its keys were inserted. -/
structure JsMap (κ : Type) (α : Type) where
  entries : List (κ × α)
  nodup : (entries.map Prod.fst).Nodup

namespace JsMap

open Prod hiding map map_map

open List Function

variable {κ α : Type} [DecidableEq κ]

/-! ## The entry list -/

/-- Value of the first entry with key `k`. -/
def lookup (k : κ) : List (κ × α) → Option α
  | [] => none
  | (k', v) :: rest => if k' = k then some v else lookup k rest

/-- Overwrite the entry with key `k` in place, or append a new one. -/
def upsert (k : κ) (v : α) : List (κ × α) → List (κ × α)
  | [] => [(k, v)]
  | (k', v') :: rest => if k' = k then (k, v) :: rest else (k', v') :: upsert k v rest

theorem lookup_eq_none_iff (k : κ) (l : List (κ × α)) :
    lookup k l = none ↔ k ∉ l.map fst := by
  induction l with
  | nil => simp [lookup]
  | cons p rest ih =>
    simp only [lookup, map_cons, mem_cons, not_or]
    split
    · rename_i h
      simp [h]
    · rename_i h
      rw [ih]
      exact ⟨fun hr => ⟨fun he => h he.symm, hr⟩, fun hr => hr.2⟩

variable {l : List (κ × α)} {k : κ} {v : α} {β : Type}

theorem mem_of_lookup (h : lookup k l = some v) :
    (k, v) ∈ l := by
  induction l with
  | nil => simp [lookup] at h
  | cons p rest ih =>
    simp only [lookup] at h
    split at h
    · rename_i hk
      cases h
      rw [← hk]
      exact mem_cons_self
    · exact mem_cons_of_mem _ (ih h)

theorem lookup_of_mem (hn : (l.map fst).Nodup) (h : (k, v) ∈ l) : lookup k l = some v := by
  induction l with
  | nil => simp at h
  | cons p rest ih =>
    simp only [map_cons, nodup_cons] at hn
    rcases mem_cons.mp h with rfl | hr
    · simp [lookup]
    · have hne : p.1 ≠ k := by
        intro he
        exact hn.1 (he ▸ mem_map.mpr ⟨(k, v), hr, rfl⟩)
      simp [lookup, hne, ih hn.2 hr]

theorem lookup_upsert (k k' : κ) (v : α) (l : List (κ × α)) :
    lookup k' (upsert k v l) = if k = k' then some v else lookup k' l := by
  induction l with
  | nil => simp [upsert, lookup]
  | cons p rest ih =>
    simp only [upsert]
    split
    · rename_i hk
      simp only [lookup, hk]
      split <;> rfl
    · rename_i hk
      simp only [lookup, ih]
      by_cases hp : p.1 = k'
      · have hne : k ≠ k' := fun he => hk (hp.trans he.symm)
        simp [hp, hne]
      · simp [hp]

theorem upsert_of_lookup (h : lookup k l = some v) :
    upsert k v l = l := by
  induction l with
  | nil => simp [lookup] at h
  | cons p rest ih =>
    obtain ⟨k', v'⟩ := p
    simp only [lookup] at h
    simp only [upsert]
    split at h
    · rename_i hk
      cases h
      subst hk
      simp
    · rename_i hk
      simp [hk, ih h]

theorem keys_upsert (k : κ) (v : α) (l : List (κ × α)) :
    (upsert k v l).map fst =
      if k ∈ l.map fst then l.map fst else l.map fst ++ [k] := by
  induction l with
  | nil => simp [upsert]
  | cons p rest ih =>
    simp only [upsert]
    by_cases hk : p.1 = k
    · simp [hk]
    · have hk' : k ≠ p.1 := fun h => hk h.symm
      simp only [hk, ↓reduceIte, map_cons, mem_cons, hk', false_or, ih]
      split <;> simp

theorem nodup_upsert (k : κ) (v : α) (hn : (l.map fst).Nodup) :
    ((upsert k v l).map fst).Nodup := by
  rw [keys_upsert]
  split
  · exact hn
  · rename_i hk
    rw [nodup_append]
    refine ⟨hn, by simp, ?_⟩
    intro a ha b hb hab
    rw [mem_singleton] at hb
    exact hk (hb ▸ hab ▸ ha)

/-! ## Operations -/

def empty : JsMap κ α := ⟨[], by simp⟩

def get (m : JsMap κ α) (k : κ) : Option α := lookup k m.entries

def has (m : JsMap κ α) (k : κ) : Bool := (m.get k).isSome

def set (m : JsMap κ α) (k : κ) (v : α) : JsMap κ α :=
  ⟨upsert k v m.entries, nodup_upsert k v m.nodup⟩

/-- The keys `f` has a value for, set in the order they are listed. -/
def ofKeys (f : κ → Option α) (ks : List κ) : JsMap κ α :=
  ks.foldl (fun m k =>
    match f k with
    | some v => m.set k v
    | none => m) empty

/-- The entries `f` makes of the items, set in the order of the items. -/
def collect {β : Type} (f : β → Option (κ × α)) (items : List β) : JsMap κ α :=
  items.foldl (fun m b =>
    match f b with
    | some e => m.set e.1 e.2
    | none => m) empty

/-- Keep the entries `p` accepts, in order. -/
def filter (m : JsMap κ α) (p : κ → α → Bool) : JsMap κ α :=
  ⟨m.entries.filter fun e => p e.1 e.2,
    (filter_sublist.map Prod.fst).nodup m.nodup⟩

def delete (m : JsMap κ α) (k : κ) : JsMap κ α := m.filter fun k' _ => k' != k

/-- The entries whose key `p` accepts, in order. -/
def restrict (m : JsMap κ α) (p : κ → Bool) : JsMap κ α := m.filter fun k _ => p k

def push (m : JsMap κ (List α)) (k : κ) (v : α) : JsMap κ (List α) :=
  m.set k ((m.get k).getD [] ++ [v])

/-- Keep the items `p` accepts of the list a key has. -/
def filterAt (m : JsMap κ (List α)) (k : κ) (p : α → Bool) : JsMap κ (List α) :=
  match m.get k with
  | none => m
  | some l => m.set k (l.filter p)

def mapValues (m : JsMap κ α) (f : κ → α → α) : JsMap κ α :=
  ⟨m.entries.map fun e => (e.1, f e.1 e.2), by
    simpa [map_map, comp_def] using m.nodup⟩

def keys (m : JsMap κ α) : List κ := m.entries.map Prod.fst

def values (m : JsMap κ α) : List α := m.entries.map Prod.snd

def size (m : JsMap κ α) : Nat := m.entries.length

/-! ## Lookup lemmas -/

omit [DecidableEq κ] in
@[ext] theorem ext {m m' : JsMap κ α} (h : m.entries = m'.entries) : m = m' := by
  cases m
  cases m'
  simpa using h

instance [DecidableEq α] : DecidableEq (JsMap κ α) := fun m m' =>
  decidable_of_iff (m.entries = m'.entries) ⟨ext, fun h => h ▸ rfl⟩

@[simp] theorem get_empty (k : κ) : (empty : JsMap κ α).get k = none := rfl

variable (m : JsMap κ α)

theorem mem_entries_iff (k : κ) (v : α) :
    (k, v) ∈ m.entries ↔ m.get k = some v :=
  ⟨fun h => lookup_of_mem m.nodup h, fun h => mem_of_lookup h⟩

theorem get_set (k k' : κ) (v : α) :
    (m.set k v).get k' = if k = k' then some v else m.get k' :=
  lookup_upsert k k' v m.entries

@[simp] theorem get_set_self (k : κ) (v : α) :
    (m.set k v).get k = some v := by
  simp [get_set]

theorem get_set_ne {k' : κ} (v : α) (h : k ≠ k') :
    (m.set k v).get k' = m.get k' := by
  simp [get_set, h]

theorem of_get_ofKeys {f : κ → Option α} {ks : List κ}
    (h : (ofKeys f ks).get k = some v) : f k = some v := by
  refine List.foldlRecOn (motive := fun m : JsMap κ α => ∀ k v, m.get k = some v → f k = some v) _ _
    (fun _ _ h => by simp at h) ?_ k v h
  intro m hm key _ k' v' hk'
  cases hkey : f key with
  | none =>
    simp only [hkey] at hk'
    exact hm k' v' hk'
  | some w =>
    simp only [hkey, get_set] at hk'
    split at hk'
    · rename_i heq
      cases hk'
      exact heq ▸ hkey
    · exact hm k' v' hk'

/-- Entries with distinct keys are all there in the end. -/
theorem get_collect {f : β → Option (κ × α)} {items : List β}
    (hnd : ((items.filterMap f).map Prod.fst).Nodup) (k : κ) (v : α) :
    (collect f items).get k = some v ↔ (k, v) ∈ items.filterMap f := by
  induction items using List.reverseRecOn with
  | nil => simp [collect]
  | append_singleton items b ih =>
    have hstep : collect f (items ++ [b]) =
        match f b with
        | some e => (collect f items).set e.1 e.2
        | none => collect f items := by
      simp [collect]
    rw [hstep]
    rw [filterMap_append, map_append, nodup_append] at hnd
    cases hb : f b with
    | none => simp [hb, ih hnd.1]
    | some e =>
      obtain ⟨k', v'⟩ := e
      have hfresh : ∀ v, (k', v) ∉ items.filterMap f := by
        intro v hv
        exact hnd.2.2 k' (mem_map.mpr ⟨(k', v), hv, rfl⟩) k' (by simp [hb]) rfl
      simp only [get_set, filterMap_append, mem_append]
      by_cases hk : k' = k
      · subst hk
        simp [hb, hfresh, eq_comm]
      · simp [hb, hk, ih hnd.1, Ne.symm hk]

theorem get_filter (p : κ → α → Bool) (k : κ) :
    (m.filter p).get k = (m.get k).filter (p k) := by
  cases hk : (m.get k).filter (p k) with
  | some v =>
    obtain ⟨hget, hp⟩ := Option.filter_eq_some_iff.mp hk
    rw [← mem_entries_iff]
    exact mem_filter.mpr ⟨(mem_entries_iff m k v).mpr hget, hp⟩
  | none =>
    cases hg : (m.filter p).get k with
    | none => rfl
    | some v =>
      have hmem := mem_filter.mp ((mem_entries_iff _ k v).mpr hg)
      have hget := (mem_entries_iff m k v).mp hmem.1
      have hp : p k v = true := hmem.2
      simp [hget, hp] at hk

theorem get_delete (k k' : κ) :
    (m.delete k).get k' = if k = k' then none else m.get k' := by
  rw [delete, get_filter]
  by_cases h : k = k'
  · subst h
    cases m.get k <;> simp
  · have h' : (k' != k) = true := by simpa using fun he : k' = k => h he.symm
    cases m.get k' <;> simp [h, h']

@[simp] theorem get_delete_self (k : κ) : (m.delete k).get k = none := by
  simp [get_delete]

theorem get_delete_ne {k' : κ} (h : k ≠ k') :
    (m.delete k).get k' = m.get k' := by
  simp [get_delete, h]

theorem get_mapValues (f : κ → α → α) (k : κ) :
    (m.mapValues f).get k = (m.get k).map (f k) := by
  cases hg : m.get k with
  | some v =>
    have hmem := (mem_entries_iff m k v).mpr hg
    rw [Option.map_some, ← mem_entries_iff]
    exact mem_map.mpr ⟨(k, v), hmem, rfl⟩
  | none =>
    cases hg' : (m.mapValues f).get k with
    | none => rfl
    | some w =>
      obtain ⟨⟨k', v⟩, hmem, heq⟩ := mem_map.mp ((mem_entries_iff _ k w).mpr hg')
      simp only [Prod.mk.injEq] at heq
      rw [heq.1] at hmem
      rw [(mem_entries_iff m k v).mp hmem] at hg
      cases hg

theorem set_of_get {m : JsMap κ α} (h : m.get k = some v) : m.set k v = m :=
  ext (upsert_of_lookup h)

theorem set_eq_mapValues {m : JsMap κ α} (h : m.get k = some v) (f : α → α) :
    m.set k (f v) = m.mapValues fun k' v' => if k' = k then f v' else v' := by
  have hupsert : ∀ l : List (κ × α), (l.map Prod.fst).Nodup → lookup k l = some v →
      upsert k (f v) l = l.map fun e => (e.1, if e.1 = k then f e.2 else e.2) := by
    intro l
    induction l with
    | nil => exact fun _ hl => by cases hl
    | cons e l ih =>
      intro hnd hl
      simp only [map_cons, nodup_cons] at hnd
      simp only [lookup] at hl
      simp only [upsert, map_cons]
      split at hl
      · -- The key is at the head, so the rest has other keys.
        rename_i hk
        cases hl
        have hrest : l.map (fun e => (e.1, if e.1 = k then f e.2 else e.2)) = l := by
          conv_rhs => rw [← map_id l]
          apply map_congr_left
          intro e' he'
          have hne : e'.1 ≠ k := by
            intro heq
            apply hnd.1
            rw [hk, ← heq]
            exact mem_map_of_mem he'
          simp [hne]
        rw [if_pos hk, if_pos hk, hrest, hk]
      · rename_i hk
        rw [if_neg hk, if_neg hk, ih hnd.2 hl]
  exact ext (hupsert m.entries m.nodup h)

theorem set_set (k : κ) (v v' : α) : (m.set k v).set k v' = m.set k v' := by
  have hupsert : ∀ l : List (κ × α), upsert k v' (upsert k v l) = upsert k v' l := by
    intro l
    induction l with
    | nil => simp [upsert]
    | cons e l ih =>
      simp only [upsert]
      split
      · simp [upsert]
      · rename_i hk
        simp only [upsert, if_neg hk, ih]
  exact ext (hupsert m.entries)

theorem mem_keys_iff (k : κ) : k ∈ m.keys ↔ (m.get k).isSome := by
  rw [keys, ← not_iff_not, ← lookup_eq_none_iff]
  simp [get]

theorem mem_values_iff (v : α) : v ∈ m.values ↔ ∃ k, m.get k = some v := by
  constructor
  · intro h
    obtain ⟨⟨k, v'⟩, hmem, rfl⟩ := mem_map.mp h
    exact ⟨k, (mem_entries_iff m k v').mp hmem⟩
  · rintro ⟨k, hk⟩
    exact mem_map.mpr ⟨(k, v), (mem_entries_iff m k v).mpr hk, rfl⟩

/-! ## Parts of a map -/

section Restrict

variable {p : κ → Bool} {k : κ}

theorem push_eq_set (m : JsMap κ (List α)) (k : κ) (v : α) :
    m.push k v = m.set k ((m.get k).getD [] ++ [v]) := rfl

theorem get_restrict (m : JsMap κ α) (h : p k = true) : (m.restrict p).get k = m.get k := by
  rw [restrict, get_filter]
  cases m.get k <;> simp [h]

theorem has_restrict (m : JsMap κ α) (h : p k = true) : (m.restrict p).has k = m.has k := by
  rw [has, has, get_restrict m h]

private theorem filter_upsert_of_pos (v : α) (l : List (κ × α)) (h : p k = true) :
    (upsert k v l).filter (fun e => p e.1) = upsert k v (l.filter fun e => p e.1) := by
  induction l with
  | nil => simp [upsert, h]
  | cons e rest ih =>
    obtain ⟨k', v'⟩ := e
    by_cases hk : k' = k
    · subst hk
      simp [upsert, h]
    · cases hp : p k' <;> simp [upsert, hk, hp, ih]

private theorem filter_upsert_of_neg (v : α) (l : List (κ × α)) (h : p k = false) :
    (upsert k v l).filter (fun e => p e.1) = l.filter fun e => p e.1 := by
  induction l with
  | nil => simp [upsert, h]
  | cons e rest ih =>
    obtain ⟨k', v'⟩ := e
    by_cases hk : k' = k
    · subst hk
      simp [upsert, h]
    · cases hp : p k' <;> simp [upsert, hk, hp, ih]

theorem foldl_delete (keys : List κ) (m : JsMap κ α) :
    keys.foldl (fun m key => m.delete key) m = m.restrict fun k => decide (k ∉ keys) := by
  induction keys generalizing m with
  | nil =>
    apply ext
    simp [restrict, filter]
  | cons key rest ih =>
    rw [foldl_cons, ih]
    apply ext
    simp only [restrict, delete, filter, filter_filter]
    apply filter_congr
    intro e _
    by_cases he : e.1 = key <;> simp [he]

theorem get_foldl_delete (keys : List κ) (m : JsMap κ α) (k : κ) :
    (keys.foldl (fun m key => m.delete key) m).get k = if k ∈ keys then none else m.get k := by
  rw [foldl_delete, restrict, get_filter]
  by_cases hk : k ∈ keys
  · cases m.get k <;> simp [hk]
  · cases m.get k <;> simp [hk]

/-- Each key is set to its own value. -/
theorem get_foldl_set (key : β → κ) (f : κ → α) (items : List β) (m : JsMap κ α) (k : κ) :
    (items.foldl (fun m b => m.set (key b) (f (key b))) m).get k =
      if k ∈ items.map key then some (f k) else m.get k := by
  induction items generalizing m with
  | nil => simp
  | cons b items ih =>
    rw [foldl_cons, ih, get_set]
    by_cases hb : key b = k
    · simp [hb]
    · simp [hb, Ne.symm hb]

theorem get_foldl_set_eq_some_iff (key : α → κ) (items : List α) (m : JsMap κ α)
    (hinj : ∀ a ∈ items, ∀ b ∈ items, key a = key b → a = b) (k : κ) (a : α) :
    (items.foldl (fun m a => m.set (key a) a) m).get k = some a ↔
      (a ∈ items ∧ key a = k) ∨ (k ∉ items.map key ∧ m.get k = some a) := by
  induction items generalizing m with
  | nil => simp
  | cons b rest ih =>
    have hrest : ∀ a ∈ rest, ∀ b ∈ rest, key a = key b → a = b := fun a ha b hb =>
      hinj a (mem_cons_of_mem _ ha) b (mem_cons_of_mem _ hb)
    rw [foldl_cons, ih _ hrest, get_set]
    by_cases hk : key b = k
    · -- what is entered at this key later is `b` again
      subst hk
      have hlater : key b ∈ rest.map key → b ∈ rest := by
        intro hmem
        obtain ⟨c, hc, hkey⟩ := mem_map.mp hmem
        exact hinj c (mem_cons_of_mem _ hc) b mem_cons_self hkey ▸ hc
      have hself : a ∈ rest → key a = key b → a = b := fun ha =>
        hinj a (mem_cons_of_mem _ ha) b mem_cons_self
      simp only [if_true, Option.some.injEq, mem_cons, map_cons, true_or,
        not_true_eq_false, false_and, or_false]
      grind
    · simp only [hk, if_false, mem_cons, map_cons, not_or, Ne.symm hk,
        not_false_eq_true, true_and]
      grind

theorem restrict_set (m : JsMap κ α) (v : α) (h : p k = true) :
    (m.set k v).restrict p = (m.restrict p).set k v :=
  ext (filter_upsert_of_pos v m.entries h)

theorem restrict_set_outside (m : JsMap κ α) (v : α) (h : p k = false) :
    (m.set k v).restrict p = m.restrict p :=
  ext (filter_upsert_of_neg v m.entries h)

omit [DecidableEq κ] in
theorem filter_filter_comm (m : JsMap κ α) (q r : κ → α → Bool) :
    (m.filter q).filter r = (m.filter r).filter q := by
  apply ext
  simp only [filter, filter_filter]
  congr 1
  funext e
  exact Bool.and_comm _ _

theorem restrict_delete (m : JsMap κ α) (k : κ) :
    (m.delete k).restrict p = (m.restrict p).delete k :=
  filter_filter_comm m _ _

theorem restrict_delete_outside (m : JsMap κ α) (h : p k = false) :
    (m.delete k).restrict p = m.restrict p := by
  apply ext
  simp only [restrict, delete, filter, filter_filter]
  apply filter_congr
  intro e _
  by_cases he : e.1 = k
  · simp [he, h]
  · simp [he]

variable {v : α} {m : JsMap κ α} {q : κ → α → Bool}

theorem upsert_of_lookup_none {l : List (κ × α)} (h : lookup k l = none) :
    upsert k v l = l ++ [(k, v)] := by
  induction l with
  | nil => rfl
  | cons e rest ih =>
    obtain ⟨k', v'⟩ := e
    simp only [lookup] at h
    split at h
    · exact nomatch h
    · rename_i hk
      simp [upsert, hk, ih h]

theorem filter_set (hnone : m.get k = none)
    (h : q k v = true) : (m.set k v).filter q = (m.filter q).set k v := by
  have hfiltered : (m.filter q).get k = none := by
    rw [get_filter, hnone]
    rfl
  apply ext
  show (upsert k v m.entries).filter (fun e => q e.1 e.2) = upsert k v (m.filter q).entries
  rw [upsert_of_lookup_none hnone, upsert_of_lookup_none hfiltered]
  simp [filter, h]

theorem filter_set_outside (hnone : m.get k = none)
    (h : q k v = false) : (m.set k v).filter q = m.filter q := by
  apply ext
  simp only [set, filter]
  rw [upsert_of_lookup_none hnone]
  simp [h]

theorem filter_delete_outside
    (h : ∀ v, m.get k = some v → q k v = false) : (m.delete k).filter q = m.filter q := by
  apply ext
  simp only [delete, filter, filter_filter]
  apply filter_congr
  intro e he
  by_cases hk : e.1 = k
  · subst hk
    simp [h e.2 ((mem_entries_iff m _ _).mp he)]
  · simp [hk]

theorem restrict_push (m : JsMap κ (List α)) (v : α) (h : p k = true) :
    (m.push k v).restrict p = (m.restrict p).push k v := by
  rw [push_eq_set, push_eq_set, restrict_set _ _ h, get_restrict m h]

theorem restrict_push_outside (m : JsMap κ (List α)) (v : α) (h : p k = false) :
    (m.push k v).restrict p = m.restrict p := by
  rw [push_eq_set, restrict_set_outside _ _ h]

theorem restrict_filterAt (m : JsMap κ (List α)) (q : α → Bool) (h : p k = true) :
    (m.filterAt k q).restrict p = (m.restrict p).filterAt k q := by
  unfold filterAt
  rw [get_restrict m h]
  cases m.get k with
  | none => rfl
  | some l => exact restrict_set m _ h

theorem restrict_filterAt_outside (m : JsMap κ (List α)) (q : α → Bool) (h : p k = false) :
    (m.filterAt k q).restrict p = m.restrict p := by
  unfold filterAt
  cases m.get k with
  | none => rfl
  | some l => exact restrict_set_outside m _ h

end Restrict

/-! ## Size -/

omit [DecidableEq κ] in
@[simp] theorem length_keys : m.keys.length = m.size := by
  simp [keys, size]

theorem size_set_of_none {m : JsMap κ α} (v : α) (h : m.get k = none) :
    (m.set k v).size = m.size + 1 := by
  have hkey : k ∉ m.entries.map Prod.fst := (lookup_eq_none_iff k m.entries).mp h
  have hkeys := congrArg List.length (keys_upsert k v m.entries)
  simpa [hkey, size, set] using hkeys

theorem size_delete_of_get {m : JsMap κ α} (h : m.get k = some v) :
    (m.delete k).size + 1 = m.size := by
  have hnot : k ∉ (m.delete k).keys := by simp [mem_keys_iff]
  have hperm : (k :: (m.delete k).keys).Perm m.keys := by
    apply (perm_ext_iff_of_nodup (nodup_cons.mpr ⟨hnot, (m.delete k).nodup⟩)
      m.nodup).mpr
    intro k'
    show k' ∈ k :: (m.delete k).keys ↔ k' ∈ m.keys
    by_cases hk : k = k'
    · subst hk
      simp [mem_keys_iff, h]
    · simp [mem_keys_iff, get_delete_ne m hk, Ne.symm hk]
  simpa using hperm.length_eq

theorem size_eq_of_isSome {m : JsMap κ α} {m' : JsMap κ β}
    (h : ∀ k, (m.get k).isSome = (m'.get k).isSome) : m.size = m'.size := by
  have hperm : m.keys.Perm m'.keys := by
    refine (perm_ext_iff_of_nodup m.nodup m'.nodup).mpr fun k => ?_
    rw [← keys, ← keys, mem_keys_iff, mem_keys_iff, h]
  rw [← length_keys, ← length_keys, hperm.length_eq]

omit [DecidableEq κ] in
theorem keys_filter_sublist (p : κ → α → Bool) :
    (m.filter p).keys.Sublist m.keys :=
  filter_sublist.map fst

omit [DecidableEq κ] in
theorem size_filter_le (p : κ → α → Bool) : (m.filter p).size ≤ m.size :=
  length_filter_le _ _

theorem length_le_size {m : JsMap κ α} {ks : List κ} (hnd : ks.Nodup)
    (h : ∀ k ∈ ks, (m.get k).isSome) : ks.length ≤ m.size := by
  rw [← length_keys]
  exact hnd.length_le_of_subset fun k hk => (mem_keys_iff m k).mpr (h k hk)

theorem keys_set_of_get {m : JsMap κ α} {old : α} (h : m.get k = some old) (v : α) :
    (m.set k v).keys = m.keys := by
  have hkey : k ∈ m.entries.map fst := (mem_keys_iff m k).mpr (by simp [h])
  have hkeys := keys_upsert k v m.entries
  rw [if_pos hkey] at hkeys
  exact hkeys

theorem size_set_le (k : κ) (v : α) :
    (m.set k v).size ≤ m.size + 1 ∧ (m.has k = true → (m.set k v).size = m.size) := by
  cases hget : m.get k with
  | none =>
    rw [size_set_of_none v hget]
    refine ⟨Nat.le_refl _, fun hhas => ?_⟩
    rw [has, hget] at hhas
    exact nomatch hhas
  | some old =>
    have hsize : (m.set k v).size = m.size := by
      rw [← length_keys, keys_set_of_get hget, length_keys]
    exact ⟨hsize ▸ Nat.le_succ _, fun _ => hsize⟩

theorem not_mem_keys_delete (k : κ) : k ∉ (m.delete k).keys := by
  intro hmem
  rw [mem_keys_iff, get_delete_self] at hmem
  exact nomatch hmem

omit [DecidableEq κ] in
theorem keys_mapValues (f : κ → α → α) : (m.mapValues f).keys = m.keys := by
  simp [keys, mapValues, comp_def]

theorem keys_set_of_none {m : JsMap κ α} (h : m.get k = none) (v : α) :
    (m.set k v).keys = m.keys ++ [k] := by
  have hkey : k ∉ m.entries.map fst := (lookup_eq_none_iff k m.entries).mp h
  have hkeys := keys_upsert k v m.entries
  rw [if_neg hkey] at hkeys
  exact hkeys

theorem entries_foldl_set (key : β → κ) (value : β → α) {items : List β}
    {m : JsMap κ α} (h : (m.keys ++ items.map key).Nodup) :
    (items.foldl (fun m b => m.set (key b) (value b)) m).entries =
      m.entries ++ items.map fun b => (key b, value b) := by
  induction items generalizing m with
  | nil => exact (append_nil _).symm
  | cons b items ih =>
    have hnone : m.get (key b) = none := by
      rw [get, lookup_eq_none_iff]
      exact fun hmem => (nodup_append.mp h).2.2 _ hmem _ mem_cons_self rfl
    rw [foldl_cons, ih (by rw [keys_set_of_none hnone, append_assoc]; exact h)]
    show upsert (key b) (value b) m.entries ++ _ = _
    rw [upsert_of_lookup_none hnone, append_assoc]
    rfl

theorem foldl_entries_set :
    m.entries.foldl (fun m e => m.set e.1 e.2) empty = m :=
  ext ((entries_foldl_set fst snd (m := empty) m.nodup).trans (map_id _))

omit [DecidableEq κ] in
theorem ext_keys_values {m m' : JsMap κ α} (hkeys : m.keys = m'.keys)
    (hvalues : m.values = m'.values) : m = m' := by
  have hzip : ∀ entries : List (κ × α),
      (entries.map fst).zip (entries.map snd) = entries := by
    intro entries
    rw [zip_map']
    exact map_id entries
  apply ext
  rw [← hzip m.entries, ← hzip m'.entries]
  exact congrArg₂ List.zip hkeys hvalues

theorem values_map_some : m.values.map some = m.keys.map m.get := by
  rw [values, keys, map_map, map_map]
  apply map_congr_left
  intro e he
  exact ((mem_entries_iff m e.1 e.2).mp he).symm

theorem ext_keys_get {m m' : JsMap κ α} (hkeys : m.keys = m'.keys)
    (hget : ∀ k, m.get k = m'.get k) : m = m' := by
  apply ext_keys_values hkeys
  apply map_injective_iff.mpr fun _ _ => Option.some.inj
  rw [values_map_some, values_map_some, hkeys]
  exact map_congr_left fun k _ => hget k

/-! ## Counting values -/

theorem countP_values_set {m : JsMap κ α} {old : α} (h : m.get k = some old) (v : α)
    (p : α → Bool) :
    (m.set k v).values.countP p + (if p old then 1 else 0) =
      m.values.countP p + if p v then 1 else 0 := by
  have hupsert : ∀ l : List (κ × α), lookup k l = some old →
      ((upsert k v l).map snd).countP p + (if p old then 1 else 0) =
        (l.map snd).countP p + if p v then 1 else 0 := by
    intro l
    induction l with
    | nil => exact fun hl => nomatch hl
    | cons e rest ih =>
      obtain ⟨k', v'⟩ := e
      intro hl
      simp only [lookup] at hl
      simp only [upsert]
      split at hl
      · rename_i hk
        cases hl
        rw [if_pos hk, map_cons, map_cons, countP_cons, countP_cons]
        show _ + (if p v then 1 else 0) + (if p old then 1 else 0) =
          _ + (if p old then 1 else 0) + (if p v then 1 else 0)
        omega
      · rename_i hk
        have hrest := ih hl
        rw [if_neg hk, map_cons, map_cons, countP_cons, countP_cons]
        simp only
        omega
  exact hupsert m.entries h

theorem countP_values_le {m m' : JsMap κ α} {p : α → Bool}
    (h : ∀ k v, m'.get k = some v → p v = true → ∃ w, m.get k = some w ∧ p w = true) :
    m'.values.countP p ≤ m.values.countP p := by
  have hcount : ∀ m : JsMap κ α,
      m.values.countP p = ((m.entries.filter fun e => p e.2).map fst).length := by
    intro m
    rw [length_map, ← countP_eq_length_filter, values, countP_map]
    rfl
  rw [hcount, hcount]
  apply List.Nodup.length_le_of_subset ((filter_sublist.map fst).nodup m'.nodup)
  intro k hk
  obtain ⟨⟨k', v⟩, hmem, rfl⟩ := mem_map.mp hk
  obtain ⟨hentry, hp⟩ := mem_filter.mp hmem
  obtain ⟨w, hget, hw⟩ := h k' v ((mem_entries_iff m' k' v).mp hentry) hp
  exact mem_map.mpr
    ⟨(k', w), mem_filter.mpr ⟨(mem_entries_iff m k' w).mpr hget, hw⟩, rfl⟩

/-! ## Values of another type -/

section Map

variable {β : Type}

/-- The same keys with other values. -/
def map (f : α → β) (m : JsMap κ α) : JsMap κ β :=
  ⟨m.entries.map fun e => (e.1, f e.2), by
    simpa [map_map, comp_def] using m.nodup⟩

variable (f : α → β)

theorem lookup_map (k : κ) (l : List (κ × α)) :
    lookup k (l.map fun e => (e.1, f e.2)) = (lookup k l).map f := by
  induction l with
  | nil => rfl
  | cons e l ih =>
    simp only [map_cons, lookup, ih]
    split <;> rfl

theorem get_map (m : JsMap κ α) (k : κ) : (m.map f).get k = (m.get k).map f :=
  lookup_map f k m.entries

theorem map_set (m : JsMap κ α) (k : κ) (v : α) :
    (m.set k v).map f = (m.map f).set k (f v) := by
  have hupsert : ∀ l : List (κ × α), (upsert k v l).map (fun e => (e.1, f e.2)) =
      upsert k (f v) (l.map fun e => (e.1, f e.2)) := by
    intro l
    induction l with
    | nil => rfl
    | cons e l ih =>
      simp only [upsert, map_cons]
      split
      · rfl
      · rw [map_cons, ih]
  exact ext (hupsert m.entries)

theorem map_delete (m : JsMap κ α) (k : κ) :
    (m.delete k).map f = (m.map f).delete k := by
  apply ext
  simp [map, delete, filter, filter_map, comp_def]

omit [DecidableEq κ] in
theorem map_mapValues (m : JsMap κ α) (g : κ → α → α) (g' : κ → β → β)
    (h : ∀ k v, f (g k v) = g' k (f v)) : (m.mapValues g).map f = (m.map f).mapValues g' := by
  apply ext
  simp [map, mapValues, h]

theorem map_congr {f g : α → β} {m : JsMap κ α} (h : ∀ k v, m.get k = some v → f v = g v) :
    m.map f = m.map g := by
  apply ext
  apply map_congr_left
  intro e he
  rw [h e.1 e.2 ((mem_entries_iff m e.1 e.2).mp he)]

theorem set_map_congr {f g : α → β} {m : JsMap κ α} {k : κ}
    (h : ∀ k' v, k' ≠ k → m.get k' = some v → f v = g v) (b : β) :
    (m.map f).set k b = (m.map g).set k b := by
  have hupsert : ∀ l : List (κ × α), (l.map fst).Nodup →
      (∀ e ∈ l, e.1 ≠ k → f e.2 = g e.2) →
      upsert k b (l.map fun e => (e.1, f e.2)) = upsert k b (l.map fun e => (e.1, g e.2)) := by
    intro l
    induction l with
    | nil => exact fun _ _ => rfl
    | cons e l ih =>
      intro hnd hsame
      simp only [map_cons, nodup_cons] at hnd
      simp only [map_cons, upsert]
      split
      · -- The key is at the head, so the rest has other keys.
        rename_i hk
        congr 1
        apply map_congr_left
        intro e' he'
        have hne : e'.1 ≠ k := by
          intro heq
          apply hnd.1
          rw [hk, ← heq]
          exact mem_map_of_mem he'
        rw [hsame e' (mem_cons_of_mem _ he') hne]
      · rename_i hk
        rw [hsame e mem_cons_self hk,
          ih hnd.2 fun e' he' => hsame e' (mem_cons_of_mem _ he')]
  apply ext
  apply hupsert m.entries m.nodup
  intro e he hne
  exact h e.1 e.2 hne ((mem_entries_iff m e.1 e.2).mp he)

end Map

end JsMap
