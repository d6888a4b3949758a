import Promin.Shared.CacheStore
import Mathlib.Data.List.MinMax

/-!
# The cache against a cache with stamps

The reference stamps each entry with the call that last used it, and makes room
by dropping the least stamp. The code keeps no stamps: the order of its `Map`
stands for them.
-/

namespace Promin.Shared

open Option Machine MemoryCache

open JsMap hiding get_filter
open List hiding all_eq_true

variable {κ α : Type} [DecidableEq κ]

/-! ## The reference -/

/-- An entry with the number of the call that last used it. -/
structure StampedEntry (α : Type) where
  entry : MemoryCacheEntry α
  usedAt : Nat

structure StampedCache (κ α : Type) where
  entries : JsMap κ (StampedEntry α)
  now : Int
  calls : Nat

namespace StampedCache

def new (now : Int) : StampedCache κ α where
  entries := JsMap.empty
  now := now
  calls := 0

/-- The key whose last use is longest ago. -/
def leastUsed (c : StampedCache κ α) : Option κ :=
  (c.entries.entries.argmin fun e => e.2.usedAt).map Prod.fst

def use (c : StampedCache κ α) (key : κ) (entry : MemoryCacheEntry α) : StampedCache κ α :=
  { c with entries := c.entries.set key { entry := entry, usedAt := c.calls } }

/-- A read counts as a use. -/
def get (c : StampedCache κ α) (key : κ) : StampedCache κ α × CacheAnswer κ α :=
  match c.entries.get key with
  | none => (c, .value none)
  | some e =>
    if expired c.now e.entry then
      ({ c with entries := c.entries.delete key }, .value none)
    else (c.use key e.entry, .value (some e.entry.value))

def set (config : MemoryCacheConfig) (c : StampedCache κ α) (key : κ) (value : α)
    (ttlMs : Option Int) : StampedCache κ α × CacheAnswer κ α :=
  let entry := { value := value, expiresAt := c.now + ttlMs.getD config.ttlMs }
  if atCapacity config c.entries.size && !c.entries.has key then
    match c.leastUsed with
    | none => (c.use key entry, .set none)
    | some k => ({ c with entries := c.entries.delete k }.use key entry, .set (some k))
  else (c.use key entry, .set none)

/-- Asking for a key is no use of it. -/
def has (c : StampedCache κ α) (key : κ) : StampedCache κ α × CacheAnswer κ α :=
  match c.entries.get key with
  | none => (c, .has false)
  | some e =>
    if expired c.now e.entry then
      ({ c with entries := c.entries.delete key }, .has false)
    else (c, .has true)

/-- Drops what has expired and counts the rest. -/
def size (c : StampedCache κ α) : StampedCache κ α × CacheAnswer κ α :=
  let entries := c.entries.filter fun _ e => !expired c.now e.entry
  ({ c with entries := entries }, .size entries.size)

/-- The next call. -/
def tick (r : StampedCache κ α × CacheAnswer κ α) : StampedCache κ α × CacheAnswer κ α :=
  ({ r.1 with calls := r.1.calls + 1 }, r.2)

end StampedCache

/-- The reference: every entry keeps the number of the call that used it last. -/
def stampedCache (config : MemoryCacheConfig) :
    Machine (StampedCache κ α) (CacheOp κ α) (CacheAnswer κ α) where
  step c o := StampedCache.tick <| match o with
    | .advance ms => ({ c with now := c.now + ms }, .none)
    | .get key => c.get key
    | .set key value ttlMs => c.set config key value ttlMs
    | .delete key => ({ c with entries := c.entries.delete key }, .none)
    | .has key => c.has key
    | .clear => ({ c with entries := JsMap.empty }, .none)
    | .size => c.size

/-! ## Agreement -/

/-- The last use of a key. -/
def StampedCache.usedAt (r : StampedCache κ α) (k : κ) : Nat :=
  ((r.entries.get k).map (·.usedAt)).getD 0

structure InOrder (c : MemoryCache κ α) (r : StampedCache κ α) : Prop where
  now : c.now = r.now
  entries : ∀ k, c.entries.get k = (r.entries.get k).map (·.entry)
  order : c.entries.keys.Pairwise fun a b => r.usedAt a < r.usedAt b
  /-- Every use is before the next call. -/
  used : ∀ k e, r.entries.get k = some e → e.usedAt < r.calls

variable {c : MemoryCache κ α} {r : StampedCache κ α}

section

variable (h : InOrder c r)
include h

theorem InOrder.size : c.entries.size = r.entries.size := by
  apply size_eq_of_isSome
  intro k
  rw [h.entries, isSome_map]

theorem InOrder.has (k : κ) : c.entries.has k = r.entries.has k := by
  simp only [JsMap.has, h.entries, isSome_map]

theorem InOrder.leastUsed : r.leastUsed = c.entries.keys.head? := by
  unfold StampedCache.leastUsed
  cases hmin : r.entries.entries.argmin fun e => e.2.usedAt with
  | none =>
    have hempty : r.entries.entries = [] := argmin_eq_none.mp hmin
    have hsize : c.entries.keys.length = 0 := by
      rw [length_keys, h.size]
      simp [JsMap.size, hempty]
    rw [length_eq_zero_iff.mp hsize]
    rfl
  | some e =>
    obtain ⟨k, e⟩ := e
    have hget : r.entries.get k = some e :=
      (mem_entries_iff _ _ _).mp (argmin_mem hmin)
    have hmem : k ∈ c.entries.keys := by
      rw [mem_keys_iff, h.entries, hget]
      rfl
    have horder := h.order
    cases hkeys : c.entries.keys with
    | nil =>
      rw [hkeys] at hmem
      cases hmem
    | cons first rest =>
      rw [hkeys, pairwise_cons] at horder
      rw [hkeys] at hmem
      rcases mem_cons.mp hmem with rfl | hrest
      · rfl
      · -- Were the first key another one, its stamp would be less than the least.
        have hlt := horder.1 k hrest
        have hfirst : first ∈ c.entries.keys := by
          rw [hkeys]
          exact mem_cons_self
        rw [mem_keys_iff, h.entries, isSome_map] at hfirst
        obtain ⟨e', he'⟩ := isSome_iff_exists.mp hfirst
        have hnot := not_lt_of_mem_argmin ((mem_entries_iff _ _ _).mpr he') hmin
        simp only [StampedCache.usedAt, hget, he', map_some, getD_some] at hlt
        exact absurd hlt hnot

theorem InOrder.sublist {entries : JsMap κ (MemoryCacheEntry α)}
    {entries' : JsMap κ (StampedEntry α)}
    (hsame : ∀ k, entries.get k = (entries'.get k).map (·.entry))
    (hkept : ∀ k e, entries'.get k = some e → r.entries.get k = some e)
    (hkeys : entries.keys.Sublist c.entries.keys) :
    InOrder { c with entries := entries } { r with entries := entries' } where
  now := h.now
  entries := hsame
  order := by
    refine (h.order.sublist hkeys).imp_of_mem fun {a b} ha hb hlt => ?_
    have hused : ∀ k ∈ entries.keys,
        StampedCache.usedAt { r with entries := entries' } k = r.usedAt k := by
      intro k hk
      rw [mem_keys_iff, hsame, isSome_map] at hk
      obtain ⟨e, he⟩ := isSome_iff_exists.mp hk
      simp only [StampedCache.usedAt, he, hkept k e he]
    rw [hused a ha, hused b hb]
    exact hlt
  used := fun k e he => h.used k e (hkept k e he)

theorem InOrder.delete (key : κ) :
    InOrder { c with entries := c.entries.delete key }
      { r with entries := r.entries.delete key } := by
  refine h.sublist ?_ ?_ (keys_filter_sublist _ _)
  · intro k
    rw [get_delete, get_delete]
    split
    · rfl
    · exact h.entries k
  · intro k e he
    rw [get_delete] at he
    split at he
    · cases he
    · exact he

theorem InOrder.tick : InOrder c { r with calls := r.calls + 1 } where
  now := h.now
  entries := h.entries
  order := h.order
  used := fun k e he => Nat.lt_succ_of_lt (h.used k e he)

theorem InOrder.use {entries : JsMap κ (MemoryCacheEntry α)} {before : List κ}
    (key : κ) (entry : MemoryCacheEntry α)
    (hget : ∀ k, entries.get k = if key = k then some entry else c.entries.get k)
    (hkeys : entries.keys = before ++ [key]) (hbefore : before.Sublist c.entries.keys)
    (hnew : key ∉ before) :
    InOrder { c with entries := entries }
      { r.use key entry with calls := r.calls + 1 } where
  now := h.now
  entries := by
    intro k
    rw [hget]
    simp only [StampedCache.use, get_set]
    split
    · rfl
    · exact h.entries k
  order := by
    have hused : ∀ k, k ≠ key →
        StampedCache.usedAt { r.use key entry with calls := r.calls + 1 } k =
        r.usedAt k := by
      intro k hk
      simp only [StampedCache.usedAt, StampedCache.use, get_set_ne _ _ (Ne.symm hk)]
    have hself :
        StampedCache.usedAt { r.use key entry with calls := r.calls + 1 } key = r.calls := by
      simp only [StampedCache.usedAt, StampedCache.use, get_set_self, map_some,
        getD_some]
    simp only [hkeys]
    rw [pairwise_append]
    refine ⟨?_, pairwise_singleton _ _, ?_⟩
    · refine (h.order.sublist hbefore).imp_of_mem fun {a b} ha hb hlt => ?_
      have hane : a ≠ key := fun heq => hnew (heq ▸ ha)
      have hbne : b ≠ key := fun heq => hnew (heq ▸ hb)
      rw [hused a hane, hused b hbne]
      exact hlt
    · intro a ha b hb
      rw [mem_singleton.mp hb, hself]
      have hane : a ≠ key := fun heq => hnew (heq ▸ ha)
      rw [hused a hane]
      have hstored := (mem_keys_iff _ _).mp (hbefore.subset ha)
      rw [h.entries, isSome_map] at hstored
      obtain ⟨e, he⟩ := isSome_iff_exists.mp hstored
      simp only [StampedCache.usedAt, he, map_some, getD_some]
      exact h.used a e he
  used := by
    intro k e he
    simp only [StampedCache.use, get_set] at he
    split at he
    · cases he
      exact Nat.lt_succ_self _
    · exact Nat.lt_succ_of_lt (h.used k e he)

end

/-- The steps on which the order of the map tells the last uses: a `set` of a stored key finds
    it last, and room is not made by the key `undefined`. -/
def keepsOrder (isUndefined : κ → Bool) (config : MemoryCacheConfig) (c : MemoryCache κ α) :
    CacheOp κ α → Bool
  | .set key _ _ =>
    if c.entries.has key then c.entries.keys.getLast? == some key
    else !atCapacity config c.entries.size ||
      c.entries.keys.head?.all fun k => !isUndefined k
  | .advance _ | .get _ | .delete _ | .has _ | .clear | .size => true

variable {isUndefined : κ → Bool} {config : MemoryCacheConfig}

section

variable (h : InOrder c r)
include h

private theorem get_inOrder (key : κ) :
    (c.get key).2 = (r.get key).2 ∧ InOrder (c.get key).1 (StampedCache.tick (r.get key)).1 := by
  have hentry := h.entries key
  unfold MemoryCache.get StampedCache.get StampedCache.tick
  cases hr : r.entries.get key with
  | none =>
    simp only [hr, map_none] at hentry
    simp only [hentry]
    exact ⟨trivial, h.tick⟩
  | some e =>
    simp only [hr, map_some] at hentry
    simp only [hentry, h.now]
    split
    · have hdelete := (h.delete key).tick
      rw [h.now] at hdelete
      exact ⟨rfl, hdelete⟩
    · refine ⟨rfl, ?_⟩
      have hnone : (c.entries.delete key).get key = none := get_delete_self _ _
      rw [← h.now]
      exact h.use key e.entry (fun k => by rw [get_set, get_delete]; split <;> rfl)
        (keys_set_of_none hnone e.entry) (keys_filter_sublist _ _)
        (not_mem_keys_delete _ _)

private theorem set_stored_inOrder {key : κ} (entry : MemoryCacheEntry α)
    (hstored : c.entries.has key = true) (hlast : c.entries.keys.getLast? = some key) :
    InOrder { c with entries := c.entries.set key entry }
      { r.use key entry with calls := r.calls + 1 } := by
  obtain ⟨old, hold⟩ := isSome_iff_exists.mp hstored
  have hkeys : c.entries.keys = c.entries.keys.dropLast ++ [key] :=
    (dropLast_append_getLast? key hlast).symm
  have hnodup : (c.entries.keys.dropLast ++ [key]).Nodup := hkeys ▸ c.entries.nodup
  refine h.use key entry (get_set _ _ · _) ?_ (dropLast_sublist _) ?_
  · rw [keys_set_of_get hold]
    exact hkeys
  · intro hmem
    exact (nodup_append.mp hnodup).2.2 _ hmem _ mem_cons_self rfl

private theorem set_new_inOrder {key : κ} (entry : MemoryCacheEntry α)
    (hnew : c.entries.get key = none) :
    InOrder { c with entries := c.entries.set key entry }
      { r.use key entry with calls := r.calls + 1 } := by
  refine h.use key entry (get_set _ _ · _) (keys_set_of_none hnew entry)
    (List.Sublist.refl _) ?_
  intro hmem
  rw [mem_keys_iff, hnew] at hmem
  exact nomatch hmem

private theorem set_inOrder (key : κ) (value : α) (ttlMs : Option Int)
    (hkeeps : keepsOrder isUndefined config c (.set key value ttlMs) = true) :
    (c.set isUndefined config key value ttlMs).2 = (r.set config key value ttlMs).2 ∧
      InOrder (c.set isUndefined config key value ttlMs).1
        (StampedCache.tick (r.set config key value ttlMs)).1 := by
  simp only [keepsOrder] at hkeeps
  simp only [MemoryCache.set, MemoryCache.oldest, StampedCache.set, StampedCache.tick, h.now,
    ← h.size, ← h.has]
  by_cases hstored : c.entries.has key = true
  · simp only [hstored, ↓reduceIte, beq_iff_eq] at hkeeps
    simp only [hstored, Bool.not_true, Bool.and_false, Bool.false_eq_true, ↓reduceIte]
    have hset := set_stored_inOrder h
      { value := value, expiresAt := r.now + ttlMs.getD config.ttlMs } hstored hkeeps
    rw [h.now] at hset
    exact ⟨trivial, hset⟩
  · have hnew : c.entries.get key = none := by simpa [JsMap.has] using hstored
    simp only [hstored, Bool.false_eq_true, ↓reduceIte, Bool.or_eq_true, Bool.not_eq_true',
      all_eq_true] at hkeeps
    simp only [hstored, Bool.not_false, Bool.and_true]
    by_cases hfull : MemoryCache.atCapacity config c.entries.size = true
    · simp only [hfull, ↓reduceIte, h.leastUsed]
      cases hfirst : c.entries.keys.head? with
      | none =>
        simp only [filter_none]
        have hset := set_new_inOrder h
          { value := value, expiresAt := r.now + ttlMs.getD config.ttlMs } hnew
        rw [h.now] at hset
        exact ⟨trivial, hset⟩
      | some k =>
        have hdefined : isUndefined k = false := by
          rcases hkeeps with hroom | hall
          · rw [hfull] at hroom
            cases hroom
          · simpa using hall k hfirst
        simp only [filter_some, hdefined, Bool.not_false, ↓reduceIte]
        have hdeleted : (c.entries.delete k).get key = none := by
          rw [get_delete, hnew]
          split <;> rfl
        have hset := set_new_inOrder (h.delete k)
          { value := value, expiresAt := r.now + ttlMs.getD config.ttlMs } hdeleted
        rw [h.now] at hset
        exact ⟨trivial, hset⟩
    · simp only [hfull, Bool.false_eq_true, ↓reduceIte]
      have hset := set_new_inOrder h
        { value := value, expiresAt := r.now + ttlMs.getD config.ttlMs } hnew
      rw [h.now] at hset
      exact ⟨trivial, hset⟩

private theorem has_inOrder (key : κ) :
    (c.has key).2 = (r.has key).2 ∧ InOrder (c.has key).1 (StampedCache.tick (r.has key)).1 := by
  have hentry := h.entries key
  unfold MemoryCache.has StampedCache.has StampedCache.tick
  cases hr : r.entries.get key with
  | none =>
    simp only [hr, map_none] at hentry
    simp only [hentry]
    exact ⟨trivial, h.tick⟩
  | some e =>
    simp only [hr, map_some] at hentry
    simp only [hentry, h.now]
    split
    · have hdelete := (h.delete key).tick
      rw [h.now] at hdelete
      exact ⟨rfl, hdelete⟩
    · exact ⟨rfl, h.tick⟩

private theorem size_inOrder :
    c.size.2 = r.size.2 ∧ InOrder c.size.1 (StampedCache.tick r.size).1 := by
  have hsame : ∀ k, (c.entries.filter fun _ e => !expired c.now e).get k =
      ((r.entries.filter fun _ e => !expired r.now e.entry).get k).map (·.entry) := by
    intro k
    rw [JsMap.get_filter, JsMap.get_filter, h.entries, h.now]
    cases r.entries.get k with
    | none => rfl
    | some e =>
      simp only [map_some, filter_some]
      split <;> rfl
  have hpurged : InOrder c.size.1 r.size.1 := by
    refine h.sublist hsame ?_ (keys_filter_sublist _ _)
    intro k e he
    rw [JsMap.get_filter] at he
    exact (filter_eq_some_iff.mp he).1
  refine ⟨?_, hpurged.tick⟩
  exact congrArg CacheAnswer.size
    (size_eq_of_isSome fun k => by rw [hsame, isSome_map])

theorem InOrder.next {o : CacheOp κ α} (hkeeps : keepsOrder isUndefined config c o = true) :
    (memoryCache isUndefined config).out c o = (stampedCache config).out r o ∧
      InOrder ((memoryCache isUndefined config).next c o) ((stampedCache config).next r o) := by
  cases o with
  | advance ms =>
    refine ⟨rfl, ?_⟩
    exact InOrder.tick
      { now := congrArg (· + (ms : Int)) h.now
        entries := h.entries
        order := h.order
        used := h.used }
  | get key => exact get_inOrder h key
  | set key value ttlMs => exact set_inOrder h key value ttlMs hkeeps
  | delete key => exact ⟨rfl, (h.delete key).tick⟩
  | has key => exact has_inOrder h key
  | clear =>
    refine ⟨rfl, InOrder.tick ?_⟩
    exact h.sublist (fun _ => rfl) (fun _ _ he => nomatch he) (nil_sublist _)
  | size => exact size_inOrder h

end

/-! ## The number of entries -/

theorem size_next_le {maxSize : Nat} (hmax : config.maxSize = some maxSize) (hpos : 1 ≤ maxSize)
    {o : CacheOp κ α} (hkeeps : keepsOrder isUndefined config c o = true)
    (h : c.entries.size ≤ maxSize) :
    ((memoryCache isUndefined config).next c o).entries.size ≤ maxSize := by
  cases o with
  | advance ms => exact h
  | get key =>
    simp only [Machine.next, memoryCache, MemoryCache.get]
    cases hget : c.entries.get key with
    | none => exact h
    | some entry =>
      have hdelete := size_delete_of_get hget
      simp only
      split
      · exact (size_filter_le _ _).trans h
      · have hset := (size_set_le (c.entries.delete key) key entry).1
        show ((c.entries.delete key).set key entry).size ≤ maxSize
        omega
  | set key value ttlMs =>
    simp only [keepsOrder] at hkeeps
    simp only [Machine.next, memoryCache, MemoryCache.set, MemoryCache.oldest]
    by_cases hstored : c.entries.has key = true
    · simp only [hstored, Bool.not_true, Bool.and_false, Bool.false_eq_true, ↓reduceIte]
      rw [(size_set_le c.entries key _).2 hstored]
      exact h
    · simp only [hstored, Bool.false_eq_true, ↓reduceIte, Bool.or_eq_true, Bool.not_eq_true',
        all_eq_true] at hkeeps
      simp only [hstored, Bool.not_false, Bool.and_true]
      by_cases hfull : MemoryCache.atCapacity config c.entries.size = true
      · simp only [hfull, ↓reduceIte]
        simp only [atCapacity, hmax, decide_eq_true_eq] at hfull
        cases hfirst : c.entries.keys.head? with
        | none =>
          -- A full cache is not empty.
          have hempty : c.entries.keys.length = 0 := by
            rw [List.head?_eq_none_iff.mp hfirst]
            rfl
          rw [length_keys] at hempty
          omega
        | some k =>
          have hdefined : isUndefined k = false := by
            rcases hkeeps with hroom | hall
            · simp [atCapacity, hmax, hfull] at hroom
            · simpa using hall k hfirst
          have hk : k ∈ c.entries.keys := mem_of_mem_head? hfirst
          obtain ⟨old, hold⟩ := isSome_iff_exists.mp ((mem_keys_iff _ _).mp hk)
          have hdelete := size_delete_of_get hold
          simp only [filter_some, hdefined, Bool.not_false, ↓reduceIte]
          have hset := (size_set_le (c.entries.delete k) key
            { value := value, expiresAt := c.now + ttlMs.getD config.ttlMs }).1
          omega
      · simp only [hfull, Bool.false_eq_true, ↓reduceIte]
        simp only [atCapacity, hmax, decide_eq_true_eq] at hfull
        have hset := (size_set_le c.entries key
          { value := value, expiresAt := c.now + ttlMs.getD config.ttlMs }).1
        omega
  | delete key | size => exact (size_filter_le _ _).trans h
  | has key =>
    simp only [Machine.next, memoryCache, MemoryCache.has]
    cases c.entries.get key with
    | none => exact h
    | some entry =>
      simp only
      split
      · exact (size_filter_le _ _).trans h
      · exact h
  | clear => exact Nat.zero_le _

theorem inOrder_new (now : Int) : InOrder (.new now : MemoryCache κ α) (.new now) where
  now := rfl
  entries := fun _ => rfl
  order := .nil
  used := fun _ _ he => nomatch he

theorem InOrder.outs (h : InOrder c r) {ops : List (CacheOp κ α)}
    (hkeeps : (memoryCache isUndefined config).Always
      (fun c o => keepsOrder isUndefined config c o = true) c ops) :
    (memoryCache isUndefined config).outs c ops = (stampedCache config).outs r ops := by
  induction ops generalizing c r with
  | nil => rfl
  | cons o ops ih =>
    obtain ⟨hout, hnext⟩ := h.next hkeeps.1
    simp only [outs, hout, ih hnext hkeeps.2]

/-- Where no `set` hits a stored key that is not the last of the map, and none makes room with
    the key `undefined`, the cache answers like the reference, evictions included, and never
    holds more than `maxSize` entries. -/
theorem memoryCache_refines (isUndefined : κ → Bool) (config : MemoryCacheConfig) (now : Int)
    (ops : List (CacheOp κ α))
    (h : (memoryCache isUndefined config).Always
      (fun c o => keepsOrder isUndefined config c o = true) (.new now) ops) :
    (memoryCache isUndefined config).outs (.new now) ops =
        (stampedCache config).outs (.new now) ops ∧
      ∀ maxSize, config.maxSize = some maxSize → 1 ≤ maxSize →
        ((memoryCache isUndefined config).run (.new now) ops).entries.size ≤ maxSize := by
  refine ⟨(inOrder_new now).outs h, fun maxSize hmax hpos => ?_⟩
  exact run_induction_always (P := fun c => c.entries.size ≤ maxSize)
    (fun c o hkeeps hc => size_next_le hmax hpos hkeeps hc) h (Nat.zero_le _)

def twoEntries : MemoryCacheConfig where
  ttlMs := 1000
  maxSize := some 2

theorem memoryCache_refines_two :
    (memoryCache (fun (_ : String) => false) twoEntries).outs (.new 0)
        [.set "a" 1 none, .set "b" 2 none, .get "a", .set "c" 3 none, .has "b"] =
      (stampedCache twoEntries).outs (.new 0)
        [.set "a" 1 none, .set "b" 2 none, .get "a", .set "c" 3 none, .has "b"] :=
  (memoryCache_refines _ twoEntries 0 _ (by decide)).1

/-- `a` is set again, and still goes before `b`. -/
theorem memoryCache_counterexample :
    ¬ ∀ (isUndefined : String → Bool) (config : MemoryCacheConfig) (now : Int)
      (ops : List (CacheOp String Nat)),
      (memoryCache isUndefined config).outs (.new now) ops =
        (stampedCache config).outs (.new now) ops := by
  intro h
  have houts := h (fun _ => false) twoEntries 0
    [.set "a" 1 none, .set "b" 2 none, .set "a" 3 none, .set "c" 4 none]
  revert houts
  decide

end Promin.Shared
