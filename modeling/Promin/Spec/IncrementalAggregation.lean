import Promin.Data.IncrementalAggregation
import Promin.Spec.StreamingAgg

/-!
# Incremental aggregation, one call at a time

Batches that are ingested one by one, with the state reloaded in between, make the groups of all
their rows.  The state backend holds these groups, and loading them again gives them back.
-/

namespace Promin.Data

open List JsMap Grouping StreamGroup GroupAccumulator

section Incremental

variable {κ : Type} [DecidableEq κ] [StreamCells κ]

/-! ## Stored groups -/

omit [StreamCells κ] in
theorem fromSerializable_toSerializable (acc : GroupAccumulator κ) :
    fromSerializable (toSerializable acc) = acc := by
  have hdistinct : acc.distinct.keys.foldl (fun set v => set.set v ()) JsMap.empty =
      acc.distinct := by
    rw [JsMap.keys, foldl_map]
    exact foldl_entries_set acc.distinct
  have hfreq := foldl_entries_set acc.freqMap
  simp only [fromSerializable, toSerializable, hdistinct, hfreq]

omit [StreamCells κ] in
theorem load_store (group : StreamGroup κ) : group.store.load = group := by
  have haccs : group.accs.map (fromSerializable ∘ toSerializable) = group.accs :=
    (map_congr_left fun acc _ => fromSerializable_toSerializable acc).trans (map_id _)
  simp only [store, StoredGroup.load, map_map, haccs]

def storeAll (groups : JsMap String (StreamGroup κ)) : AggStateBackend κ :=
  groups.map store

omit [DecidableEq κ] [StreamCells κ] in
theorem keys_storeAll (groups : JsMap String (StreamGroup κ)) :
    (storeAll groups).keys = groups.keys := by
  rw [JsMap.keys, storeAll, JsMap.map, map_map]
  rfl

omit [StreamCells κ] in
theorem load_storeAll (groups : JsMap String (StreamGroup κ)) :
    (storeAll groups).keys.foldl (fun loaded key =>
      takeOver loaded key ((storeAll groups).get key)) JsMap.empty = groups := by
  rw [keys_storeAll, JsMap.keys, foldl_map]
  refine Eq.trans ?_ (foldl_entries_set groups)
  apply foldl_ext
  intro loaded e he
  have hget : groups.get e.1 = some e.2 := (mem_entries_iff groups e.1 e.2).mp he
  rw [storeAll, get_map, hget]
  show loaded.set e.1 e.2.store.load = _
  rw [load_store]

/-! ## Batches -/

variable (config : IncrementalAggregationConfig κ)

theorem addRows_append (groups : JsMap String (StreamGroup κ)) (a b : List (Row κ)) :
    addRows config groups (a ++ b) = addRows config (addRows config groups a) b :=
  foldl_append

theorem get_addRows_of_forall {groups : JsMap String (StreamGroup κ)} {rows : List (Row κ)}
    {key : String} (h : ∀ row ∈ rows, groupKey config.groupBy row ≠ key) :
    (addRows config groups rows).get key = groups.get key := by
  have hnone : Grouping.withKey (groupKey config.groupBy) key rows = [] :=
    filter_eq_nil_iff.mpr fun row hrow => by simpa using h row hrow
  have hget := get_accumulate (groupKey config.groupBy) (start config)
    (addRow config) rows groups key
  rw [hnone] at hget
  exact hget

theorem keys_addRows (groups : JsMap String (StreamGroup κ)) (rows : List (Row κ)) :
    (addRows config groups rows).keys = groups.keys ++
      ((rows.map (groupKey config.groupBy)).filter
        fun key => decide (key ∉ groups.keys)).eraseDups :=
  keys_accumulate (groupKey config.groupBy) (start config)
    (addRow config) rows groups

omit [DecidableEq κ] in
theorem mem_dirtyKeys {rows : List (Row κ)} {key : String} :
    key ∈ dirtyKeys config rows ↔ ∃ row ∈ rows, groupKey config.groupBy row = key := by
  rw [dirtyKeys, mem_eraseDups, mem_map]

omit [DecidableEq κ] [StreamCells κ] in
theorem get_foldl_saveGroup (hstate : config.hasState = true)
    (groups : JsMap String (StreamGroup κ)) (keys : List String) (store : AggStateBackend κ)
    (key : String) : (keys.foldl (saveGroup config groups) store).get key =
      if key ∈ keys then ((groups.get key).map StreamGroup.store).or (store.get key)
      else store.get key := by
  induction keys generalizing store with
  | nil => rfl
  | cons first keys ih =>
    rw [foldl_cons, ih, saveGroup, if_pos hstate]
    cases hfirst : groups.get first with
    | none =>
      by_cases hkey : key = first
      · subst hkey
        simp [hfirst]
      · simp [hkey]
    | some group =>
      by_cases hkey : key = first
      · subst hkey
        simp [hfirst]
      · have hne : first ≠ key := fun h => hkey h.symm
        simp [hkey, get_set_ne _ _ hne]

theorem saveGroups_storeAll (hstate : config.hasState = true)
    (groups : JsMap String (StreamGroup κ)) (rows : List (Row κ)) :
    (dirtyKeys config rows).foldl (saveGroup config (addRows config groups rows))
      (storeAll groups) = storeAll (addRows config groups rows) := by
  have hsome : ∀ key ∈ dirtyKeys config rows,
      ((addRows config groups rows).get key).isSome := by
    intro key hkey
    obtain ⟨row, hrow, rfl⟩ := (mem_dirtyKeys config).mp hkey
    rw [← mem_keys_iff, keys_addRows, mem_append, mem_eraseDups, mem_filter]
    by_cases hold : groupKey config.groupBy row ∈ groups.keys
    · exact .inl hold
    · exact .inr ⟨mem_map_of_mem hrow, decide_eq_true hold⟩
  apply ext_keys_get
  · -- the new keys come in the order of their first rows
    obtain ⟨value, hvalue⟩ : ∃ value : String → StoredGroup κ, ∀ key,
        value key = (((addRows config groups rows).get key).map store).getD
          ⟨JsMap.empty, []⟩ := ⟨_, fun _ => rfl⟩
    have hfold : (dirtyKeys config rows).foldl (saveGroup config (addRows config groups rows))
        (storeAll groups) = Grouping.accumulate id value (fun _ key => value key)
          (dirtyKeys config rows) (storeAll groups) := by
      apply foldl_ext
      intro store key hkey
      obtain ⟨group, hgroup⟩ := Option.isSome_iff_exists.mp (hsome key hkey)
      have hgroupValue : value key = group.store := by
        rw [hvalue, hgroup]
        rfl
      rw [saveGroup, if_pos hstate, hgroup]
      show store.set key group.store = store.set key (value key)
      rw [hgroupValue]
    rw [hfold, keys_accumulate, map_id, keys_storeAll, keys_storeAll, keys_addRows]
    congr 1
    rw [dirtyKeys, filter_eraseDups,
      eraseDups_of_nodup (nodup_eraseDups _)]
  · intro key
    rw [get_foldl_saveGroup config hstate, storeAll, storeAll, get_map, get_map]
    split
    · rename_i hkey
      obtain ⟨group, hgroup⟩ := Option.isSome_iff_exists.mp (hsome key hkey)
      rw [hgroup]
      rfl
    · rename_i hkey
      rw [get_addRows_of_forall config fun row hrow heq =>
        hkey ((mem_dirtyKeys config).mpr ⟨row, hrow, heq⟩)]

/-! ## Runs of one call after the other -/

/-- The instance and the backend hold these groups: the memory if it is loaded, and the backend if
there is one. -/
structure Holding (s : AggState κ) (groups : JsMap String (StreamGroup κ)) : Prop where
  store : config.hasState = true → s.store = storeAll groups
  loaded : s.inst.loaded = true ∨ config.hasState = false → s.inst.groups = groups
  unloaded : s.inst.loaded = false → config.hasState = true → s.inst.groups = JsMap.empty

omit [DecidableEq κ] [StreamCells κ] in
theorem holds_create : Holding config (⟨.create, JsMap.empty⟩ : AggState κ) JsMap.empty where
  store := fun _ => rfl
  loaded := fun _ => rfl
  unloaded := fun _ _ => rfl

variable {config} {s : AggState κ} {groups : JsMap String (StreamGroup κ)}

omit [StreamCells κ] in
theorem Holding.loadState (h : Holding config s groups) :
    (loadState config s).inst = ⟨groups, true⟩ ∧ (loadState config s).store = s.store := by
  unfold Promin.Data.loadState
  cases hloaded : s.inst.loaded with
  | true =>
    refine ⟨?_, rfl⟩
    rw [Bool.true_or, if_pos rfl, ← h.loaded (.inl hloaded)]
  | false =>
    cases hstate : config.hasState with
    | false =>
      refine ⟨?_, rfl⟩
      rw [if_pos (by decide), ← h.loaded (.inr hstate)]
    | true =>
      refine ⟨?_, rfl⟩
      rw [if_neg (by decide), h.store hstate, h.unloaded hloaded hstate, load_storeAll]

theorem Holding.ingest (h : Holding config s groups) (rows : List (Row κ)) :
    Holding config (ingest config s rows) (addRows config groups rows) := by
  obtain ⟨hinst, hstore⟩ := h.loadState
  constructor
  · intro hstate
    show (dirtyKeys config rows).foldl _ _ = _
    rw [hinst, hstore, h.store hstate]
    exact saveGroups_storeAll config hstate groups rows
  · intro _
    show addRows config (Promin.Data.loadState config s).inst.groups rows = _
    rw [hinst]
  · intro hloaded
    have htrue : (Promin.Data.loadState config s).inst.loaded = false := hloaded
    rw [hinst] at htrue
    exact nomatch htrue

omit [DecidableEq κ] [StreamCells κ] in
theorem Holding.reload (hstate : config.hasState = true) (h : Holding config s groups) :
    Holding config (reload s) groups where
  store := h.store
  loaded := fun hor => hor.elim (fun hloaded => nomatch hloaded) fun hnone => by
    rw [hstate] at hnone
    exact nomatch hnone
  unloaded := fun _ _ => rfl

theorem Holding.snapshot (h : Holding config s groups) :
    (snapshot config s).2 = groups.values.map (result config) := by
  show (Promin.Data.loadState config s).inst.groups.values.map _ = _
  rw [h.loadState.1]

/-- Batches one after another, with a save and a reload after those that say so. -/
def ingestAll (config : IncrementalAggregationConfig κ) (s : AggState κ)
    (batches : List (List (Row κ) × Bool)) : AggState κ :=
  batches.foldl (fun s batch =>
    let s := ingest config s batch.1
    if batch.2 then reload s else s) s

theorem holds_ingestAll (h : Holding config s groups) {batches : List (List (Row κ) × Bool)}
    (hreload : config.hasState = true ∨ ∀ batch ∈ batches, batch.2 = false) :
    Holding config (ingestAll config s batches)
      (addRows config groups (batches.flatMap Prod.fst)) := by
  induction batches generalizing s groups with
  | nil => exact h
  | cons batch batches ih =>
    rw [flatMap_cons, addRows_append]
    refine ih ?_ (hreload.imp_right fun hall b hb => hall b (mem_cons_of_mem _ hb))
    show Holding config (if batch.2 then Promin.Data.reload _ else _) _
    split
    · rename_i hbatch
      refine (h.ingest batch.1).reload (hreload.resolve_right fun hall => ?_)
      rw [hall batch mem_cons_self] at hbatch
      exact Bool.false_ne_true hbatch
    · exact h.ingest batch.1

/-! ## Group by -/

/-- The values of a row are numbers where the aggregate is an extreme. -/
def ComparableIn (name : String) (fn : AggFn κ) (rows : List (Row κ)) : Prop :=
  ∀ row ∈ rows, ∀ v ∈ valuesIn name fn [row], Comparable fn.agg v

theorem SameAggregate.addRow {name : String} {fn : AggFn κ} {acc : GroupAccumulator κ}
    {acc' : AggAcc κ} (h : SameAggregate fn.agg acc acc') {row : Row κ}
    (hrow : ∀ v ∈ valuesIn name fn [row], Comparable fn.agg v) :
    SameAggregate fn.agg (acc.addRow name fn row) (acc'.addRow name fn row) := by
  cases fn with
  | column agg => exact h.next (hrow _ mem_cons_self)
  | expr expr agg filter =>
    cases filter with
    | none => exact h.next (hrow _ mem_cons_self)
    | some keep =>
      unfold GroupAccumulator.addRow AggAcc.addRow
      dsimp only
      by_cases hkeep : JsCells.truthy (keep row) = true
      · rw [if_pos hkeep, if_pos hkeep]
        refine h.next (hrow _ ?_)
        show expr row ∈ ([row].filter (passes (some keep))).map expr
        rw [filter_cons, if_pos (show passes (some keep) row = true from hkeep)]
        exact mem_cons_self
      · rw [if_neg hkeep, if_neg hkeep]
        exact h

theorem finalize_foldl (name : String) (fn : AggFn κ) {rows : List (Row κ)}
    (h : ComparableIn name fn rows) :
    (rows.foldl (addRow name fn) (createAccumulator fn.agg)).finalize fn.agg =
      aggregate fn.agg (valuesIn name fn rows) := by
  have hsame : SameAggregate fn.agg
      (rows.foldl (addRow name fn) (createAccumulator fn.agg))
      (rows.foldl (AggAcc.addRow name fn) _) :=
    foldl_rel (sameAggregate_start fn.agg) fun row hrow _ _ hacc => hacc.addRow (h row hrow)
  rw [finalize_eq_result hsame, result_foldl]

theorem foldl_streamGroup (config : IncrementalAggregationConfig κ) (rows : List (Row κ))
    (group : StreamGroup κ) (f : String × AggFn κ → GroupAccumulator κ)
    (hgroup : group.accs = config.agg.map f) :
    (rows.foldl (addRow config) group).keyValues = group.keyValues ∧
    (rows.foldl (addRow config) group).accs =
      config.agg.map fun agg => rows.foldl (addRow agg.1 agg.2) (f agg) := by
  induction rows generalizing group f with
  | nil => exact ⟨rfl, hgroup⟩
  | cons row rows ih =>
    have hstep : (group.addRow config row).accs =
        config.agg.map fun agg => (f agg).addRow agg.1 agg.2 row := by
      show List.zipWith _ config.agg group.accs = _
      rw [hgroup, zipWith_map_right, zipWith_self]
    exact ih (group.addRow config row) _ hstep

theorem result_streamGroup (config : IncrementalAggregationConfig κ) (first : Row κ)
    (rest : List (Row κ))
    (h : ∀ agg ∈ config.agg, ComparableIn agg.1 agg.2 (first :: rest)) :
    ((first :: rest).foldl (addRow config) (start config first)).result
      config = groupRow config.groupBy config.agg (first :: rest) := by
  obtain ⟨hkeys, haccs⟩ := foldl_streamGroup config (first :: rest)
    (start config first) (fun agg => createAccumulator agg.2.agg) rfl
  unfold result
  rw [hkeys, haccs, zip_eq_zipWith, zipWith_map_right, zipWith_self, foldl_map]
  apply foldl_ext
  intro row agg hagg
  rw [finalize_foldl agg.1 agg.2 (h agg hagg)]

theorem snapshot_addRows (config : IncrementalAggregationConfig κ) (rows : List (Row κ))
    (h : ∀ agg ∈ config.agg, ComparableIn agg.1 agg.2 rows) :
    (addRows config JsMap.empty rows).values.map (result config) =
      (Grouping.groups (groupKey config.groupBy) rows).map
        (groupRow config.groupBy config.agg) := by
  have hvalues := entries_accumulate (groupKey config.groupBy) (start config)
    (addRow config) rows
  have hresults := congrArg (List.map (Option.map (result config))) hvalues
  rw [map_map, map_map] at hresults
  apply map_injective_iff.mpr (Option.some_injective _)
  rw [map_map, map_map]
  refine hresults.trans (map_congr_left fun group hgroup => ?_)
  cases group with
  | nil => exact absurd rfl (ne_nil_of_mem_groups hgroup)
  | cons first rest =>
    refine congrArg some (result_streamGroup config first rest fun agg hagg row hrow => ?_)
    exact h agg hagg row (subset_of_mem_groups hgroup hrow)

theorem snapshot_eq_groupBy (config : IncrementalAggregationConfig κ) (rows : List (Row κ))
    (h : ∀ agg ∈ config.agg, ComparableIn agg.1 agg.2 rows)
    (hkeys : ∀ a ∈ rows, ∀ b ∈ rows, groupKey config.groupBy a = groupKey config.groupBy b ↔
      keyOf (keyCells config.groupBy a) = keyOf (keyCells config.groupBy b)) :
    (addRows config JsMap.empty rows).values.map (result config) =
      executeGroupBy config.groupBy config.agg rows := by
  rw [snapshot_addRows config rows h, executeGroupBy_eq, groups_congr hkeys]

/-! ## Reset -/

omit [StreamCells κ] in
theorem get_foldl_takeOver (store : AggStateBackend κ) (keys : List String)
    (groups : JsMap String (StreamGroup κ)) (key : String) :
    (keys.foldl (fun groups key => takeOver groups key (store.get key)) groups).get key =
      if key ∈ keys then ((store.get key).map StoredGroup.load).or (groups.get key)
      else groups.get key := by
  induction keys generalizing groups with
  | nil => rfl
  | cons first keys ih =>
    rw [foldl_cons, ih]
    cases hfirst : store.get first with
    | none =>
      by_cases hkey : key = first
      · subst hkey
        simp [takeOver, hfirst]
      · simp [takeOver, hkey]
    | some stored =>
      by_cases hkey : key = first
      · subst hkey
        simp [takeOver, hfirst]
      · have hne : first ≠ key := fun h => hkey h.symm
        simp [takeOver, hkey, get_set_ne _ _ hne]

theorem values_eq_nil_iff {α : Type} (m : JsMap String α) :
    m.values = [] ↔ ∀ key, m.get key = none := by
  constructor
  · intro h key
    cases hget : m.get key with
    | none => rfl
    | some v =>
      have hmem := (mem_values_iff m v).mpr ⟨key, hget⟩
      rw [h] at hmem
      exact nomatch hmem
  · intro h
    rw [eq_nil_iff_forall_not_mem]
    intro v hv
    obtain ⟨key, hkey⟩ := (mem_values_iff m v).mp hv
    rw [h key] at hkey
    exact nomatch hkey

theorem reset_snapshot_iff (config : IncrementalAggregationConfig κ) (s : AggState κ) :
    (snapshot config (reset config s)).2 = [] ↔
      (config.hasState = true → ∀ key ∈ s.store.keys, key ∈ s.inst.groups.keys) := by
  show (Promin.Data.loadState config (reset config s)).inst.groups.values.map _ = [] ↔ _
  rw [map_eq_nil_iff, values_eq_nil_iff]
  cases hstate : config.hasState with
  | false =>
    have hempty : (Promin.Data.loadState config (reset config s)).inst.groups = JsMap.empty := by
      simp [Promin.Data.loadState, reset, hstate]
    rw [hempty]
    exact ⟨fun _ h => (by cases h), fun _ _ => rfl⟩
  | true =>
    obtain ⟨left, hleft⟩ : ∃ left, left = s.inst.groups.keys.foldl JsMap.delete s.store := ⟨_, rfl⟩
    have hload : (Promin.Data.loadState config (reset config s)).inst.groups =
        left.keys.foldl (fun groups key => takeOver groups key (left.get key)) JsMap.empty := by
      simp [Promin.Data.loadState, reset, hstate, hleft]
    have hget : ∀ key, left.get key =
        if key ∈ s.inst.groups.keys then none else s.store.get key := by
      intro key
      rw [hleft]
      exact get_foldl_delete _ _ _
    rw [hload]
    constructor
    · intro h _ key hkey
      by_contra hmissing
      have hstored := (mem_keys_iff s.store key).mp hkey
      have hgot := hget key
      rw [if_neg hmissing] at hgot
      have hnone := h key
      rw [get_foldl_takeOver, if_pos ((mem_keys_iff left key).mpr (by rw [hgot]; exact hstored)),
        hgot] at hnone
      obtain ⟨stored, hsome⟩ := Option.isSome_iff_exists.mp hstored
      rw [hsome] at hnone
      cases hnone
    · intro h key
      have hnone : left.get key = none := by
        rw [hget]
        split
        · rfl
        · rename_i hmissing
          rw [← Option.not_isSome_iff_eq_none, ← mem_keys_iff]
          exact fun hkey => hmissing (h rfl key hkey)
      rw [get_foldl_takeOver, hnone]
      split <;> rfl

end Incremental

end Promin.Data
