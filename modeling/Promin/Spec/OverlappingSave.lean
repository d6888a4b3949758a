import Promin.Spec.OverlappingIngest

/-!
# Overlapping saves

Two calls put the groups of their batches in turn.
-/

namespace Promin.Data

open JsMap

section Overlapping

variable {κ : Type} [DecidableEq κ] [StreamCells κ]
variable {config : IncrementalAggregationConfig κ} {s : AggState κ} {task : IngestTask κ}
variable {groups : JsMap String (StreamGroup κ)} {n : Nat} {rows : List (Row κ)}

/-! ## The backend -/

def IngestTask.toPut : IngestTask κ → List String
  | .putting key _ keys => key :: keys
  | .put keys => keys
  | _ => []

/-- A put that takes effect has its group as it is in memory, or the other call is still to put
it. -/
def Overlap.PutsInTurn (s : Overlap κ) (j : Bool) : Prop :=
  ∀ key stored keys, s.task j = .putting key stored keys →
    s.shared.inst.groups.get key = some stored.load ∨ key ∈ (s.task !j).toPut

/-- Every put of the run is made in turn. -/
def Overlap.PutInOrder (config : IncrementalAggregationConfig κ) : Overlap κ → List Bool → Prop
  | _, [] => True
  | s, j :: schedule => s.PutsInTurn j ∧ (s.step config j).PutInOrder config schedule

structure Backed (s : Overlap κ) : Prop where
  saved : ∀ key, (s.shared.store.get key).map StoredGroup.load = s.shared.inst.groups.get key ∨
    ∃ j, key ∈ (s.task j).toPut
  known : ∀ j, ∀ key ∈ (s.task j).toPut, (s.shared.inst.groups.get key).isSome

omit [DecidableEq κ] [StreamCells κ] in
theorem toPut_saveNext (hstate : config.hasState = true) {keys : List String}
    (h : ∀ key ∈ keys, (groups.get key).isSome) :
    (IngestTask.saveNext config groups keys).toPut = keys := by
  cases keys with
  | nil => rfl
  | cons key keys =>
    obtain ⟨group, hgroup⟩ := Option.isSome_iff_exists.mp (h key List.mem_cons_self)
    simp only [IngestTask.saveNext, hstate, if_true, hgroup]
    rfl

omit [StreamCells κ] in
theorem Backed.congr {s s' : Overlap κ} (h : Backed s)
    (hgroups : s'.shared.inst.groups = s.shared.inst.groups)
    (hstore : s'.shared.store = s.shared.store)
    (htoPut : ∀ i, (s'.task i).toPut = (s.task i).toPut) : Backed s' := by
  constructor
  · intro key
    simp only [hgroups, hstore, htoPut]
    exact h.saved key
  · intro i key hkey
    rw [htoPut] at hkey
    rw [hgroups]
    exact h.known i key hkey

/-- A call that saves its groups moves on. -/
theorem Backed.save (hstate : config.hasState = true) {s : Overlap κ} (h : Backed s) {j : Bool}
    (hadded : (s.task j).Added) (hput : s.PutsInTurn j) : Backed (s.step config j) := by
  have hself := task_step_self config s j
  have hother : (s.step config j).task (!j) = s.task (!j) :=
    task_step_other config s (Bool.not_ne_self j)
  have hknown := h.known j
  have hstep : (s.step config j).shared = ((s.task j).step config s.shared).1 := rfl
  cases htask : s.task j with
  | putting key stored keys =>
    rw [htask] at hself hstep hknown
    have hshared : (s.step config j).shared =
      ⟨s.shared.inst, s.shared.store.set key stored⟩ := hstep
    constructor
    · intro key'
      rw [hshared]
      show ((s.shared.store.set key stored).get key').map _ = s.shared.inst.groups.get key' ∨ _
      by_cases hkey : key = key'
      · subst hkey
        rw [get_set_self]
        -- in turn: the group is current, or the other call puts it again
        refine (hput key stored keys htask).imp (fun hcurrent => hcurrent.symm) fun hlater => ?_
        exact ⟨!j, hother ▸ hlater⟩
      · rw [get_set_ne _ _ hkey]
        refine (h.saved key').imp_right fun ⟨i, hi⟩ => ?_
        rcases Bool.eq_or_eq_not i j with rfl | rfl
        · rw [htask] at hi
          refine ⟨i, hself ▸ ?_⟩
          exact (List.mem_cons.mp hi).resolve_left fun heq => hkey heq.symm
        · exact ⟨!j, hother ▸ hi⟩
    · intro i key' hkey'
      rw [hshared]
      rcases Bool.eq_or_eq_not i j with rfl | rfl
      · rw [hself] at hkey'
        exact hknown key' (List.mem_cons_of_mem _ hkey')
      · rw [hother] at hkey'
        exact h.known _ key' hkey'
  | put keys =>
    rw [htask] at hself hstep hknown
    have hshared : (s.step config j).shared = s.shared := hstep
    have htoPut : ((s.step config j).task j).toPut = keys := by
      rw [hself]
      exact toPut_saveNext hstate hknown
    refine h.congr (by rw [hshared]) (by rw [hshared]) fun i => ?_
    rcases Bool.eq_or_eq_not i j with rfl | rfl
    · rw [htoPut, htask]
      rfl
    · rw [hother]
  | done =>
    rw [htask] at hself hstep
    have hshared : (s.step config j).shared = s.shared := hstep
    refine h.congr (by rw [hshared]) (by rw [hshared]) fun i => ?_
    rcases Bool.eq_or_eq_not i j with rfl | rfl
    · rw [hself, htask]
      rfl
    · rw [hother]
  | waiting | ready | listing | listed | getting | got =>
    rw [htask] at hadded
    exact hadded.elim

omit [StreamCells κ] in
theorem IngestTask.Pending.toPut_eq (h : task.Pending rows s) : task.toPut = [] := by
  cases task with
  | waiting | ready | listing | listed | getting | got => rfl
  | putting | put | done => exact h.elim

omit [DecidableEq κ] [StreamCells κ] in
theorem IngestTask.Loading.toPut_eq (h : task.Loading groups n rows) : task.toPut = [] := by
  cases task with
  | waiting | listing | listed | getting | got => rfl
  | ready | putting | put | done => exact h.elim

/-- A call adds its batch: the groups it has changed are to be put. -/
theorem Backed.addBatch (hstate : config.hasState = true) {s : Overlap κ} (h : Backed s) {j : Bool}
    (hnone : (s.task j).toPut = [])
    (hstep : (s.task j).step config s.shared = IngestTask.addBatch config s.shared rows) :
    Backed (s.step config j) := by
  have hgroups : (s.step config j).shared.inst.groups =
      addRows config s.shared.inst.groups rows := by
    show ((s.task j).step config s.shared).1.inst.groups = _
    rw [hstep]
    rfl
  have hstore : (s.step config j).shared.store = s.shared.store := by
    show ((s.task j).step config s.shared).1.store = _
    rw [hstep]
    rfl
  have hother : ((s.step config j).task !j).toPut = (s.task !j).toPut :=
    congrArg IngestTask.toPut (task_step_other config s (Bool.not_ne_self j))
  have hsome : ∀ key, (s.shared.inst.groups.get key).isSome ∨ key ∈ dirtyKeys config rows →
      ((addRows config s.shared.inst.groups rows).get key).isSome := by
    intro key hkey
    rw [← mem_keys_iff, keys_addRows, List.mem_append, List.mem_eraseDups, List.mem_filter]
    by_cases hold : key ∈ s.shared.inst.groups.keys
    · exact .inl hold
    · rw [← mem_keys_iff, dirtyKeys, List.mem_eraseDups] at hkey
      exact .inr ⟨hkey.resolve_left hold, decide_eq_true hold⟩
  have htoPut : ((s.step config j).task j).toPut = dirtyKeys config rows := by
    rw [task_step_self, hstep]
    exact toPut_saveNext hstate fun key hkey => hsome key (.inr hkey)
  constructor
  · intro key
    rw [hgroups, hstore]
    by_cases hdirty : key ∈ dirtyKeys config rows
    · exact .inr ⟨j, htoPut ▸ hdirty⟩
    · have hget : (addRows config s.shared.inst.groups rows).get key =
          s.shared.inst.groups.get key :=
        get_addRows_of_forall config fun row hrow heq =>
          hdirty ((mem_dirtyKeys config).mpr ⟨row, hrow, heq⟩)
      rw [hget]
      refine (h.saved key).imp_right fun hput => ?_
      obtain ⟨i, hi⟩ := hput
      rcases Bool.eq_or_eq_not i j with rfl | rfl
      · rw [hnone] at hi
        cases hi
      · exact ⟨!j, hother ▸ hi⟩
  · intro i key hkey
    rw [hgroups]
    rcases Bool.eq_or_eq_not i j with rfl | rfl
    · exact hsome key (.inr (htoPut ▸ hkey))
    · exact hsome key (.inl (h.known _ key (hother ▸ hkey)))

variable {rows : Bool → List (Row κ)}

section

variable (hstate : config.hasState = true)
include hstate

/-- As soon as a batch has been added, and from the start if the state is loaded, each group is
stored or to be stored. -/
theorem Progress.backed_step {s : Overlap κ} (h : Progress config groups rows s)
    (hbacked : s.shared.inst.loaded = true → Backed s) {j : Bool} (hput : s.PutsInTurn j) :
    (s.step config j).shared.inst.loaded = true → Backed (s.step config j) := by
  have hother : (s.step config j).task (!j) = s.task (!j) :=
    task_step_other config s (Bool.not_ne_self j)
  have htoPut : ((s.task j).step config s.shared).2.toPut = [] → (s.task j).toPut = [] →
      ∀ i, ((s.step config j).task i).toPut = (s.task i).toPut := by
    intro hafter hbefore i
    rcases Bool.eq_or_eq_not i j with rfl | rfl
    · rw [task_step_self, hafter, hbefore]
    · rw [hother]
  cases h with
  | loaded hnone hgroups htask =>
    have hloaded : s.shared.inst.loaded = true := by simpa [hstate] using hnone
    intro _
    rcases htask j with hwaiting | hready
    · have hstep := step_waiting_of_loaded (rows j) hnone
      rw [← hwaiting] at hstep
      have hshared : (s.step config j).shared = ⟨⟨s.shared.inst.groups, true⟩, s.shared.store⟩ :=
        congrArg Prod.fst hstep
      refine (hbacked hloaded).congr (by rw [hshared]) (by rw [hshared]) (htoPut ?_ ?_)
      · rw [hstep]
        rfl
      · rw [hwaiting]
        rfl
    · have hstep : (s.task j).step config s.shared =
          IngestTask.addBatch config s.shared (rows j) := by
        rw [hready]
        rfl
      refine (hbacked hloaded).addBatch hstate ?_ hstep
      rw [hready]
      rfl
  | loading n _ hload htask =>
    intro hloaded
    rcases (htask j).step hload with ⟨n', _, hload', _⟩ | hstep
    · have hunloaded : (s.step config j).shared.inst.loaded = false := hload'.unloaded
      rw [hloaded] at hunloaded
      exact nomatch hunloaded
    · -- the state is what is stored, and no call has begun to save
      have hshared : (s.step config j).shared = ⟨⟨groups, true⟩, storeAll groups⟩ :=
        congrArg Prod.fst hstep
      have hnone := htoPut (by rw [hstep]; rfl) (htask j).toPut_eq
      refine ⟨fun key => .inl ?_, fun i key hkey => ?_⟩
      · rw [hshared]
        show ((storeAll groups).get key).map _ = groups.get key
        rw [storeAll, get_map, Option.map_map]
        cases groups.get key with
        | none => rfl
        | some group => exact congrArg some (load_store group)
      · rw [hnone, (htask i).toPut_eq] at hkey
        cases hkey
  | ready huntouched hshared htask =>
    intro _
    have hloaded : s.shared.inst.loaded = true := by rw [hshared]
    rcases (htask j).step config hloaded with ⟨hsame, hpending'⟩ | hstep
    · have hshared' : (s.step config j).shared = s.shared := hsame
      exact (hbacked hloaded).congr (by rw [hshared']) (by rw [hshared'])
        (htoPut hpending'.toPut_eq (htask j).toPut_eq)
    · exact (hbacked hloaded).addBatch hstate (htask j).toPut_eq hstep
  | one i hloaded hgroups hsaving hpending =>
    intro _
    rcases Bool.eq_or_eq_not j i with rfl | rfl
    · exact (hbacked hloaded).save hstate hsaving.added hput
    · rcases hpending.step config hloaded with ⟨hsame, hpending'⟩ | hstep
      · have hshared : (s.step config !i).shared = s.shared := hsame
        exact (hbacked hloaded).congr (by rw [hshared]) (by rw [hshared])
          (htoPut hpending'.toPut_eq hpending.toPut_eq)
      · exact (hbacked hloaded).addBatch hstate hpending.toPut_eq hstep
  | both i hloaded hgroups hadded =>
    exact fun _ => (hbacked hloaded).save hstate (hadded j) hput

theorem backed_run {s : Overlap κ}
    (h : Progress config groups rows s) (hbacked : s.shared.inst.loaded = true → Backed s)
    {schedule : List Bool} (horder : s.PutInOrder config schedule) :
    (s.run config schedule).shared.inst.loaded = true → Backed (s.run config schedule) := by
  induction schedule generalizing s with
  | nil => exact hbacked
  | cons j schedule ih => exact ih (h.step j) (h.backed_step hstate hbacked horder.1) horder.2

theorem overlap_reload {s : AggState κ}
    (hs : Holding config s groups) (hcond : (s.inst.loaded || !config.hasState) = true ∨
      ∀ i, Untouched config groups (rows i)) (schedule : List Bool)
    (hdone : ∀ i, ((Overlap.start s rows).run config schedule).task i = .done)
    (horder : (Overlap.start s rows).PutInOrder config schedule) (key : String) :
    (loadState config (reload ((Overlap.start s rows).run config schedule).shared)).inst.groups.get
      key = ((Overlap.start s rows).run config schedule).shared.inst.groups.get key := by
  have hstart : (Overlap.start s rows).shared.inst.loaded = true →
      Backed (Overlap.start s rows) := by
    intro hloaded
    refine ⟨fun key => .inl ?_, fun _ _ hkey => by cases hkey⟩
    show (s.store.get key).map _ = s.inst.groups.get key
    rw [hs.store hstate, hs.loaded (.inl hloaded), storeAll, get_map, Option.map_map]
    cases groups.get key with
    | none => rfl
    | some group => exact congrArg some (load_store group)
  obtain ⟨hloaded, -⟩ := (progress_run (progress_start hs hcond) schedule).done hdone
  have hbacked := backed_run hstate (progress_start hs hcond) hstart horder hloaded
  have hsaved := (hbacked.saved key).resolve_right fun hputting => by
    obtain ⟨j, hj⟩ := hputting
    rw [hdone j] at hj
    cases hj
  rw [← hsaved]
  have hload : (loadState config
      (reload ((Overlap.start s rows).run config schedule).shared)).inst =
      ⟨((Overlap.start s rows).run config schedule).shared.store.keys.foldl (fun groups key =>
        takeOver groups key (((Overlap.start s rows).run config schedule).shared.store.get key))
        JsMap.empty, true⟩ := by
    simp [loadState, reload, IncrementalAggregation.create, hstate]
  rw [hload]
  show (List.foldl _ JsMap.empty _).get key = _
  rw [get_foldl_takeOver]
  split
  · rw [get_empty, Option.or_none]
  · rename_i hkey
    rw [mem_keys_iff, Option.not_isSome_iff_eq_none] at hkey
    rw [hkey]
    rfl

end

/-! ## Instances in use -/

/-- An instance and its backend after calls one after the other. -/
inductive InUse (config : IncrementalAggregationConfig κ) : AggState κ → Prop
  | create : InUse config ⟨.create, JsMap.empty⟩
  | ingest {s : AggState κ} (h : InUse config s) (rows : List (Row κ)) :
    InUse config (ingest config s rows)
  | snapshot {s : AggState κ} (h : InUse config s) : InUse config (snapshot config s).1
  | reset {s : AggState κ} (h : InUse config s) : InUse config (reset config s)
  | reload {s : AggState κ} (h : InUse config s) : InUse config (reload s)

omit [DecidableEq κ] [StreamCells κ] in
theorem Holding.reset (h : Holding config s groups) :
    ∃ groups', Holding config (reset config s) groups' := by
  cases hstate : config.hasState with
  | false =>
    refine ⟨JsMap.empty, fun hnone => ?_, fun _ => rfl, fun _ _ => rfl⟩
    rw [hstate] at hnone
    cases hnone
  | true =>
    cases hloaded : s.inst.loaded with
    | false =>
      have hstore : (Promin.Data.reset config s).store = s.store := by
        simp [Promin.Data.reset, h.unloaded hloaded hstate, JsMap.keys, JsMap.empty]
      refine ⟨groups, fun _ => hstore.trans (h.store hstate), fun hor => ?_, fun _ _ => rfl⟩
      rcases hor with hor | hor
      · cases hor
      · rw [hstate] at hor
        cases hor
    | true =>
      have hempty : (Promin.Data.reset config s).store = JsMap.empty := by
        simp only [Promin.Data.reset, hstate, if_true, h.store hstate, h.loaded (.inl hloaded)]
        rw [foldl_delete]
        apply JsMap.ext
        rw [JsMap.restrict, JsMap.filter]
        refine List.filter_eq_nil_iff.mpr fun e he => ?_
        have hkey : e.1 ∈ groups.keys := keys_storeAll groups ▸ List.mem_map_of_mem he
        simpa using hkey
      exact ⟨JsMap.empty, fun _ => hempty, fun _ => rfl, fun _ _ => rfl⟩

theorem InUse.holds (h : InUse config s) : ∃ groups, Holding config s groups := by
  induction h with
  | create => exact ⟨JsMap.empty, holds_create config⟩
  | ingest _ rows ih =>
    obtain ⟨groups, h⟩ := ih
    exact ⟨addRows config groups rows, h.ingest rows⟩
  | snapshot _ ih =>
    obtain ⟨groups, h⟩ := ih
    obtain ⟨hinst, hstore⟩ := h.loadState
    refine ⟨groups, fun hstate => hstore.trans (h.store hstate), fun _ => ?_, fun hloaded => ?_⟩
    · exact congrArg IncrementalAggregation.groups hinst
    · have htrue : (loadState config _).inst.loaded = false := hloaded
      rw [hinst] at htrue
      exact nomatch htrue
  | reset _ ih =>
    obtain ⟨groups, h⟩ := ih
    exact h.reset
  | reload _ ih =>
    obtain ⟨groups, h⟩ := ih
    cases hstate : config.hasState with
    | true => exact ⟨groups, h.reload hstate⟩
    | false =>
      refine ⟨JsMap.empty, fun hnone => ?_, fun _ => rfl, fun _ _ => rfl⟩
      rw [hstate] at hnone
      exact nomatch hnone

theorem snapshot_ingestAll (h : InUse config s) {batches : List (List (Row κ) × Bool)}
    (hreload : config.hasState = true ∨ ∀ batch ∈ batches, batch.2 = false) :
    (snapshot config (ingestAll config s batches)).2 =
      (snapshot config (ingest config s (batches.flatMap Prod.fst))).2 := by
  obtain ⟨groups, hholds⟩ := h.holds
  rw [(holds_ingestAll hholds hreload).snapshot, (hholds.ingest _).snapshot]

theorem snapshot_overlap (h : InUse config s) (hcond : (s.inst.loaded || !config.hasState) = true ∨
      ∀ i, Untouched config (loadState config s).inst.groups (rows i)) {schedule : List Bool}
    (hdone : ∀ i, ((Overlap.start s rows).run config schedule).task i = .done) :
    (∃ i, (snapshot config ((Overlap.start s rows).run config schedule).shared).2 =
      (snapshot config (ingest config (ingest config s (rows i)) (rows !i))).2) ∧
    (config.hasState = true → (Overlap.start s rows).PutInOrder config schedule → ∀ key,
      (loadState config
        (reload ((Overlap.start s rows).run config schedule).shared)).inst.groups.get key =
      ((Overlap.start s rows).run config schedule).shared.inst.groups.get key) := by
  obtain ⟨groups, hholds⟩ := h.holds
  rw [hholds.loadState.1] at hcond
  refine ⟨?_, fun hstate => overlap_reload hstate hholds hcond schedule hdone⟩
  obtain ⟨hloaded, i, hgroups⟩ :=
    (progress_run (progress_start hholds hcond) schedule).done hdone
  refine ⟨i, ?_⟩
  rw [((hholds.ingest (rows i)).ingest (rows !i)).snapshot, ← hgroups]
  show (loadState config _).inst.groups.values.map _ = _
  rw [loadState, hloaded, Bool.true_or, if_pos rfl]

/-- Batches that are ingested one by one make the snapshot of all rows, which is their `GROUP BY`
where extremes are of numbers and both tell the same keys apart.  Two overlapping calls lose no
batch where there is nothing to load or no batch changes a stored group, and a reset leaves an empty
snapshot if and only if all stored groups were in memory. -/
theorem aggregation_runs (config : IncrementalAggregationConfig κ) :
    (∀ s, InUse config s → ∀ batches : List (List (Row κ) × Bool),
      (config.hasState = true ∨ ∀ batch ∈ batches, batch.2 = false) →
      (snapshot config (ingestAll config s batches)).2 =
        (snapshot config (ingest config s (batches.flatMap Prod.fst))).2) ∧
    (∀ rows : List (Row κ), (∀ agg ∈ config.agg, ComparableIn agg.1 agg.2 rows) →
      (∀ a ∈ rows, ∀ b ∈ rows, groupKey config.groupBy a = groupKey config.groupBy b ↔
        keyOf (keyCells config.groupBy a) = keyOf (keyCells config.groupBy b)) →
      (snapshot config (ingest config ⟨.create, JsMap.empty⟩ rows)).2 =
        executeGroupBy config.groupBy config.agg rows) ∧
    (∀ s, InUse config s → ∀ (rows : Bool → List (Row κ)) (schedule : List Bool),
      ((s.inst.loaded || !config.hasState) = true ∨
        ∀ i, Untouched config (loadState config s).inst.groups (rows i)) →
      (∀ i, ((Overlap.start s rows).run config schedule).task i = .done) →
      (∃ i, (snapshot config ((Overlap.start s rows).run config schedule).shared).2 =
        (snapshot config (ingest config (ingest config s (rows i)) (rows !i))).2) ∧
      (config.hasState = true → (Overlap.start s rows).PutInOrder config schedule → ∀ key,
        (loadState config
          (reload ((Overlap.start s rows).run config schedule).shared)).inst.groups.get key =
        ((Overlap.start s rows).run config schedule).shared.inst.groups.get key)) ∧
    ∀ s, (snapshot config (reset config s)).2 = [] ↔
      (config.hasState = true → ∀ key ∈ s.store.keys, key ∈ s.inst.groups.keys) := by
  refine ⟨fun s h batches hreload => snapshot_ingestAll h hreload, fun rows hvalues hkeys => ?_,
    fun s h rows schedule hcond hdone => snapshot_overlap h hcond hdone,
    reset_snapshot_iff config⟩
  rw [((holds_create config).ingest rows).snapshot]
  exact snapshot_eq_groupBy config rows hvalues hkeys

end Overlapping

def visitCounts : IncrementalAggregationConfig JsValue where
  groupBy := ["page"]
  agg := [("visits", .column .count)]
  hasState := true

def visit : Row JsValue := ⟨[("page", .str "a")], by decide⟩

/-- The stored count is loaded again after the other call has added its visit to it; a reset of an
instance that has not loaded it leaves it; and the least of some booleans is a number. -/
theorem aggregation_loses_visit :
    ¬ (∀ s, InUse visitCounts s → ∀ (rows : Bool → List (Row JsValue)) (schedule : List Bool),
      (∀ i, ((Overlap.start s rows).run visitCounts schedule).task i = .done) →
      ∃ i, (snapshot visitCounts ((Overlap.start s rows).run visitCounts schedule).shared).2 =
        (snapshot visitCounts (ingest visitCounts (ingest visitCounts s (rows i)) (rows !i))).2) ∧
    ¬ (∀ s, InUse visitCounts s → (snapshot visitCounts (reset visitCounts s)).2 = []) ∧
    ¬ ∀ rows : List (Row JsValue),
      (snapshot ⟨[], [("page", .column .min)], false⟩
        (ingest ⟨[], [("page", .column .min)], false⟩ ⟨.create, JsMap.empty⟩ rows)).2 =
      executeGroupBy [] [("page", .column .min)] rows := by
  have huse : InUse visitCounts (reload (ingest visitCounts ⟨.create, JsMap.empty⟩ [visit])) :=
    (InUse.create.ingest [visit]).reload
  refine ⟨?_, ?_, ?_⟩
  · intro h
    -- the first call gets the stored count, the second runs to its end, and the first goes on
    obtain ⟨i, hrows⟩ := h _ huse (fun _ => [visit])
      (List.replicate 4 false ++ List.replicate 8 true ++ List.replicate 4 false)
      (by intro i; cases i <;> rfl)
    have hvisits := congrArg (List.map fun row => cell row "visits") hrows
    revert hvisits
    cases i
    · decide
    · decide
  · intro h
    have hempty := congrArg List.length (h _ huse)
    revert hempty
    decide
  · intro h
    have hleast := congrArg (List.map fun row => cell row "page") 
      (h [⟨[("page", .bool true)], by decide⟩])
    revert hleast
    decide

end Promin.Data
