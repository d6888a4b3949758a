import Promin.Spec.IncrementalAggregation

/-!
# Overlapping ingest calls

Two calls on one instance whose steps come in any order.
-/

namespace Promin.Data

open JsMap

section Overlapping

variable {κ : Type} [DecidableEq κ] [StreamCells κ]

/-! ## Calls that save their groups -/

/-- Every stored group is held as it was stored. -/
def Stored (groups : JsMap String (StreamGroup κ)) (store : AggStateBackend κ) : Prop :=
  ∀ key stored, store.get key = some stored → groups.get key = some stored.load

def IngestTask.Added : IngestTask κ → Prop
  | .putting _ _ _ | .put _ | .done => True
  | _ => False

def IngestTask.Saving (groups : JsMap String (StreamGroup κ)) : IngestTask κ → Prop
  | .putting key stored _ => groups.get key = some stored.load
  | .put _ | .done => True
  | _ => False

omit [StreamCells κ] in
theorem IngestTask.Saving.added {groups : JsMap String (StreamGroup κ)} {task : IngestTask κ}
    (h : task.Saving groups) : task.Added := by
  cases task <;> first | exact trivial | exact h

variable (config : IncrementalAggregationConfig κ)

omit [StreamCells κ] in
theorem saveNext_saving (groups : JsMap String (StreamGroup κ)) (keys : List String) :
    (IngestTask.saveNext config groups keys).Saving groups := by
  cases keys with
  | nil => exact trivial
  | cons key keys =>
    simp only [IngestTask.saveNext]
    split
    · cases hkey : groups.get key with
      | none => exact trivial
      | some group =>
        show groups.get key = some group.store.load
        rw [load_store, hkey]
    · exact trivial

variable {config} {s : AggState κ} {task : IngestTask κ}

theorem step_waiting_of_loaded (rows : List (Row κ))
    (h : (s.inst.loaded || !config.hasState) = true) : (IngestTask.waiting rows).step config s =
      ({ s with inst := ⟨s.inst.groups, true⟩ }, .ready rows) :=
  if_pos h

variable (config) in
theorem IngestTask.Added.step (h : task.Added) :
    (task.step config s).1.inst = s.inst ∧ (task.step config s).2.Added := by
  cases task with
  | putting key stored keys | done => exact ⟨rfl, trivial⟩
  | put keys => exact ⟨rfl, (saveNext_saving config s.inst.groups keys).added⟩
  | waiting | ready | listing | listed | getting | got => exact h.elim

variable (config) in
theorem IngestTask.Saving.step (h : task.Saving s.inst.groups) :
    (task.step config s).2.Saving s.inst.groups ∧
    (Stored s.inst.groups s.store → Stored s.inst.groups (task.step config s).1.store) := by
  cases task with
  | putting key stored keys =>
    refine ⟨trivial, fun hstored key' stored' hget => ?_⟩
    have hset : (s.store.set key stored).get key' = some stored' := hget
    by_cases hkey : key = key'
    · subst hkey
      rw [get_set_self] at hset
      cases hset
      exact h
    · rw [get_set_ne _ _ hkey] at hset
      exact hstored key' stored' hset
  | put keys => exact ⟨saveNext_saving config s.inst.groups keys, id⟩
  | done => exact ⟨trivial, id⟩
  | waiting | ready | listing | listed | getting | got => exact h.elim

/-! ## Calls after the other has added its batch -/

/-- The call is still to add its rows, and what it may take over is as in memory. -/
def IngestTask.Pending (rows : List (Row κ)) (s : AggState κ) : IngestTask κ → Prop
  | .waiting rows' | .ready rows' => rows' = rows
  | .listing rows' | .listed rows' _ | .getting rows' _ _ =>
    rows' = rows ∧ Stored s.inst.groups s.store
  | .got rows' key stored _ => rows' = rows ∧ Stored s.inst.groups s.store ∧
    ∀ group, stored = some group → s.inst.groups.get key = some group.load
  | _ => False

omit [StreamCells κ] in
theorem IngestTask.Pending.frame {rows : List (Row κ)} {s' : AggState κ}
    (h : task.Pending rows s) (hinst : s'.inst = s.inst)
    (hstored : Stored s.inst.groups s.store → Stored s.inst.groups s'.store) :
    task.Pending rows s' := by
  cases task with
  | waiting | ready => exact h
  | listing | listed | getting =>
    refine ⟨h.1, ?_⟩
    rw [hinst]
    exact hstored h.2
  | got =>
    refine ⟨h.1, ?_⟩
    rw [hinst]
    exact ⟨hstored h.2.1, h.2.2⟩
  | putting | put | done => exact h.elim

variable (config) in
/-- A call that waits for its turn, or has a loaded group to take over, changes nothing before it
adds its rows. -/
theorem IngestTask.Pending.step {rows : List (Row κ)} (h : task.Pending rows s)
    (hloaded : s.inst.loaded = true) :
    ((task.step config s).1 = s ∧ (task.step config s).2.Pending rows s) ∨
    task.step config s = addBatch config s rows := by
  have hload : ∀ keys, Stored s.inst.groups s.store →
      (loadNext s rows keys).1 = s ∧ (loadNext s rows keys).2.Pending rows s := by
    intro keys hstored
    cases keys with
    | nil =>
      refine ⟨?_, rfl⟩
      show { s with inst := ⟨s.inst.groups, true⟩ } = s
      rw [← hloaded]
    | cons key keys => exact ⟨rfl, rfl, hstored⟩
  cases task with
  | waiting rows' =>
    obtain rfl : rows' = rows := h
    rw [step_waiting_of_loaded rows' (Bool.or_eq_true_iff.mpr (.inl hloaded)), ← hloaded]
    exact .inl ⟨rfl, rfl⟩
  | ready rows' =>
    obtain rfl : rows' = rows := h
    exact .inr rfl
  | listing rows' => exact .inl ⟨rfl, h⟩
  | listed rows' keys =>
    obtain ⟨rfl, hstored⟩ := h
    exact .inl (hload keys hstored)
  | getting rows' key keys => exact .inl ⟨rfl, h.1, h.2, fun group hget => h.2 key group hget⟩
  | got rows' key stored keys =>
    obtain ⟨rfl, hstored, hgroup⟩ := h
    -- the group that is taken over is the one in memory
    have hsame : takeOver s.inst.groups key stored = s.inst.groups := by
      cases stored with
      | none => rfl
      | some group => exact set_of_get (hgroup group rfl)
    have hstep : (IngestTask.got rows' key stored keys).step config s =
        loadNext s rows' keys := by
      show loadNext { s with inst := ⟨takeOver s.inst.groups key stored, _⟩ } rows' keys = _
      rw [hsame]
    rw [hstep]
    exact .inl (hload keys hstored)
  | putting | put | done => exact h.elim

/-! ## Calls that load the state -/

/-- The first groups of the backend are in memory. -/
structure LoadedTo (config : IncrementalAggregationConfig κ)
    (groups : JsMap String (StreamGroup κ)) (n : Nat) (s : AggState κ) : Prop where
  hasState : config.hasState = true
  store : s.store = storeAll groups
  unloaded : s.inst.loaded = false
  entries : s.inst.groups.entries = groups.entries.take n

/-- The call is to add its rows, and has taken over at most the first `n` groups. -/
def IngestTask.Loading (groups : JsMap String (StreamGroup κ)) (n : Nat) (rows : List (Row κ)) :
    IngestTask κ → Prop
  | .waiting rows' | .listing rows' => rows' = rows
  | .listed rows' keys => rows' = rows ∧ keys = groups.keys
  | .getting rows' key keys =>
    rows' = rows ∧ ∃ m, m ≤ n ∧ groups.keys.drop m = key :: keys
  | .got rows' key stored keys =>
    rows' = rows ∧ stored = (storeAll groups).get key ∧
      ∃ m, m ≤ n ∧ groups.keys.drop m = key :: keys
  | _ => False

variable {groups : JsMap String (StreamGroup κ)} {n : Nat} {rows : List (Row κ)}

omit [DecidableEq κ] [StreamCells κ] in
theorem IngestTask.Loading.mono (h : task.Loading groups n rows) {n' : Nat} (hn : n ≤ n') :
    task.Loading groups n' rows := by
  cases task with
  | waiting | listing | listed => exact h
  | getting =>
    obtain ⟨hrows, m, hm, hdrop⟩ := h
    exact ⟨hrows, m, Nat.le_trans hm hn, hdrop⟩
  | got =>
    obtain ⟨hrows, hstored, m, hm, hdrop⟩ := h
    exact ⟨hrows, hstored, m, Nat.le_trans hm hn, hdrop⟩
  | ready | putting | put | done => exact h.elim

omit [StreamCells κ] in
theorem entries_takeOver {loaded : JsMap String (StreamGroup κ)}
    (hentries : loaded.entries = groups.entries.take n) {m : Nat} (hm : m ≤ n) {key : String}
    {keys : List String} (hdrop : groups.keys.drop m = key :: keys) :
    ∃ n', n ≤ n' ∧ m + 1 ≤ n' ∧
      (takeOver loaded key ((storeAll groups).get key)).entries = groups.entries.take n' := by
  have hlt : m < groups.entries.length := by
    by_contra hge
    rw [List.drop_eq_nil_of_le (by rw [JsMap.keys, List.length_map]; omega)] at hdrop
    cases hdrop
  obtain ⟨group, hentry⟩ : ∃ group, groups.entries[m] = (key, group) := by
    rw [JsMap.keys, ← List.map_drop, List.drop_eq_getElem_cons hlt, List.map_cons] at hdrop
    exact ⟨groups.entries[m].2, Prod.ext (List.cons.inj hdrop).1 rfl⟩
  have hget : groups.get key = some group :=
    (mem_entries_iff groups key group).mp (hentry ▸ List.getElem_mem hlt)
  have htake : takeOver loaded key ((storeAll groups).get key) = loaded.set key group := by
    rw [storeAll, get_map, hget]
    show loaded.set key group.store.load = _
    rw [load_store]
  rw [htake]
  rcases Nat.lt_or_ge m n with hlt' | hge
  · -- the other call has taken it over
    have hmem : (key, group) ∈ loaded.entries := by
      rw [hentries, ← hentry]
      exact List.mem_take_iff_getElem.mpr ⟨m, by omega, rfl⟩
    rw [set_of_get ((mem_entries_iff loaded key group).mp hmem)]
    exact ⟨n, Nat.le_refl n, hlt', hentries⟩
  · obtain rfl : m = n := Nat.le_antisymm hm hge
    have hnone : JsMap.lookup key loaded.entries = none := by
      rw [lookup_eq_none_iff, hentries]
      intro hmem
      have hnodup := groups.nodup
      rw [← List.take_append_drop m groups.entries, List.map_append, List.nodup_append] at hnodup
      refine hnodup.2.2 key hmem key ?_ rfl
      rw [List.drop_eq_getElem_cons hlt, hentry]
      exact List.mem_cons_self
    refine ⟨m + 1, Nat.le_succ m, Nat.le_refl _, ?_⟩
    show JsMap.upsert key group loaded.entries = _
    rw [upsert_of_lookup_none hnone, hentries, List.take_add_one,
      List.getElem?_eq_getElem hlt, hentry]
    rfl

theorem IngestTask.Loading.step (hs : LoadedTo config groups n s) (h : task.Loading groups n rows) :
    (∃ n', n ≤ n' ∧ LoadedTo config groups n' (task.step config s).1 ∧
      (task.step config s).2.Loading groups n' rows) ∨
    task.step config s = (⟨⟨groups, true⟩, storeAll groups⟩, .ready rows) := by
  have hload : ∀ (s : AggState κ) (n' m : Nat) (keys : List String), n ≤ n' → m ≤ n' →
      LoadedTo config groups n' s → groups.keys.drop m = keys →
      (∃ n', n ≤ n' ∧ LoadedTo config groups n' (loadNext s rows keys).1 ∧
        (loadNext s rows keys).2.Loading groups n' rows) ∨
      loadNext s rows keys = (⟨⟨groups, true⟩, storeAll groups⟩, .ready rows) := by
    intro s n' m keys hn hm hs hdrop
    cases keys with
    | nil =>
      have hlength : groups.entries.length ≤ n' := by
        rw [List.drop_eq_nil_iff, JsMap.keys, List.length_map] at hdrop
        omega
      have hall : s.inst.groups = groups :=
        JsMap.ext (hs.entries.trans (List.take_of_length_le hlength))
      right
      show (AggState.mk ⟨s.inst.groups, true⟩ s.store, IngestTask.ready rows) = _
      rw [hall, hs.store]
    | cons key keys => exact .inl ⟨n', hn, hs, rfl, m, hm, hdrop⟩
  cases task with
  | waiting rows' =>
    have hnot : ¬(s.inst.loaded || !config.hasState) = true := by
      rw [hs.unloaded, hs.hasState]
      decide
    have hstep : (IngestTask.waiting rows').step config s = (s, .listing rows') := if_neg hnot
    rw [hstep]
    exact .inl ⟨n, Nat.le_refl n, hs, h⟩
  | listing rows' =>
    refine .inl ⟨n, Nat.le_refl n, hs, h, ?_⟩
    show s.store.keys = groups.keys
    rw [hs.store, keys_storeAll]
  | listed rows' keys =>
    obtain ⟨rfl, rfl⟩ := h
    exact hload s n 0 groups.keys (Nat.le_refl n) (Nat.zero_le n) hs rfl
  | getting rows' key keys =>
    obtain ⟨rfl, hplace⟩ := h
    refine .inl ⟨n, Nat.le_refl n, hs, rfl, ?_, hplace⟩
    show s.store.get key = _
    rw [hs.store]
  | got rows' key stored keys =>
    obtain ⟨rfl, rfl, m, hm, hdrop⟩ := h
    obtain ⟨n', hn, hm', hentries⟩ := entries_takeOver hs.entries hm hdrop
    have hrest : groups.keys.drop (m + 1) = keys := by
      rw [← List.drop_drop, hdrop, List.drop_succ_cons, List.drop_zero]
    exact hload ⟨⟨takeOver s.inst.groups key _, s.inst.loaded⟩, s.store⟩ n' (m + 1) keys hn hm'
      ⟨hs.hasState, hs.store, hs.unloaded, hentries⟩ hrest
  | ready | putting | put | done => exact h.elim

/-! ## Two calls -/

/-- The rows fall into no group that is held. -/
def Untouched (config : IncrementalAggregationConfig κ) (groups : JsMap String (StreamGroup κ))
    (rows : List (Row κ)) : Prop :=
  ∀ key group, groups.get key = some group → (addRows config groups rows).get key = some group

/-- How far two calls are that began with these groups. -/
inductive Progress (config : IncrementalAggregationConfig κ)
    (groups : JsMap String (StreamGroup κ)) (rows : Bool → List (Row κ)) (s : Overlap κ) : Prop
  /-- There is nothing to load. -/
  | loaded (hnone : (s.shared.inst.loaded || !config.hasState) = true)
      (hgroups : s.shared.inst.groups = groups)
      (htasks : ∀ i, s.task i = .waiting (rows i) ∨ s.task i = .ready (rows i))
  /-- Both calls load the state, and no batch changes it. -/
  | loading (n : Nat) (huntouched : ∀ i, Untouched config groups (rows i))
      (hstate : LoadedTo config groups n s.shared)
      (htasks : ∀ i, (s.task i).Loading groups n (rows i))
  /-- One of them has loaded it, and the other may still take over what is in memory. -/
  | ready (huntouched : ∀ i, Untouched config groups (rows i))
      (hshared : s.shared = ⟨⟨groups, true⟩, storeAll groups⟩)
      (htasks : ∀ i, (s.task i).Pending (rows i) s.shared)
  /-- One of them has added its batch. -/
  | one (i : Bool) (hloaded : s.shared.inst.loaded = true)
      (hgroups : s.shared.inst.groups = addRows config groups (rows i))
      (hsaving : (s.task i).Saving s.shared.inst.groups)
      (hpending : (s.task !i).Pending (rows !i) s.shared)
  | both (i : Bool) (hloaded : s.shared.inst.loaded = true)
      (hgroups : s.shared.inst.groups =
        addRows config (addRows config groups (rows i)) (rows !i))
      (htasks : ∀ j, (s.task j).Added)

variable (config) in
theorem task_step_self (s : Overlap κ) (i : Bool) :
    (s.step config i).task i = ((s.task i).step config s.shared).2 :=
  Function.update_self ..

variable (config) in
theorem task_step_other (s : Overlap κ) {i j : Bool} (h : j ≠ i) :
    (s.step config i).task j = s.task j :=
  Function.update_of_ne h ..

omit [StreamCells κ] in
theorem stored_storeAll : Stored groups (storeAll groups) := by
  intro key stored hget
  rw [storeAll, get_map] at hget
  obtain ⟨group, hgroup, rfl⟩ := Option.map_eq_some_iff.mp hget
  rw [load_store, hgroup]

omit [StreamCells κ] in
theorem IngestTask.Loading.pending (h : task.Loading groups n rows) :
    task.Pending rows ⟨⟨groups, true⟩, storeAll groups⟩ := by
  cases task with
  | waiting => exact h
  | listing => exact ⟨h, stored_storeAll⟩
  | listed | getting => exact ⟨h.1, stored_storeAll⟩
  | got rows' key stored keys =>
    exact ⟨h.1, stored_storeAll, fun group hgroup => stored_storeAll key group (h.2.1 ▸ hgroup)⟩
  | ready | putting | put | done => exact h.elim

/-- The other call adds a batch that changes no stored group. -/
theorem IngestTask.Pending.grow {rows' : List (Row κ)}
    (h : task.Pending rows ⟨⟨groups, true⟩, storeAll groups⟩)
    (hother : Untouched config groups rows') :
    task.Pending rows ⟨⟨addRows config groups rows', true⟩, storeAll groups⟩ := by
  have hstored : Stored (addRows config groups rows') (storeAll groups) :=
    fun key stored hget => hother key stored.load (stored_storeAll key stored hget)
  cases task with
  | waiting | ready => exact h
  | listing | listed | getting => exact ⟨h.1, hstored⟩
  | got rows'' key stored keys =>
    exact ⟨h.1, hstored, fun group hgroup => hother key group.load (h.2.2 group hgroup)⟩
  | putting | put | done => exact h.elim

variable {s : Overlap κ} {rows : Bool → List (Row κ)}

/-- Whichever call takes the next step, the two together stay in one of the five stages. -/
theorem Progress.step (h : Progress config groups rows s) (j : Bool) :
    Progress config groups rows (s.step config j) := by
  have hself := task_step_self config s j
  have hother : (s.step config j).task (!j) = s.task (!j) :=
    task_step_other config s (Bool.not_ne_self j)
  have htasks : ∀ P : Bool → IngestTask κ → Prop, P j ((s.task j).step config s.shared).2 →
      P (!j) (s.task (!j)) → ∀ i, P i ((s.step config j).task i) := by
    intro P hj hnot i
    rcases Bool.eq_or_eq_not i j with rfl | rfl
    · rw [hself]
      exact hj
    · rw [hother]
      exact hnot
  cases h with
  | loaded hnone hgroups htask =>
    rcases htask j with hwaiting | hready
    · have hstep := step_waiting_of_loaded (rows j) hnone
      rw [← hwaiting] at hstep
      refine .loaded ?_ ?_ (htasks (fun i task => task = .waiting (rows i) ∨ task = .ready (rows i))
        (.inr ?_) (htask _))
      · show (((s.task j).step config s.shared).1.inst.loaded || _) = true
        rw [hstep, Bool.true_or]
      · show ((s.task j).step config s.shared).1.inst.groups = groups
        rw [hstep, hgroups]
      · rw [hstep]
    · have hstep : (s.task j).step config s.shared =
          IngestTask.addBatch config s.shared (rows j) := by
        rw [hready]
        rfl
      refine .one j ?_ ?_ ?_ ?_
      · show ((s.task j).step config s.shared).1.inst.loaded = true
        rw [hstep]
        rfl
      · show ((s.task j).step config s.shared).1.inst.groups = _
        rw [hstep, ← hgroups]
        rfl
      · rw [hself]
        show ((s.task j).step config s.shared).2.Saving
          ((s.task j).step config s.shared).1.inst.groups
        rw [hstep]
        exact saveNext_saving config _ _
      · rw [hother]
        rcases htask (!j) with hnot | hnot
        · rw [hnot]
          rfl
        · rw [hnot]
          rfl
  -- one call may end its load here: both hold the stored groups then
  | loading n huntouched hstate htask =>
    rcases (htask j).step hstate with ⟨n', hn, hstate', hloading⟩ | hstep
    · exact .loading n' huntouched hstate'
        (htasks (fun i task => task.Loading groups n' (rows i)) hloading ((htask _).mono hn))
    · have hshared' : (s.step config j).shared = ⟨⟨groups, true⟩, storeAll groups⟩ :=
        congrArg Prod.fst hstep
      refine .ready huntouched hshared' ?_
      rw [hshared']
      refine htasks (fun i task => task.Pending (rows i) _) ?_ (htask _).pending
      rw [hstep]
      rfl
  | ready huntouched hshared htask =>
    have hloaded : s.shared.inst.loaded = true := by rw [hshared]
    rcases (htask j).step config hloaded with ⟨hsame, hpending⟩ | hstep
    · have hshared' : (s.step config j).shared = s.shared := hsame
      refine .ready huntouched (hshared'.trans hshared) ?_
      rw [hshared']
      exact htasks (fun i task => task.Pending (rows i) s.shared) hpending (htask _)
    · rw [hshared] at hstep htask
      have hshared' : (s.step config j).shared =
          ⟨⟨addRows config groups (rows j), true⟩, storeAll groups⟩ := by
        show ((s.task j).step config s.shared).1 = _
        rw [hshared, hstep]
        rfl
      refine .one j ?_ ?_ ?_ ?_
      · rw [hshared']
      · rw [hshared']
      · rw [hself, hshared', hshared, hstep]
        exact saveNext_saving config _ _
      · rw [hother, hshared']
        exact (htask _).grow (huntouched j)
  | one i hloaded hgroups hsaving hpending =>
    -- either the call that has added its batch saves on, or the other one adds its own
    rcases Bool.eq_or_eq_not j i with rfl | rfl
    · obtain ⟨hsaving', hstored⟩ := hsaving.step config
      have hinst : (s.step config j).shared.inst = s.shared.inst := (hsaving.added.step config).1
      refine .one j ?_ ?_ ?_ ?_
      · rw [hinst, hloaded]
      · rw [hinst, hgroups]
      · rw [hself, hinst]
        exact hsaving'
      · rw [hother]
        exact hpending.frame hinst hstored
    · have hkept : (s.step config !i).task i = s.task i :=
        task_step_other config s (Bool.not_ne_self i).symm
      rcases hpending.step config hloaded with ⟨hshared, hpending'⟩ | hstep
      · have hshared' : (s.step config !i).shared = s.shared := hshared
        refine .one i ?_ ?_ ?_ ?_
        · rw [hshared', hloaded]
        · rw [hshared', hgroups]
        · rw [hkept, hshared']
          exact hsaving
        · rw [hself, hshared']
          exact hpending'
      · refine .both i ?_ ?_ (htasks (fun _ task => task.Added) ?_ ?_)
        · show ((s.task !i).step config s.shared).1.inst.loaded = true
          rw [hstep]
          rfl
        · show ((s.task !i).step config s.shared).1.inst.groups = _
          rw [hstep, ← hgroups]
          rfl
        · rw [hstep]
          exact (saveNext_saving config _ _).added
        · rw [Bool.not_not]
          exact hsaving.added
  | both i hloaded hgroups hadded =>
    obtain ⟨hinst, hadded'⟩ := (hadded j).step config (s := s.shared)
    have hinst' : (s.step config j).shared.inst = s.shared.inst := hinst
    refine .both i ?_ ?_ (htasks (fun _ task => task.Added) hadded' (hadded _))
    · rw [hinst', hloaded]
    · rw [hinst', hgroups]

theorem progress_run (h : Progress config groups rows s) (schedule : List Bool) :
    Progress config groups rows (s.run config schedule) := by
  induction schedule generalizing s with
  | nil => exact h
  | cons j schedule ih => exact ih (h.step j)

theorem progress_start {s : AggState κ} (hs : Holding config s groups)
    (hcond : (s.inst.loaded || !config.hasState) = true ∨
      ∀ i, Untouched config groups (rows i)) :
    Progress config groups rows (Overlap.start s rows) := by
  by_cases hnone : (s.inst.loaded || !config.hasState) = true
  · refine .loaded hnone (hs.loaded ?_) fun i => .inl rfl
    simpa using hnone
  · have hload : s.inst.loaded = false ∧ config.hasState = true := by simpa using hnone
    refine .loading 0 (hcond.resolve_left hnone)
      ⟨hload.2, hs.store hload.2, hload.1, ?_⟩ fun i => rfl
    show s.inst.groups.entries = _
    rw [hs.unloaded hload.1 hload.2]
    rfl

theorem Progress.done (h : Progress config groups rows s) (hdone : ∀ i, s.task i = .done) :
    s.shared.inst.loaded = true ∧ ∃ i, s.shared.inst.groups =
      addRows config (addRows config groups (rows i)) (rows !i) := by
  cases h with
  | loaded _ _ htasks =>
    rcases htasks true with h | h
    · rw [hdone true] at h
      exact nomatch h
    · rw [hdone true] at h
      exact nomatch h
  | loading n _ _ htasks | ready _ _ htasks =>
    have htask := htasks true
    rw [hdone true] at htask
    exact htask.elim
  | one i _ _ _ hpending =>
    rw [hdone !i] at hpending
    exact hpending.elim
  | both i hloaded hgroups _ => exact ⟨hloaded, i, hgroups⟩

end Overlapping

end Promin.Data
