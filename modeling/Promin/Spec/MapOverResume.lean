import Promin.Spec.LoopResume
import Promin.Durable.RunRecord
import Promin.Durable.MapOverStep

/-!
# Resuming a map step

A completed task row stores what its element answers (`RowsSound`).
-/

namespace Promin.Durable.MapOverStep

open List hiding map

open InMemoryWorkflowStorage JsMap Option Machine

variable {α : Type} (m : MapOverStep α) (x : StepExec)

/-! ## Task rows -/

def tasksOf (s : InMemoryWorkflowStorage) : List StepTaskState :=
  ((m.rowIn x s).bind (·.tasks)).getD []

def CompletedIn (s : InMemoryWorkflowStorage) (i : Nat) : Prop :=
  ∃ t ∈ m.tasksOf x s, t.taskIndex = (i : Int) ∧ t.status = .completed

structure RowsSound (s : InMemoryWorkflowStorage) : Prop where
  run : (s.workflows.get x.workflowId).isSome = true
  stored : ∀ t ∈ m.tasksOf x s, ∀ i : Nat, t.status = .completed → t.taskIndex = (i : Int) →
    i < m.length → ∃ a, m.element i = .ok a ∧ t.result = some (m.codec.encode a)

variable {m} {x} {s s' : InMemoryWorkflowStorage}

theorem tasksOf_congr (h : s'.workflows = s.workflows) :
    m.tasksOf x s' = m.tasksOf x s := by
  simp only [tasksOf, rowIn, h]

theorem RowsSound.congr (h : m.RowsSound x s)
    (hrows : s'.workflows = s.workflows) : m.RowsSound x s' := by
  refine ⟨?_, ?_⟩
  · rw [hrows]
    exact h.run
  · rw [tasksOf_congr hrows]
    exact h.stored

theorem mem_writeTaskRow (s : InMemoryWorkflowStorage) (wf : MutableWorkflow) (stepName : String)
    (k : Int) (outcome : TaskOutcome) :
    ∃ row task tasks, (s.writeTaskRow wf stepName k outcome).steps = wf.steps.set stepName row ∧
      row.tasks = some tasks ∧ task.taskIndex = k ∧
      (task.status = .completed ↔ ∃ result, outcome = .completed result) ∧
      (∀ result, outcome = .completed result → task.result = some result) ∧
      ∀ t, t ∈ tasks ↔ t = task ∨
        (t ∈ ((wf.steps.get stepName).bind (·.tasks)).getD [] ∧ t.taskIndex ≠ k) := by
  refine ⟨_, taskOf ((((wf.steps.get stepName).bind (·.tasks)).getD []).find? fun t =>
    t.taskIndex == k) k outcome s.now, _, rfl, rfl, rfl, ?_, ?_, ?_⟩
  · cases outcome with
    | completed result | failed error => simp [taskOf]
  · intro result houtcome
    subst houtcome
    rfl
  · intro t
    split
    · rename_i hprev
      obtain ⟨prev, hfound⟩ := isSome_iff_exists.mp hprev
      have hk : (prev.taskIndex == k) = true := by simpa using find?_some hfound
      rw [List.mem_map]
      constructor
      · intro hmem
        obtain ⟨u, hu, rfl⟩ := hmem
        by_cases huk : (u.taskIndex == k) = true
        · exact .inl (if_pos huk)
        · rw [if_neg huk]
          exact .inr ⟨hu, by simpa using huk⟩
      · intro hmem
        cases hmem with
        | inl hnew =>
          exact ⟨prev, mem_of_find?_eq_some hfound, (if_pos hk).trans hnew.symm⟩
        | inr hold =>
          refine ⟨t, hold.1, if_neg ?_⟩
          simpa using hold.2
    · rename_i hprev
      have hnone : ∀ u ∈ ((wf.steps.get stepName).bind (·.tasks)).getD [], u.taskIndex ≠ k := by
        intro u hu hk
        apply hprev
        rw [find?_isSome]
        exact ⟨u, hu, by simpa using hk⟩
      rw [mem_append, mem_singleton]
      constructor
      · intro hmem
        cases hmem with
        | inl hold => exact .inr ⟨hold, hnone t hold⟩
        | inr hnew => exact .inl hnew
      · intro hmem
        cases hmem with
        | inl hnew => exact .inr hnew
        | inr hold => exact .inl hold.1

variable {s : InMemoryWorkflowStorage}

theorem mem_tasksOf_saveTask (h : m.RowsSound x s) (i : Nat) (outcome : TaskOutcome)
    (g : FenceGuard) :
    (∃ e, s.saveTask x.workflowId m.name i outcome g = (s, .error e) ∧ FencedOut g e.thrown) ∨
    ∃ s' task, s.saveTask x.workflowId m.name i outcome g = (s', .ok ()) ∧
      (s'.workflows.get x.workflowId).isSome = true ∧ task.taskIndex = (i : Int) ∧
      (task.status = .completed ↔ ∃ result, outcome = .completed result) ∧
      (∀ result, outcome = .completed result → task.result = some result) ∧
      ∀ t, t ∈ m.tasksOf x s' ↔ t = task ∨ (t ∈ m.tasksOf x s ∧ t.taskIndex ≠ (i : Int)) := by
  obtain ⟨wf, hwf⟩ := isSome_iff_exists.mp h.run
  unfold saveTask fencedWrite
  simp only [hwf]
  cases fenced_cases s x.workflowId g
      (s.putRun x.workflowId (s.writeTaskRow wf m.name i outcome), .ok ()) with
  | inl hrejected =>
    obtain ⟨e, hfence, hrejected⟩ := hrejected
    refine .inl ⟨_, hrejected, rfl, ?_⟩
    cases hg : truthy g with
    | true => rfl
    | false => simp [InMemoryLeaseTable.checkFence, hg] at hfence
  | inr hpassed =>
    obtain ⟨row, task, tasks, hsteps, htasks, hindex, hstatus, hresult, hmem⟩ :=
      mem_writeTaskRow s wf m.name i outcome
    have hrun : (s.putRun x.workflowId (s.writeTaskRow wf m.name i outcome)).workflows.get
        x.workflowId = some (s.writeTaskRow wf m.name i outcome) := get_set_self _ _ _
    refine .inr ⟨_, task, hpassed.2, by rw [hrun]; rfl, hindex, hstatus, hresult, ?_⟩
    intro t
    have hold : m.tasksOf x s = ((wf.steps.get m.name).bind (·.tasks)).getD [] := by
      simp only [tasksOf, rowIn, hwf, bind_some]
    have hnew : m.tasksOf x (s.putRun x.workflowId (s.writeTaskRow wf m.name i outcome)) =
        tasks := by
      simp only [tasksOf, rowIn, hrun, bind_some, hsteps, get_set_self, htasks,
        getD_some]
    rw [hold, hnew]
    exact hmem t

/-! ## Decoding the rows -/

theorem decodeCompletedTasks_get (hcodec : m.codec.Lossless) (h : m.RowsSound x s) (i : Nat) :
    (∀ a, (m.decodeCompletedTasks (m.rowIn x s)).get i = some a →
      i < m.length ∧ m.element i = .ok a) ∧
    (i < m.length → ((m.decodeCompletedTasks (m.rowIn x s)).has i = true ↔
      m.CompletedIn x s i)) := by
  have hfold : ∀ (tasks : List StepTaskState) (saved : JsMap Nat α),
      (∀ t ∈ tasks, ∀ i : Nat, t.status = .completed → t.taskIndex = (i : Int) →
        i < m.length → ∃ a, m.element i = .ok a ∧ t.result = some (m.codec.encode a)) →
      (∀ a, saved.get i = some a → i < m.length ∧ m.element i = .ok a) →
      let folded := tasks.foldl (fun saved task =>
        if task.status ≠ .completed then saved
        else if task.taskIndex < 0 ∨ task.taskIndex ≥ (m.length : Int) then saved
        else saved.set task.taskIndex.toNat (m.codec.decode (task.result.getD .undefined))) saved
      (∀ a, folded.get i = some a → i < m.length ∧ m.element i = .ok a) ∧
        (i < m.length → (folded.has i = true ↔ saved.has i = true ∨
          ∃ t ∈ tasks, t.taskIndex = (i : Int) ∧ t.status = .completed)) := by
    intro tasks
    induction tasks with
    | nil =>
      intro saved _ hsaved
      refine ⟨hsaved, fun _ => ?_⟩
      simp
    | cons t tasks ih =>
      intro saved hstored hsaved
      have htail := fun u hu => hstored u (mem_cons_of_mem t hu)
      simp only [foldl_cons]
      split
      · -- Not completed: the row counts as missing.
        rename_i hopen
        obtain ⟨hget, hhas⟩ := ih saved htail hsaved
        refine ⟨hget, fun hi => ?_⟩
        rw [hhas hi]
        simp [hopen]
      · rename_i hdone
        have hstatus : t.status = .completed := not_not.mp hdone
        split
        · rename_i hout
          obtain ⟨hget, hhas⟩ := ih saved htail hsaved
          refine ⟨hget, fun hi => ?_⟩
          have hne : t.taskIndex ≠ (i : Int) := by omega
          rw [hhas hi]
          simp [hne]
        · rename_i hin
          have hnat : t.taskIndex = (t.taskIndex.toNat : Int) := by omega
          have hlt : t.taskIndex.toNat < m.length := by omega
          obtain ⟨a, ha, hresult⟩ :=
            hstored t mem_cons_self t.taskIndex.toNat hstatus hnat hlt
          have hdecoded : m.codec.decode (t.result.getD .undefined) = a := by
            rw [hresult, getD_some, hcodec]
          rw [hdecoded]
          obtain ⟨hget, hhas⟩ := ih (saved.set t.taskIndex.toNat a) htail (by
            intro b hb
            rw [get_set] at hb
            split at hb
            · rename_i heq
              subst heq
              cases hb
              exact ⟨hlt, ha⟩
            · exact hsaved b hb)
          refine ⟨hget, fun hi => ?_⟩
          rw [hhas hi]
          by_cases heq : t.taskIndex.toNat = i
          · have hindex : t.taskIndex = (i : Int) := by omega
            simp [JsMap.has, hindex, hstatus]
          · have hindex : t.taskIndex ≠ (i : Int) := by omega
            simp [JsMap.has, get_set, heq, hindex]
  obtain ⟨hget, hhas⟩ := hfold (m.tasksOf x s) JsMap.empty h.stored fun a ha => by cases ha
  refine ⟨hget, fun hi => ?_⟩
  have hhas' := hhas hi
  simp only [JsMap.has, get_empty, isSome_none, Bool.false_eq_true, false_or] at hhas'
  exact hhas'

/-! ## A running process -/

variable (m) (x)

def ElementFails (e : Thrown) : Prop :=
  ∃ i < m.length, m.element i = .fail e ∨ m.element i = .die e

/-- What a running process knows of the elements and of their rows. -/
structure ProcessSound (s : InMemoryWorkflowStorage) (p : MapProcess α) : Prop where
  saved : ∀ i a, p.saved.get i = some a → i < m.length ∧ m.element i = .ok a
  missing : p.missing = (range m.length).filter fun i => !p.saved.has i
  ended : ∀ i exit, p.ended.get i = some exit →
    exit = m.element i ∧ i ∈ p.missing ∧ p.fresh.has i = false
  fresh : ∀ i a, p.fresh.get i = some a → i ∈ p.missing ∧ m.element i = .ok a
  completed : ∀ i < m.length,
    (m.CompletedIn x s i ↔ p.saved.has i = true ∨ p.fresh.has i = true)
  failed : ∀ e, p.failed = some e → m.ElementFails e ∨ FencedOut p.guard_ e

structure Sound (w : MapWorld α) : Prop where
  rows : m.RowsSound x w.storage
  process : ∀ p, w.process = some p → m.ProcessSound x w.storage p

variable {m} {x} {p : MapProcess α}

theorem mem_missing (h : m.ProcessSound x s p)
    (i : Nat) : i ∈ p.missing ↔ i < m.length ∧ p.saved.has i = false := by
  rw [h.missing, mem_filter, mem_range]
  simp

theorem ProcessSound.congr (h : m.ProcessSound x s p) (htasks : m.tasksOf x s' = m.tasksOf x s) :
    m.ProcessSound x s' p :=
  { h with completed := by simpa only [CompletedIn, htasks] using h.completed }

theorem start_sound (hcodec : m.codec.Lossless) (h : m.RowsSound x s) (g : FenceGuard) :
    m.ProcessSound x s (m.start x g s) where
  saved := fun i a ha => (decodeCompletedTasks_get hcodec h i).1 a ha
  missing := rfl
  ended := fun _ _ hend => nomatch hend
  fresh := fun _ _ hfresh => nomatch hfresh
  completed := by
    intro i hi
    have hhas := (decodeCompletedTasks_get hcodec h i).2 hi
    rw [← hhas]
    simp [start, JsMap.has]
  failed := fun _ hfailed => nomatch hfailed

variable {w : MapWorld α}

theorem runElement_sound (hp : w.process = some p) (h : m.Sound x w) (i : Nat) :
    m.Sound x (m.runElement w p i) ∧
      ((m.runElement w p i).events = w.events ∨
        (m.runElement w p i).events = w.events ++ [i] ∧ ¬ m.CompletedIn x w.storage i) := by
  have hsound := h.process p hp
  unfold runElement
  split
  · rename_i hruns
    simp only [Bool.and_eq_true, Bool.not_eq_true', isNone_iff_eq_none,
      contains_eq_mem, decide_eq_true_eq] at hruns
    obtain ⟨⟨⟨hgoing, hmissing⟩, hended⟩, hfresh⟩ := hruns
    obtain ⟨hlt, hsaved⟩ := (mem_missing hsound i).mp hmissing
    constructor
    · refine ⟨h.rows, fun p' hp' => ?_⟩
      cases hp'
      refine { hsound with ended := fun j exit hexit => ?_ }
      simp only [get_set] at hexit
      split at hexit
      · rename_i heq
        subst heq
        cases hexit
        exact ⟨rfl, hmissing, hfresh⟩
      · exact hsound.ended j exit hexit
    · right
      refine ⟨rfl, fun hcompleted => ?_⟩
      rw [hsound.completed i hlt, hsaved, hfresh] at hcompleted
      simp at hcompleted
  · exact ⟨h, .inl rfl⟩

theorem ProcessSound.fail (h : m.ProcessSound x s p) (i : Nat) {e : Thrown}
    (he : m.ElementFails e ∨ FencedOut p.guard_ e) :
    m.ProcessSound x s
      { p with ended := p.ended.delete i, failed := p.failed.or (some e) } := by
  refine { h with ended := fun j exit hexit => ?_, failed := fun e' he' => ?_ }
  · simp only [get_delete] at hexit
    split at hexit
    · cases hexit
    · exact h.ended j exit hexit
  · cases hfailed : p.failed with
    | none =>
      rw [hfailed, none_or] at he'
      cases he'
      exact he
    | some e'' =>
      rw [hfailed, some_or] at he'
      exact h.failed e' (hfailed.trans he')

/-- Writing a row. -/
theorem saveElement_sound (hp : w.process = some p) (h : m.Sound x w) (i : Nat) :
    m.Sound x (m.saveElement x w p i) ∧ (m.saveElement x w p i).events = w.events := by
  have hsound := h.process p hp
  unfold saveElement
  simp only
  cases hended : p.ended.get i with
  | none => exact ⟨h, rfl⟩
  | some exit =>
    obtain ⟨hexit, hmissing, hfresh⟩ := hsound.ended i exit hended
    obtain ⟨hlt, hsaved⟩ := (mem_missing hsound i).mp hmissing
    have hopen : ¬ m.CompletedIn x w.storage i := by
      rw [hsound.completed i hlt, hsaved, hfresh]
      simp
    cases exit with
    | die e =>
      refine ⟨⟨h.rows, fun p' hp' => ?_⟩, rfl⟩
      cases hp'
      -- nothing is written of a thrown element
      exact hsound.fail i (.inl ⟨i, hlt, .inr hexit.symm⟩)
    | fail e =>
      simp only
      have hfails : m.ElementFails e := ⟨i, hlt, .inl hexit.symm⟩
      split
      · refine ⟨⟨h.rows, fun p' hp' => ?_⟩, rfl⟩
        cases hp'
        exact hsound.fail i (.inl hfails)
      · cases mem_tasksOf_saveTask h.rows i (.failed (failureMessage e)) p.guard_ with
        | inl hrejected =>
          obtain ⟨e', hsave, hfenced⟩ := hrejected
          simp only [hsave]
          refine ⟨⟨h.rows, fun p' hp' => ?_⟩, trivial⟩
          cases hp'
          exact hsound.fail i (.inr hfenced)
        | inr hwritten =>
          obtain ⟨s', task, hsave, hrun, hindex, hstatus, -, hmem⟩ := hwritten
          simp only [hsave]
          have hnot : task.status ≠ .completed := fun heq => by
            cases (hstatus.mp heq).choose_spec
          -- a failed row takes the place of a failed row only
          have hcompleted : ∀ j, m.CompletedIn x s' j ↔ m.CompletedIn x w.storage j := by
            intro j
            constructor
            · intro hj
              obtain ⟨t, ht, hti, hts⟩ := hj
              cases (hmem t).mp ht with
              | inl hnew => exact absurd (hnew ▸ hts) hnot
              | inr hold => exact ⟨t, hold.1, hti, hts⟩
            · intro hj
              obtain ⟨t, ht, hti, hts⟩ := hj
              refine ⟨t, (hmem t).mpr (.inr ⟨ht, fun hi => ?_⟩), hti, hts⟩
              exact hopen ⟨t, ht, hi, hts⟩
          refine ⟨⟨⟨hrun, fun t ht j hts hti hj => ?_⟩, fun p' hp' => ?_⟩, trivial⟩
          · cases (hmem t).mp ht with
            | inl hnew => exact absurd (hnew ▸ hts) hnot
            | inr hold => exact h.rows.stored t hold.1 j hts hti hj
          · cases hp'
            have hfailed := hsound.fail i (.inl hfails)
            exact { hfailed with
              completed := fun j hj => (hcompleted j).trans (hsound.completed j hj) }
    | ok a =>
      simp only
      cases mem_tasksOf_saveTask h.rows i (.completed (m.codec.encode a)) p.guard_ with
      | inl hrejected =>
        obtain ⟨e', hsave, hfenced⟩ := hrejected
        simp only [hsave]
        refine ⟨⟨h.rows, fun p' hp' => ?_⟩, trivial⟩
        cases hp'
        exact hsound.fail i (.inr hfenced)
      | inr hwritten =>
        obtain ⟨s', task, hsave, hrun, hindex, hstatus, hresult, hmem⟩ := hwritten
        simp only [hsave]
        have hdone : task.status = .completed := hstatus.mpr ⟨_, rfl⟩
        refine ⟨⟨⟨hrun, fun t ht j hts hti hj => ?_⟩, fun p' hp' => ?_⟩, trivial⟩
        · cases (hmem t).mp ht with
          | inl hnew =>
            subst hnew
            have hij : i = j := by
              rw [hindex] at hti
              omega
            subst hij
            exact ⟨a, hexit.symm, hresult _ rfl⟩
          | inr hold => exact h.rows.stored t hold.1 j hts hti hj
        · cases hp'
          -- the element moves from `ended` to `fresh`
          refine {
            saved := hsound.saved, missing := hsound.missing, failed := hsound.failed
            ended := fun j exit hend => ?_, fresh := fun j b hb => ?_
            completed := fun j hj => ?_ }
          · simp only [get_delete] at hend
            split at hend
            · cases hend
            · rename_i hne
              obtain ⟨hexit', hmissing', hfresh'⟩ := hsound.ended j exit hend
              refine ⟨hexit', hmissing', ?_⟩
              simpa [JsMap.has, get_set, hne] using hfresh'
          · simp only [get_set] at hb
            split at hb
            · rename_i heq
              subst heq
              cases hb
              exact ⟨hmissing, hexit.symm⟩
            · exact hsound.fresh j b hb
          · have hold := hsound.completed j hj
            by_cases heq : i = j
            · subst heq
              have hthis : m.CompletedIn x s' i := ⟨task, (hmem task).mpr (.inl rfl), hindex, hdone⟩
              simp [hthis, JsMap.has]
            · have hsame : m.CompletedIn x s' j ↔ m.CompletedIn x w.storage j := by
                constructor
                · intro hj'
                  obtain ⟨t, ht, hti, hts⟩ := hj'
                  cases (hmem t).mp ht with
                  | inl hnew =>
                    rw [hnew, hindex] at hti
                    omega
                  | inr hmem' => exact ⟨t, hmem'.1, hti, hts⟩
                · intro hj'
                  obtain ⟨t, ht, hti, hts⟩ := hj'
                  exact ⟨t, (hmem t).mpr (.inr ⟨ht, by omega⟩), hti, hts⟩
              rw [hsame, hold]
              simp [JsMap.has, get_set, heq]

theorem traffic_workflows (t : LockTraffic) (s : InMemoryWorkflowStorage) :
    (storage.next s (t.op x.workflowId)).workflows = s.workflows := by
  obtain ⟨leases, now, h⟩ := run_traffic x.workflowId [t] s
  rw [map_singleton, run_cons, run_nil] at h
  rw [h]

/-- Every event keeps rows and process sound, and runs an element only while it has no completed
row. -/
theorem step_sound (hcodec : m.codec.Lossless) (h : m.Sound x w) (e : MapEvent) :
    m.Sound x ((m.machine x).next w e) ∧
      (((m.machine x).next w e).events = w.events ∨
        ∃ i, ((m.machine x).next w e).events = w.events ++ [i] ∧
          ¬ m.CompletedIn x w.storage i) := by
  cases e with
  | traffic t =>
    have hrows := traffic_workflows (x := x) t w.storage
    refine ⟨⟨h.rows.congr hrows, fun p hp => ?_⟩, .inl rfl⟩
    exact (h.process p hp).congr (tasksOf_congr hrows)
  | load g =>
    show m.Sound x (m.stepMap x w (.load g)) ∧ ((m.stepMap x w (.load g)).events = w.events ∨ _)
    unfold stepMap
    cases hp : w.process with
    | none =>
      refine ⟨⟨h.rows, fun p hp' => ?_⟩, .inl rfl⟩
      cases hp'
      exact start_sound hcodec h.rows g
    | some p =>
      exact ⟨h, .inl rfl⟩
  | run i =>
    cases hp : w.process with
    | none =>
      have hsame : (m.machine x).next w (.run i) = w := by
        show m.stepMap x w (.run i) = w
        simp only [stepMap, hp]
      rw [hsame]
      exact ⟨h, .inl rfl⟩
    | some p =>
      have hruns : (m.machine x).next w (.run i) = m.runElement w p i := by
        show m.stepMap x w (.run i) = _
        simp only [stepMap, hp]
      rw [hruns]
      obtain ⟨hsound, hevents⟩ := runElement_sound hp h i
      refine ⟨hsound, ?_⟩
      cases hevents with
      | inl hsame => exact .inl hsame
      | inr hran => exact .inr ⟨i, hran⟩
  | save i =>
    show m.Sound x (m.stepMap x w (.save i)) ∧ ((m.stepMap x w (.save i)).events = w.events ∨ _)
    unfold stepMap
    cases hp : w.process with
    | none => exact ⟨h, .inl rfl⟩
    | some p =>
      obtain ⟨hsound, hevents⟩ := saveElement_sound hp h i
      exact ⟨hsound, .inl hevents⟩
  | stop => exact ⟨⟨h.rows, fun _ hp => nomatch hp⟩, .inl rfl⟩

/-! ## Joining the results -/

def resultOf (m : MapOverStep α) (i : Nat) : Option α :=
  match m.element i with
  | .ok a => some a
  | .fail _ => none
  | .die _ => none

theorem resultOf_eq_some {i : Nat} {a : α} (h : m.element i = .ok a) : m.resultOf i = some a := by
  simp [resultOf, h]

theorem get_of_has {β : Type} {saved : JsMap Nat β} {i : Nat} (h : saved.has i = true) :
    ∃ a, saved.get i = some a := isSome_iff_exists.mp h

theorem joined_eq (h : m.ProcessSound x s p) (hdone : p.missing.all p.fresh.has = true) :
    (∀ i < m.length, ∃ a, m.element i = .ok a) ∧
      m.joined p = (range m.length).map m.resultOf := by
  have hfresh : ∀ i ∈ p.missing, ∃ a, p.fresh.get i = some a ∧ m.element i = .ok a := by
    intro i hi
    obtain ⟨a, ha⟩ := get_of_has (List.all_eq_true.mp hdone i hi)
    exact ⟨a, ha, (h.fresh i a ha).2⟩
  have hsaved : ∀ i, p.saved.has i = true → p.saved.get i = m.resultOf i := by
    intro i hi
    obtain ⟨a, ha⟩ := get_of_has hi
    rw [ha, resultOf_eq_some (h.saved i a ha).2]
  have hran : ∀ i ∈ p.missing, p.fresh.get i = m.resultOf i := by
    intro i hi
    obtain ⟨a, ha, helement⟩ := hfresh i hi
    rw [ha, resultOf_eq_some helement]
  constructor
  · intro i hi
    cases hhas : p.saved.has i with
    | true =>
      obtain ⟨a, ha⟩ := get_of_has hhas
      exact ⟨a, (h.saved i a ha).2⟩
    | false =>
      obtain ⟨a, -, ha⟩ := hfresh i ((mem_missing h i).mpr ⟨hi, hhas⟩)
      exact ⟨a, ha⟩
  · unfold joined
    split
    · -- Every element was decoded.
      rename_i hempty
      apply map_congr_left
      intro i hi
      apply hsaved i
      cases hhas : p.saved.has i with
      | true => rfl
      | false =>
        have hmem := (mem_missing h i).mpr ⟨mem_range.mp hi, hhas⟩
        rw [isEmpty_iff.mp hempty] at hmem
        exact absurd hmem List.not_mem_nil
    · split
      · -- None was, so the elements that ran are all of them.
        rename_i hsize
        have hnone : ∀ i, p.saved.has i = false := by
          intro i
          cases hget : p.saved.get i with
          | none => simp [JsMap.has, hget]
          | some a =>
            have hmem := (mem_entries_iff p.saved i a).mpr hget
            have hempty : p.saved.entries = [] := length_eq_zero_iff.mp hsize
            rw [hempty] at hmem
            exact absurd hmem List.not_mem_nil
        have hall : p.missing = range m.length := by
          rw [h.missing, filter_eq_self]
          intro i _
          rw [hnone i]
          rfl
        rw [← hall]
        exact map_congr_left hran
      · apply map_congr_left
        intro i hi
        split
        · rename_i hhas
          exact hsaved i hhas
        · rename_i hhas
          apply hran i
          exact (mem_missing h i).mpr ⟨mem_range.mp hi, by simpa using hhas⟩

/-! ## Ending -/

/-- The process has neither failed nor an element whose row is to be written, and no lock to
lose. -/
def Idle (w : MapWorld α) : Prop :=
  ∃ p, w.process = some p ∧ p.failed = none ∧ p.ended = JsMap.empty ∧ truthy p.guard_ = false

/-- An idle step that runs an element and writes its row is idle again and has the result. -/
theorem runAndSave
    (hok : ∀ i < m.length, ∃ a, m.element i = .ok a) (h : m.Sound x w) (hidle : Idle w) (i : Nat) :
    Idle ((m.machine x).run w [.run i, .save i]) ∧ ∀ p, w.process = some p →
      ∃ p', ((m.machine x).run w [.run i, .save i]).process = some p' ∧
        p'.missing = p.missing ∧ (i ∈ p.missing → p'.fresh.has i = true) ∧
        ∀ j, p.fresh.has j = true → p'.fresh.has j = true := by
  obtain ⟨p, hp, hfailed, hended, hguard⟩ := hidle
  have hsound := h.process p hp
  have hrun : (m.machine x).next w (.run i) = m.runElement w p i := by
    show m.stepMap x w (.run i) = _
    simp only [stepMap, hp]
  have hboth : (m.machine x).run w [.run i, .save i] =
      (m.machine x).next ((m.machine x).next w (.run i)) (.save i) := rfl
  by_cases hruns : i ∈ p.missing ∧ p.fresh.has i = false
  · obtain ⟨hmissing, hfresh⟩ := hruns
    obtain ⟨hlt, -⟩ := (mem_missing hsound i).mp hmissing
    obtain ⟨a, ha⟩ := hok i hlt
    have hthis : m.runElement w p i = { w with
        events := w.events ++ [i]
        process := some { p with ended := p.ended.set i (m.element i) } } := by
      unfold runElement
      rw [if_pos]
      simp [hfailed, hmissing, hended, hfresh,
        show (JsMap.empty : JsMap Nat (ElementExit α)).has i =
        false from rfl]
    have hsound' := (runElement_sound hp h i).1
    rw [hthis] at hsound'
    have hsave : ∃ s, (m.machine x).next (m.runElement w p i) (.save i) = { w with
        storage := s
        events := w.events ++ [i]
        process := some { p with
          ended := (p.ended.set i (m.element i)).delete i, fresh := p.fresh.set i a } } := by
      show ∃ s, m.stepMap x (m.runElement w p i) (.save i) = _
      rw [hthis]
      simp only [stepMap, saveElement, get_set_self, ha]
      cases mem_tasksOf_saveTask h.rows i (.completed (m.codec.encode a)) p.guard_ with
      | inl hrejected =>
        obtain ⟨e, -, hfenced⟩ := hrejected
        have hguarded := hfenced.2
        rw [hguard] at hguarded
        exact absurd hguarded Bool.false_ne_true
      | inr hwritten =>
        obtain ⟨s', -, hsave, -⟩ := hwritten
        exact ⟨s', by rw [hsave]⟩
    obtain ⟨s, hsave⟩ := hsave
    rw [hboth, hrun, hsave]
    have hempty : ((p.ended.set i (m.element i)).delete i) = JsMap.empty := by
      rw [hended]
      apply JsMap.ext
      simp [JsMap.set, JsMap.delete, JsMap.filter, JsMap.empty, JsMap.upsert]
    refine ⟨⟨_, rfl, hfailed, hempty, hguard⟩, fun p' hp' => ?_⟩
    rw [hp] at hp'
    cases hp'
    refine ⟨_, rfl, rfl, fun _ => by simp only [JsMap.has, get_set_self]; rfl,
      fun j hj => ?_⟩
    simp only [JsMap.has, get_set]
    split
    · rfl
    · exact hj
  · -- a saved or already run element is not run
    have hthis : m.runElement w p i = w := by
      unfold runElement
      rw [if_neg]
      simp only [Bool.and_eq_true, contains_eq_mem, decide_eq_true_eq, Bool.not_eq_true',
        not_and, Bool.not_eq_false]
      intro hconditions
      cases hfresh : p.fresh.has i with
      | true => rfl
      | false => exact absurd ⟨hconditions.1.2, hfresh⟩ hruns
    have hsave : (m.machine x).next w (.save i) = w := by
      show m.stepMap x w (.save i) = w
      simp [stepMap, hp, saveElement, hended]
    rw [hboth, hrun, hthis, hsave]
    refine ⟨⟨p, hp, hfailed, hended, hguard⟩, fun p' hp' => ?_⟩
    rw [hp] at hp'
    cases hp'
    refine ⟨p, hp, rfl, fun hmissing => ?_, fun _ hj => hj⟩
    cases hfresh : p.fresh.has i with
    | true => rfl
    | false => exact absurd ⟨hmissing, hfresh⟩ hruns

theorem run_sound (hcodec : m.codec.Lossless) (h : m.Sound x w)
    (events : List MapEvent) : m.Sound x ((m.machine x).run w events) :=
  run_induction (P := m.Sound x) (fun _ e hw => (step_sound hcodec hw e).1) events h

theorem drain (hcodec : m.codec.Lossless)
    (hok : ∀ i < m.length, ∃ a, m.element i = .ok a) (order : List Nat)
    (h : m.Sound x w) (hidle : Idle w) :
    Idle ((m.machine x).run w (order.flatMap fun i => [.run i, .save i])) ∧
      ∀ p, w.process = some p → ∃ p',
        ((m.machine x).run w (order.flatMap fun i => [.run i, .save i])).process = some p' ∧
        p'.missing = p.missing ∧
        ∀ i, (i ∈ order ∧ i ∈ p.missing) ∨ p.fresh.has i = true → p'.fresh.has i = true := by
  induction order generalizing w with
  | nil =>
    refine ⟨hidle, fun p hp => ⟨p, hp, rfl, fun i hi => ?_⟩⟩
    cases hi with
    | inl hmem => exact absurd hmem.1 List.not_mem_nil
    | inr hfresh => exact hfresh
  | cons j order ih =>
    rw [flatMap_cons, run_append]
    obtain ⟨hidle', hprocess⟩ := runAndSave hok h hidle j
    obtain ⟨hidle'', hrest⟩ := ih (run_sound hcodec h [.run j, .save j]) hidle'
    refine ⟨hidle'', fun p hp => ?_⟩
    obtain ⟨p₁, hp₁, hmissing₁, hthis, hkept⟩ := hprocess p hp
    obtain ⟨p₂, hp₂, hmissing₂, hothers⟩ := hrest p₁ hp₁
    refine ⟨p₂, hp₂, hmissing₂.trans hmissing₁, fun i hi => hothers i ?_⟩
    cases hi with
    | inr hfresh => exact .inr (hkept i hfresh)
    | inl hmem =>
      obtain ⟨hmem, hmissing⟩ := hmem
      cases mem_cons.mp hmem with
      | inl heq =>
        subst heq
        exact .inr (hthis hmissing)
      | inr hrest => exact .inl ⟨hrest, by rw [hmissing₁]; exact hmissing⟩

/-- What a map step comes to after any events: crashes at any point, starts under any lock, elements
that end in any order. -/
structure Resumes (m : MapOverStep α) (x : StepExec) (w₀ : MapWorld α) (events : List MapEvent) :
    Prop where
  /-- A process that is done has the results of all elements in source order, and one that failed
  failed with an element or lost its lock. -/
  result : ∀ p, ((m.machine x).run w₀ events).process = some p →
    (∀ l, m.result p = some (.ok l) → l = (range m.length).map m.resultOf ∧
      ∀ i < m.length, ∃ a, m.element i = .ok a) ∧
    ∀ e, m.result p = some (.error e) → m.ElementFails e ∨ FencedOut p.guard_ e
  /-- An element runs only while it has no completed task row. -/
  bodies : ∀ e, let w := (m.machine x).run w₀ events
    ((m.machine x).next w e).events = w.events ∨
      ∃ i, ((m.machine x).next w e).events = w.events ++ [i] ∧ ¬ m.CompletedIn x w.storage i
  /-- Started anew, it ends with the results, in whatever order the elements then run. -/
  ends : ∀ g, truthy g = false → (∀ i < m.length, ∃ a, m.element i = .ok a) →
    ∀ order : List Nat, (∀ i < m.length, i ∈ order) →
      ∃ p, ((m.machine x).run w₀ (events ++ .stop :: .load g ::
          order.flatMap fun i => [.run i, .save i])).process = some p ∧
        m.result p = some (.ok ((range m.length).map m.resultOf))

theorem resumes (hcodec : m.codec.Lossless) {w₀ : MapWorld α} (h : m.Sound x w₀)
    (events : List MapEvent) : Resumes m x w₀ events where
  result := by
    intro p hp
    have hsound := (run_sound hcodec h events).process p hp
    unfold result
    cases hfailed : p.failed with
    | some e =>
      refine ⟨fun l hl => (nomatch hl), fun e' he' => ?_⟩
      cases he'
      exact hsound.failed e hfailed
    | none =>
      simp only
      split
      · rename_i hdone
        obtain ⟨hall, hjoined⟩ := joined_eq hsound hdone
        refine ⟨fun l hl => ?_, fun e he => nomatch he⟩
        cases hl
        exact ⟨hjoined, hall⟩
      · exact ⟨fun l hl => (nomatch hl), fun e he => (nomatch he)⟩
  bodies := fun e => (step_sound hcodec (run_sound hcodec h events) e).2
  ends := by
    intro g hguard hok order horder
    have hw := run_sound hcodec h (events ++ [.stop, .load g])
    have hload : ((m.machine x).run w₀ (events ++ [.stop, .load g])).process =
        some (m.start x g ((m.machine x).run w₀ events).storage) := by
      rw [run_append]
      rfl
    have hsplit : events ++ .stop :: .load g :: order.flatMap (fun i => [.run i, .save i]) =
        (events ++ [.stop, .load g]) ++ order.flatMap (fun i => [.run i, .save i]) := by
      rw [append_assoc]
      rfl
    rw [hsplit, run_append]
    generalize (m.machine x).run w₀ (events ++ [.stop, .load g]) = w at hw hload ⊢
    obtain ⟨-, hprocess⟩ := drain hcodec hok order hw ⟨_, hload, rfl, rfl, hguard⟩
    obtain ⟨hidle, -⟩ := drain hcodec hok order hw ⟨_, hload, rfl, rfl, hguard⟩
    obtain ⟨p, hp, hmissing, hfresh⟩ := hprocess _ hload
    obtain ⟨p', hp', hfailed, -⟩ := hidle
    rw [hp] at hp'
    cases hp'
    have hsound := (run_sound hcodec hw (order.flatMap fun i => [.run i, .save i])).process p hp
    have hdone : p.missing.all p.fresh.has = true := by
      rw [List.all_eq_true]
      intro i hi
      have hlt := ((mem_missing hsound i).mp hi).1
      exact hfresh i (.inl ⟨horder i hlt, by rwa [← hmissing]⟩)
    refine ⟨p, hp, ?_⟩
    unfold result
    rw [hfailed]
    simp only [if_pos hdone, (joined_eq hsound hdone).2]

end Promin.Durable.MapOverStep

namespace Promin.Durable

/-! ## Both kinds of step -/

/-- Loop and map steps resume exactly. -/
theorem loops_and_maps_resume {α : Type} (x : StepExec) :
    (∀ (l : LoopStep α) (w₀ : DriverWorld Nat), l.codec.Lossless → l.Progress x w₀ 0 →
      ∀ earlier ms, LoopStep.Resumes l x w₀ earlier ms) ∧
    ∀ (m : MapOverStep α) (w₀ : MapWorld α), m.codec.Lossless → m.Sound x w₀ →
      ∀ events, m.Resumes x w₀ events :=
  ⟨fun _ _ hcodec h earlier ms => LoopStep.resumes hcodec h earlier ms,
    fun _ _ hcodec h events => MapOverStep.resumes hcodec h events⟩

def numberCodec : Codec Int where
  encode := .num
  decode
    | .num n => n
    | _ => 0

def unguardedExec : StepExec where
  workflowId := "w"
  guard_ := none
  stepAttempts := true

def createdRun : InMemoryWorkflowStorage :=
  ((InMemoryWorkflowStorage.new { instanceId := "a" }).createWorkflow
    { workflowId := "w", workflowName := "flow", input := .null } none).1

def pollOnce : LoopStep Int where
  name := "poll"
  body := fun iter => .ok iter
  keepGoing := fun _ _ => false
  maxIterations := 1
  positive := by decide
  codec := numberCodec

def squaresStep : MapOverStep Int where
  name := "squares"
  length := 2
  element := fun i => .ok (i * i)
  codec := numberCodec

private theorem createdRun_row (name : String) :
    (createdRun.workflows.get "w").bind (fun wf => wf.steps.get name) = none := rfl

theorem loops_and_maps_resume_created :
    LoopStep.Resumes pollOnce unguardedExec ⟨createdRun, []⟩ [(none, [[], [], []])]
        (List.replicate 6 []) ∧
      squaresStep.Resumes unguardedExec ⟨createdRun, [], none⟩
        [.load none, .run 1, .save 1, .run 0] := by
  have hrows : squaresStep.tasksOf unguardedExec createdRun = [] := by
    simp [MapOverStep.tasksOf, MapOverStep.rowIn, unguardedExec, createdRun_row]
  have hsound : squaresStep.Sound unguardedExec ⟨createdRun, [], none⟩ := by
    refine ⟨⟨rfl, fun t ht => ?_⟩, fun _ hp => by cases hp⟩
    rw [hrows] at ht
    exact absurd ht List.not_mem_nil
  have hprogress : pollOnce.Progress unguardedExec ⟨createdRun, []⟩ 0 := by
    refine ⟨rfl, Nat.zero_le 1, fun _ hi => absurd hi (Nat.not_lt_zero _),
      fun _ hi => absurd hi (Nat.not_lt_zero _), fun i _ => ?_⟩
    simp [LoopStep.completedIn, LoopStep.rowOf, unguardedExec, createdRun_row]
  have hloops := (@loops_and_maps_resume Int unguardedExec).1
  have hmaps := (@loops_and_maps_resume Int unguardedExec).2
  exact ⟨hloops pollOnce _ (fun _ => rfl) hprogress _ _,
    hmaps squaresStep _ (fun _ => rfl) hsound _⟩

/-- A body whose row was not written before the crash runs again: two bodies of at most one. -/
theorem crashed_body_counterexample :
    pollOnce.maxIterations = 1 ∧
      (pollOnce.execute unguardedExec (List.replicate 6 [])
        (pollOnce.after unguardedExec [(none, [[], [], []])] ⟨createdRun, []⟩)).2.2.events.length
          = 2 := by
  decide +kernel

end Promin.Durable
