import Promin.Durable.RunRecord

/-!
# Task rows in place

`writeTaskRow` changes a task array in place when the storage owns it.
-/

namespace Promin.Durable

open RunRecord Option Machine Cells
open JsMap hiding get_map map_congr

/-! ## Reading a run -/

def StepRow.read (arrays : Cells StepTaskState) (row : StepRow) : StepState :=
  { row.state with tasks := row.tasks.map arrays.read }

/-- The rows with their arrays read from the heap. -/
def readRows (arrays : Cells StepTaskState) (rows : JsMap String StepRow) :
    JsMap String StepState := rows.map (·.read arrays)

def RunRecord.copied (r : RunRecord) : CopiedRun := ⟨r.run, readRows r.arrays r.steps⟩

/-! ## Bookkeeping -/

structure Bookkept (r : RunRecord) : Prop where
  epoch : ∀ stepName o, r.ownedTasks.get stepName = some o → o.epoch ≤ r.handedOut
  made : ∀ stepName o, r.ownedTasks.get stepName = some o → o.tasks < r.arrays.size
  indexed : ∀ stepName o, r.ownedTasks.get stepName = some o →
    JsMap.Indexes (·.taskIndex) o.position (r.arrays.read o.tasks)
  apart : ∀ stepName stepName' o o', r.ownedTasks.get stepName = some o →
    r.ownedTasks.get stepName' = some o' → o.tasks = o'.tasks → stepName = stepName'

def RowKept (r : RunRecord) (stepName : String) (row : StepRow) : Prop :=
  row.state.tasks = none ∧
    ∀ a, row.tasks = some a → ∃ o, r.ownedTasks.get stepName = some o ∧ o.tasks = a

/-- What every state keeps. -/
structure RecordKept (r : RunRecord) : Prop extends Bookkept r where
  rows : ∀ stepName row, r.steps.get stepName = some row → RowKept r stepName row

/-- An array no write may touch. -/
def Frozen (r : RunRecord) (a : Nat) : Prop :=
  a < r.arrays.size ∧
    ∀ stepName o, r.ownedTasks.get stepName = some o → o.epoch = r.handedOut → o.tasks ≠ a

theorem kept_new : RecordKept .new where
  epoch := fun _ _ h => nomatch h
  made := fun _ _ h => nomatch h
  indexed := fun _ _ h => nomatch h
  apart := fun _ _ _ _ h => nomatch h
  rows := fun _ _ h => nomatch h

variable {a : Nat} {r : RunRecord} {stepName : String} {position : JsMap Int Nat}

theorem RecordKept.frozen_handOut (h : RecordKept r) {row : StepRow}
    (hrow : r.steps.get stepName = some row) (ha : row.tasks = some a) :
    Frozen r.handOutSteps.1 a := by
  obtain ⟨o, ho, rfl⟩ := (h.rows stepName row hrow).2 a ha
  constructor
  · exact h.made stepName o ho
  · intro stepName' o' ho' hepoch
    have hold : r.ownedTasks.get stepName' = some o' := ho'
    have hle := h.epoch stepName' o' hold
    have hnow : o'.epoch = r.handedOut + 1 := hepoch
    omega

/-! ## Taking an array into ownership -/

/-- The state and the array after `openTasks`. -/
structure Opened (r : RunRecord) (stepName : String) (r' : RunRecord) (o : OwnedTasks) : Prop where
  kept : Bookkept r'
  run : r'.run = r.run
  steps : r'.steps = r.steps
  handedOut : r'.handedOut = r.handedOut
  owned : r'.ownedTasks.get stepName = some o
  epoch : o.epoch = r.handedOut
  others : ∀ stepName', stepName' ≠ stepName →
    r'.ownedTasks.get stepName' = r.ownedTasks.get stepName'
  tasks : r'.arrays.read o.tasks =
    (((r.steps.get stepName).bind (·.tasks)).map r.arrays.read).getD []
  read : ∀ a, a < r.arrays.size → a < r'.arrays.size ∧ r'.arrays.read a = r.arrays.read a
  unfrozen : ∀ a, Frozen r a → o.tasks ≠ a

theorem RecordKept.nodup (h : RecordKept r) (stepName : String) :
    ((((r.steps.get stepName).bind (·.tasks)).map r.arrays.read).getD []
      |>.map (·.taskIndex)).Nodup := by
  cases hrow : r.steps.get stepName with
  | none => exact List.nodup_nil
  | some row =>
    cases ha : row.tasks with
    | none => simp [ha]
    | some a =>
      obtain ⟨o, ho, rfl⟩ := (h.rows stepName row hrow).2 a ha
      have hnodup := (h.indexed stepName o ho).nodup
      simpa [ha] using hnodup

theorem copyTasks_spec (h : RecordKept r) (stepName : String) :
    Opened r stepName (r.copyTasks stepName).1 (r.copyTasks stepName).2 := by
  have hget : ∀ stepName' o, (r.copyTasks stepName).1.ownedTasks.get stepName' = some o →
      (stepName = stepName' ∧ o = (r.copyTasks stepName).2) ∨
        r.ownedTasks.get stepName' = some o := by
    intro stepName' o ho
    have ho' : (r.ownedTasks.set stepName (r.copyTasks stepName).2).get stepName' = some o := ho
    rw [get_set] at ho'
    split at ho'
    · rename_i hname
      exact .inl ⟨hname, (Option.some.inj ho').symm⟩
    · exact .inr ho'
  -- the new array is a copy of the step's
  have hread : (r.copyTasks stepName).1.arrays.read r.arrays.size =
      (((r.steps.get stepName).bind (·.tasks)).map r.arrays.read).getD [] :=
    read_alloc_self _
  have hsame : ∀ a, a < r.arrays.size →
      (r.copyTasks stepName).1.arrays.read a = r.arrays.read a :=
    fun a ha => read_alloc_of_lt _ ha
  have hsize : (r.copyTasks stepName).1.arrays.size = r.arrays.size + 1 := size_alloc _
  refine {
    kept := ⟨?_, ?_, ?_, ?_⟩, run := rfl, steps := rfl, handedOut := rfl
    owned := get_set_self _ _ _, epoch := rfl
    others := fun stepName' hne => get_set_ne _ _ (Ne.symm hne)
    tasks := hread
    read := fun a ha => ⟨by omega, hsame a ha⟩
    unfrozen := fun a ha heq => ?_ }
  · intro stepName' o ho
    cases hget stepName' o ho with
    | inl hnew => rw [hnew.2]; exact Nat.le_refl _
    | inr hold => exact h.epoch stepName' o hold
  · intro stepName' o ho
    cases hget stepName' o ho with
    | inl hnew =>
      rw [hnew.2, hsize]
      exact Nat.lt_succ_self _
    | inr hold =>
      have hmade := h.made stepName' o hold
      omega
  · intro stepName' o ho
    cases hget stepName' o ho with
    | inl hnew =>
      rw [hnew.2]
      show JsMap.Indexes _ _ ((r.copyTasks stepName).1.arrays.read r.arrays.size)
      rw [hread]
      exact indexes_indexFrom (h.nodup stepName)
    | inr hold =>
      rw [hsame _ (h.made stepName' o hold)]
      exact h.indexed stepName' o hold
  · intro name name' o o' ho ho' heq
    cases hget name o ho with
    | inl hnew =>
      cases hget name' o' ho' with
      | inl hnew' => exact hnew.1.symm.trans hnew'.1
      | inr hold' =>
        -- an old array is not the new one
        have hmade := h.made name' o' hold'
        have hsizeEq : o.tasks = r.arrays.size := congrArg OwnedTasks.tasks hnew.2
        omega
    | inr hold =>
      cases hget name' o' ho' with
      | inl hnew' =>
        have hmade := h.made name o hold
        have hsizeEq : o'.tasks = r.arrays.size := congrArg OwnedTasks.tasks hnew'.2
        omega
      | inr hold' => exact h.apart name name' o o' hold hold' heq
  · have hlt := ha.1
    have hsizeEq : r.arrays.size = a := heq
    omega

theorem openTasks_spec (h : RecordKept r) (stepName : String) :
    Opened r stepName (r.openTasks stepName).1 (r.openTasks stepName).2 := by
  unfold openTasks
  cases ho : r.ownedTasks.get stepName with
  | none => exact copyTasks_spec h stepName
  | some o =>
    simp only
    split
    · -- The row's own array, made since the last hand-out.
      rename_i howns
      simp only [ownsTasks, Bool.and_eq_true, beq_iff_eq] at howns
      obtain ⟨hepoch, htasks⟩ := howns
      exact {
        kept := h.toBookkept, run := rfl, steps := rfl, handedOut := rfl, owned := ho
        epoch := hepoch, others := fun _ _ => rfl
        tasks := by rw [htasks]; rfl
        read := fun _ ha => ⟨ha, rfl⟩
        unfrozen := fun a ha => ha.2 stepName o ho hepoch }
    · exact copyTasks_spec h stepName

/-! ## Writing a task -/

/-- The tasks after a write, as the copying run computes them. -/
def putTaskList (tasks : List StepTaskState) (taskIndex : Int) (outcome : TaskOutcome)
    (now : Int) : List StepTaskState :=
  let at_ := (JsMap.indexFrom (·.taskIndex) 0 JsMap.empty tasks).get taskIndex
  let task := taskOf (at_.bind fun i => tasks[i]?) taskIndex outcome now
  match at_ with
  | some i => tasks.set i task
  | none => tasks ++ [task]

variable {tasks : List StepTaskState}

theorem indexes_get_eq {position' : JsMap Int Nat} (h : JsMap.Indexes (·.taskIndex) position tasks)
    (h' : JsMap.Indexes (·.taskIndex) position' tasks) (k : Int) :
    position.get k = position'.get k := by
  apply Option.ext
  intro i
  rw [h k i, h' k i]

section PutTask

variable {r : RunRecord} {stepName : String} {o : OwnedTasks}

/-- What a task write does to the arrays and the bookkeeping. -/
structure TaskPut (r : RunRecord) (stepName : String) (o : OwnedTasks) (taskIndex : Int)
    (outcome : TaskOutcome) (now : Int) (r' : RunRecord) : Prop where
  run : r'.run = r.run
  handedOut : r'.handedOut = r.handedOut
  steps : r'.steps = r.steps.set stepName
    ⟨((r.steps.get stepName).map (·.state)).getD (mapRow r.run stepName), some o.tasks⟩
  arrays : r'.arrays = r.arrays.write o.tasks
    (putTaskList (r.arrays.read o.tasks) taskIndex outcome now)
  owned : ∃ o', r'.ownedTasks.get stepName = some o' ∧ o'.tasks = o.tasks ∧ o'.epoch = o.epoch ∧
    JsMap.Indexes (·.taskIndex) o'.position
      (putTaskList (r.arrays.read o.tasks) taskIndex outcome now)
  others : ∀ stepName', stepName' ≠ stepName →
    r'.ownedTasks.get stepName' = r.ownedTasks.get stepName'

theorem putTask_spec (howned : r.ownedTasks.get stepName = some o) (h : Bookkept r)
    (taskIndex : Int) (outcome : TaskOutcome) (now : Int) :
    TaskPut r stepName o taskIndex outcome now
      (r.putTask stepName o taskIndex outcome now) := by
  have hindexed := h.indexed stepName o howned
  have hat : (JsMap.indexFrom (·.taskIndex) 0 JsMap.empty (r.arrays.read o.tasks)).get taskIndex =
      o.position.get taskIndex :=
    indexes_get_eq (indexes_indexFrom hindexed.nodup) hindexed taskIndex
  unfold putTask
  simp only
  cases hpos : o.position.get taskIndex with
  | some i =>
    rw [hpos] at hat
    have hlist : putTaskList (r.arrays.read o.tasks) taskIndex outcome now =
        (r.arrays.read o.tasks).set i
          (taskOf (r.arrays.read o.tasks)[i]? taskIndex outcome now) := by
      simp only [putTaskList, hat, bind_some]
    refine ⟨rfl, rfl, rfl, congrArg (r.arrays.write o.tasks) hlist.symm,
      ⟨o, howned, rfl, rfl, ?_⟩, fun _ _ => rfl⟩
    rw [hlist]
    exact hindexed.replace hpos
  | none =>
    rw [hpos] at hat
    have hlist : putTaskList (r.arrays.read o.tasks) taskIndex outcome now =
        r.arrays.read o.tasks ++
          [taskOf none taskIndex outcome now] := by
      simp only [putTaskList, hat, bind_none]
    refine ⟨rfl, rfl, rfl, congrArg (r.arrays.write o.tasks) hlist.symm,
      ⟨_, get_set_self _ _ _, rfl, rfl, ?_⟩,
      fun stepName' hne => get_set_ne _ _ (Ne.symm hne)⟩
    rw [hlist]
    exact hindexed.snoc (e := taskOf none taskIndex outcome now) hpos

end PutTask

theorem copied_writeTaskRow (h : RecordKept r) (stepName : String) (taskIndex : Int)
    (outcome : TaskOutcome) (now : Int) :
    (r.writeTaskRow stepName taskIndex outcome now).copied =
      r.copied.writeTaskRow stepName taskIndex outcome now := by
  have hopen := openTasks_spec h stepName
  have hput := putTask_spec hopen.owned hopen.kept taskIndex outcome now
  unfold RunRecord.writeTaskRow
  simp only
  generalize (r.openTasks stepName).1 = r₁ at hopen hput ⊢
  generalize (r.openTasks stepName).2 = o at hopen hput ⊢
  generalize r₁.putTask stepName o taskIndex outcome now = r₂ at hput ⊢
  have hlt : o.tasks < r₁.arrays.size := hopen.kept.made stepName o hopen.owned
  -- Rows of other steps read the same in the arrays after both writes.
  have hothers : ∀ stepName' row, stepName' ≠ stepName → r.steps.get stepName' = some row →
      row.read r₂.arrays = row.read r.arrays := by
    intro stepName' row hne hrow
    unfold StepRow.read
    cases ha : row.tasks with
    | none => rfl
    | some a =>
      obtain ⟨o', ho', rfl⟩ := (h.rows stepName' row hrow).2 a ha
      have hne' : o.tasks ≠ o'.tasks := by
        intro heq
        have ho₁ : r₁.ownedTasks.get stepName' = some o' := (hopen.others stepName' hne).trans ho'
        exact hne (hopen.kept.apart _ _ _ _ hopen.owned ho₁ heq).symm
      have hread := (hopen.read o'.tasks (h.made stepName' o' ho')).2
      rw [map_some, map_some, hput.arrays, read_write_ne _ hne', hread]
  have hrow : ((⟨((r₁.steps.get stepName).map (·.state)).getD (mapRow r₁.run stepName),
      some o.tasks⟩ : StepRow).read r₂.arrays) =
      { ((readRows r.arrays r.steps).get stepName).getD (mapRow r.run stepName) with
        tasks := some (putTaskList (((readRows r.arrays r.steps).get stepName).bind (·.tasks)
          |>.getD []) taskIndex outcome now) } := by
    have htasks : (((readRows r.arrays r.steps).get stepName).bind (·.tasks)).getD [] =
        r₁.arrays.read o.tasks := by
      rw [hopen.tasks, readRows, JsMap.get_map]
      cases r.steps.get stepName <;> rfl
    rw [htasks, StepRow.read, map_some, hput.arrays, read_write_self _ hlt,
      hopen.steps, hopen.run, readRows, JsMap.get_map]
    cases r.steps.get stepName <;> rfl
  have hsteps : readRows r₂.arrays r₂.steps =
      (readRows r.arrays r.steps).set stepName
        { ((readRows r.arrays r.steps).get stepName).getD (mapRow r.run stepName) with
          tasks := some (putTaskList (((readRows r.arrays r.steps).get stepName).bind (·.tasks)
            |>.getD []) taskIndex outcome now) } := by
    rw [← hrow, hput.steps]
    simp only [readRows, map_set]
    rw [hopen.steps]
    exact set_map_congr hothers _
  unfold RunRecord.copied
  rw [hsteps, hput.run, hopen.run]
  rfl

theorem writeTaskRow_kept (h : RecordKept r) (stepName : String) (taskIndex : Int)
    (outcome : TaskOutcome) (now : Int) :
    RecordKept (r.writeTaskRow stepName taskIndex outcome now) ∧
      ∀ a, Frozen r a → Frozen (r.writeTaskRow stepName taskIndex outcome now) a ∧
        (r.writeTaskRow stepName taskIndex outcome now).arrays.read a = r.arrays.read a := by
  have hopen := openTasks_spec h stepName
  have hput := putTask_spec hopen.owned hopen.kept taskIndex outcome now
  unfold RunRecord.writeTaskRow
  simp only
  generalize (r.openTasks stepName).1 = r₁ at hopen hput ⊢
  generalize (r.openTasks stepName).2 = o at hopen hput ⊢
  generalize r₁.putTask stepName o taskIndex outcome now = r₂ at hput ⊢
  have hlt : o.tasks < r₁.arrays.size := hopen.kept.made stepName o hopen.owned
  have hsize : r₂.arrays.size = r₁.arrays.size := by rw [hput.arrays, size_write]
  obtain ⟨o₂, ho₂, htasks₂, hepoch₂, hindexed₂⟩ := hput.owned
  -- What is owned after the write was owned before, for the same array.
  have hback : ∀ name o', r₂.ownedTasks.get name = some o' →
      ∃ o'', r₁.ownedTasks.get name = some o'' ∧ o''.tasks = o'.tasks ∧ o''.epoch = o'.epoch := by
    intro name o' ho'
    by_cases hname : name = stepName
    · subst hname
      rw [ho₂] at ho'
      cases ho'
      exact ⟨o, hopen.owned, htasks₂.symm, hepoch₂.symm⟩
    · rw [hput.others name hname] at ho'
      exact ⟨o', ho', rfl, rfl⟩
  constructor
  · refine ⟨⟨?_, ?_, ?_, ?_⟩, ?_⟩
    · intro name o' ho'
      obtain ⟨o'', ho'', -, hepoch⟩ := hback name o' ho'
      rw [← hepoch, hput.handedOut]
      exact hopen.kept.epoch name o'' ho''
    · intro name o' ho'
      obtain ⟨o'', ho'', htasks, -⟩ := hback name o' ho'
      rw [← htasks, hsize]
      exact hopen.kept.made name o'' ho''
    · intro name o' ho'
      by_cases hname : name = stepName
      · subst hname
        rw [ho₂] at ho'
        cases ho'
        rw [htasks₂, hput.arrays, read_write_self _ hlt]
        exact hindexed₂
      · rw [hput.others name hname] at ho'
        have hne : o.tasks ≠ o'.tasks :=
          fun heq => hname (hopen.kept.apart _ _ _ _ hopen.owned ho' heq).symm
        rw [hput.arrays, read_write_ne _ hne]
        exact hopen.kept.indexed name o' ho'
    · intro name name' o' o'' ho' ho'' heq
      obtain ⟨p', hp', htasks', -⟩ := hback name o' ho'
      obtain ⟨p'', hp'', htasks'', -⟩ := hback name' o'' ho''
      exact hopen.kept.apart name name' p' p'' hp' hp'' (by rw [htasks', htasks'', heq])
    · intro name row hrow
      rw [hput.steps, get_set] at hrow
      split at hrow
      · rename_i hname
        subst hname
        cases hrow
        constructor
        · rw [hopen.steps]
          cases hold : r.steps.get stepName with
          | none => rfl
          | some old => exact (h.rows stepName old hold).1
        · intro a ha
          cases ha
          exact ⟨o₂, ho₂, htasks₂⟩
      · rename_i hname
        rw [hopen.steps] at hrow
        obtain ⟨hbare, howned⟩ := h.rows name row hrow
        refine ⟨hbare, fun a ha => ?_⟩
        obtain ⟨o', ho', htasks'⟩ := howned a ha
        have hne : name ≠ stepName := fun heq => hname heq.symm
        exact ⟨o', by rw [hput.others name hne, hopen.others name hne, ho'], htasks'⟩
  · intro a ha
    obtain ⟨hmade, hread⟩ := hopen.read a ha.1
    have hne := hopen.unfrozen a ha
    refine ⟨⟨by omega, ?_⟩, ?_⟩
    · intro name o' ho' hepoch heq
      obtain ⟨o'', ho'', htasks, hepoch''⟩ := hback name o' ho'
      by_cases hname : name = stepName
      · subst hname
        rw [hopen.owned] at ho''
        cases ho''
        exact hne (htasks.trans heq)
      · rw [hopen.others name hname] at ho''
        apply ha.2 name o'' ho'' _ (htasks.trans heq)
        rw [hepoch'', hepoch, hput.handedOut, hopen.handedOut]
    · rw [hput.arrays, read_write_ne _ hne, hread]

/-! ## The other calls -/

theorem row_tasks_none {run now : Int} {existing : Option StepState}
    {w : StepWrite} {state : StepState} (h : w.row run now stepName existing = some state)
    (hbare : ∀ step, existing = some step → step.tasks = none) : state.tasks = none := by
  cases w with
  | completed result metadata startedAt durationMs
  | failed error errorTag metadata startedAt durationMs | suspended u =>
    cases h
    rfl
  | compensated status error =>
    obtain ⟨step, hstep, rfl⟩ := map_eq_some_iff.mp h
    exact hbare step hstep

theorem kept_setRow (h : RecordKept r) {row : StepRow} (hbare : row.state.tasks = none)
    (htasks : ∀ a, row.tasks = some a → (r.steps.get stepName).bind (·.tasks) = some a) :
    RecordKept { r with steps := r.steps.set stepName row } where
  epoch := h.epoch
  made := h.made
  indexed := h.indexed
  apart := h.apart
  rows := by
    intro name row' hrow
    simp only [get_set] at hrow
    split at hrow
    · rename_i hname
      subst hname
      cases hrow
      refine ⟨hbare, fun a ha => ?_⟩
      obtain ⟨old, hold, ha'⟩ := bind_eq_some_iff.mp (htasks a ha)
      exact (h.rows stepName old hold).2 a ha'
    · exact h.rows name row' hrow

theorem writeStep_kept (h : RecordKept r) (stepName : String) (w : StepWrite)
    (now : Int) : RecordKept (r.writeStep stepName w now) := by
  unfold RunRecord.writeStep
  simp only
  split
  · exact h
  · rename_i state hstate
    apply kept_setRow h
    · apply row_tasks_none hstate
      intro step hstep
      obtain ⟨row, hrow, rfl⟩ := map_eq_some_iff.mp hstep
      exact (h.rows stepName row hrow).1
    · intro a ha
      simp only at ha
      split at ha
      · exact ha
      · cases ha

theorem copied_writeStep (h : RecordKept r) (stepName : String) (w : StepWrite)
    (now : Int) : (r.writeStep stepName w now).copied = r.copied.writeStep stepName w now := by
  have hbare : ((readRows r.arrays r.steps).get stepName).map
      (fun step => { step with tasks := none }) = (r.steps.get stepName).map (·.state) := by
    rw [readRows, JsMap.get_map]
    cases hrow : r.steps.get stepName with
    | none => rfl
    | some row =>
      have hnone := (h.rows stepName row hrow).1
      simp only [map_some, StepRow.read, Option.some.injEq]
      rw [← hnone]
  have htasks : ((readRows r.arrays r.steps).get stepName).bind (·.tasks) =
      ((r.steps.get stepName).bind (·.tasks)).map r.arrays.read := by
    rw [readRows, JsMap.get_map]
    cases r.steps.get stepName <;> rfl
  unfold RunRecord.writeStep CopiedRun.writeStep
  simp only [RunRecord.copied, hbare, htasks]
  cases w.row r.run now stepName ((r.steps.get stepName).map (·.state)) with
  | none => rfl
  | some state =>
    simp only [readRows, map_set, StepRow.read]
    cases w.keepsTasks <;> rfl

theorem resetSteps_kept (h : RecordKept r) (stepNames : List String) :
    RecordKept (r.resetSteps stepNames) where
  epoch := h.epoch
  made := h.made
  indexed := h.indexed
  apart := h.apart
  rows := by
    intro name row hrow
    simp only [RunRecord.resetSteps, get_mapValues, get_foldl_delete] at hrow
    obtain ⟨old, hold, rfl⟩ := map_eq_some_iff.mp hrow
    split at hold
    · cases hold
    · obtain ⟨hbare, howned⟩ := h.rows name old hold
      refine ⟨?_, howned⟩
      show (keptRow old.state).tasks = none
      unfold keptRow
      split
      · exact hbare
      · exact hbare

theorem copied_resetSteps (r : RunRecord) (stepNames : List String) :
    (r.resetSteps stepNames).copied = r.copied.resetSteps stepNames := by
  have hread : ∀ row : StepRow, StepRow.read r.arrays { row with state := keptRow row.state } =
      keptRow (row.read r.arrays) := by
    intro row
    unfold keptRow StepRow.read
    simp only
    split <;> rfl
  have hdelete : ∀ m : JsMap String StepRow, readRows r.arrays
      (stepNames.foldl (fun m stepName => m.delete stepName) m) =
      stepNames.foldl (fun m stepName => m.delete stepName) (readRows r.arrays m) := by
    intro m
    symm
    apply List.foldl_hom
    intro m stepName
    rw [readRows, readRows, map_delete]
  have hsteps : readRows r.arrays (r.resetSteps stepNames).steps =
      (r.copied.resetSteps stepNames).steps := by
    simp only [RunRecord.resetSteps, CopiedRun.resetSteps, RunRecord.copied]
    rw [← hdelete, readRows,
      map_mapValues _ _ _ (fun _ step => keptRow step) fun _ row => hread row]
    rfl
  exact congrArg (CopiedRun.mk r.run) hsteps

theorem handOut_kept (h : RecordKept r) : RecordKept r.handOutSteps.1 where
  epoch := fun stepName o ho => Nat.le_succ_of_le (h.epoch stepName o ho)
  made := h.made
  indexed := h.indexed
  apart := h.apart
  rows := h.rows

theorem Frozen.handOut (h : RecordKept r) (ha : Frozen r a) :
    Frozen r.handOutSteps.1 a := by
  refine ⟨ha.1, fun stepName o ho hepoch => ?_⟩
  have hle := h.epoch stepName o ho
  have hnow : o.epoch = r.handedOut + 1 := hepoch
  omega

/-! ## Every call -/

theorem next_kept (h : RecordKept r) (o : RunCall) : RecordKept (runRecord.next r o) := by
  cases o with
  | writeTaskRow stepName taskIndex outcome now =>
    exact (writeTaskRow_kept h stepName taskIndex outcome now).1
  | writeStep stepName w now => exact writeStep_kept h stepName w now
  | resetSteps stepNames => exact resetSteps_kept h stepNames
  | startFreshRun =>
    have hbook : Bookkept (runRecord.next r .startFreshRun) := {
      epoch := fun _ _ ho => nomatch ho
      made := fun _ _ ho => nomatch ho
      indexed := fun _ _ ho => nomatch ho
      apart := fun _ _ _ _ ho => nomatch ho }
    exact ⟨hbook, fun _ _ hrow => nomatch hrow⟩
  | handOut => exact handOut_kept h

theorem copied_next (h : RecordKept r) (o : RunCall) :
    (runRecord.next r o).copied = copiedRun.next r.copied o := by
  cases o with
  | writeTaskRow stepName taskIndex outcome now =>
    exact copied_writeTaskRow h stepName taskIndex outcome now
  | writeStep stepName w now => exact copied_writeStep h stepName w now
  | resetSteps stepNames => exact copied_resetSteps r stepNames
  | startFreshRun => rfl
  | handOut => rfl

theorem next_frozen (h : RecordKept r) (o : RunCall) (ha : Frozen r a) :
    Frozen (runRecord.next r o) a ∧ (runRecord.next r o).arrays.read a = r.arrays.read a := by
  cases o with
  | writeTaskRow stepName taskIndex outcome now =>
    exact (writeTaskRow_kept h stepName taskIndex outcome now).2 a ha
  | writeStep stepName w now =>
    show Frozen (r.writeStep stepName w now) a ∧
      (r.writeStep stepName w now).arrays.read a = r.arrays.read a
    unfold RunRecord.writeStep
    simp only
    split
    · exact ⟨ha, rfl⟩
    · exact ⟨ha, rfl⟩
  | resetSteps stepNames => exact ⟨ha, rfl⟩
  | startFreshRun => exact ⟨⟨ha.1, fun _ _ ho => by cases ho⟩, rfl⟩
  | handOut => exact ⟨ha.handOut h, rfl⟩

variable {rows : JsMap String StepRow}

theorem next_snapshot (h : RecordKept r) (o : RunCall)
    (hfrozen : ∀ stepName row a, rows.get stepName = some row → row.tasks = some a → Frozen r a) :
    (∀ stepName row a, rows.get stepName = some row → row.tasks = some a →
      Frozen (runRecord.next r o) a) ∧
    readRows (runRecord.next r o).arrays rows = readRows r.arrays rows := by
  constructor
  · intro stepName row a hrow ha
    exact (next_frozen h o (hfrozen stepName row a hrow ha)).1
  · apply JsMap.map_congr
    intro stepName row hrow
    unfold StepRow.read
    cases ha : row.tasks with
    | none => rfl
    | some a =>
      rw [map_some, map_some, (next_frozen h o (hfrozen stepName row a hrow ha)).2]

theorem out_frozen (h : RecordKept r) (o : RunCall) (hout : runRecord.out r o = some rows) :
    rows = r.steps ∧ ∀ stepName row a, rows.get stepName = some row → row.tasks = some a →
      Frozen (runRecord.next r o) a := by
  cases o with
  | handOut =>
    have hrows : r.steps = rows := Option.some.inj hout
    subst hrows
    exact ⟨rfl, fun stepName row a hrow ha => h.frozen_handOut hrow ha⟩
  | startFreshRun =>
    have hrows : r.steps = rows := Option.some.inj hout
    subst hrows
    refine ⟨rfl, fun stepName row a hrow ha => ?_⟩
    exact ⟨(h.frozen_handOut hrow ha).1, fun _ _ ho => nomatch ho⟩
  | writeTaskRow stepName taskIndex outcome now | writeStep stepName w now | resetSteps stepNames =>
    exact nomatch hout

theorem run_kept (calls : List RunCall) : RecordKept (runRecord.run .new calls) :=
  run_induction (P := RecordKept) (fun _ o h => next_kept h o) calls kept_new

theorem run_copied (h : RecordKept r) (calls : List RunCall) :
    (runRecord.run r calls).copied = copiedRun.run r.copied calls := by
  induction calls generalizing r with
  | nil => rfl
  | cons o calls ih =>
    rw [run_cons, run_cons, ih (next_kept h o), copied_next h o]

theorem run_snapshot (h : RecordKept r)
    (hfrozen : ∀ stepName row a, rows.get stepName = some row → row.tasks = some a → Frozen r a)
    (calls : List RunCall) :
    readRows (runRecord.run r calls).arrays rows = readRows r.arrays rows := by
  induction calls generalizing r with
  | nil => rfl
  | cons o calls ih =>
    obtain ⟨hfrozen', hread⟩ := next_snapshot h o hfrozen
    rw [run_cons, ih (next_kept h o) hfrozen', hread]

/-- Copy on hand-out is invisible: after any sequence of task writes, other step writes, resets,
fresh runs and hand-outs, the step rows read as those of a run that copies the task list on every
write, and every snapshot that was handed out or archived on the way still reads as it did when
it was handed out, which is what the copying run hands out there. -/
theorem taskRows_copied (calls : List RunCall) :
    readRows (runRecord.run .new calls).arrays (runRecord.run .new calls).steps =
        (copiedRun.run .new calls).steps ∧
      ∀ before o after, calls = before ++ o :: after →
        (runRecord.out (runRecord.run .new before) o).map
            (readRows (runRecord.run .new calls).arrays) =
          copiedRun.out (copiedRun.run .new before) o := by
  constructor
  · exact congrArg CopiedRun.steps (run_copied kept_new calls)
  · intro before o after hcalls
    have hkept := run_kept before
    have hcopied := run_copied kept_new before
    generalize hr : runRecord.run .new before = r at hkept hcopied ⊢
    have hrest : runRecord.run .new calls = runRecord.run (runRecord.next r o) after := by
      rw [hcalls, run_append, hr, run_cons]
    have hnow : copiedRun.out (copiedRun.run .new before) o =
        (runRecord.out r o).map (readRows r.arrays) := by
      rw [show copiedRun.run .new before = r.copied from hcopied.symm]
      cases o <;> rfl
    rw [hnow, hrest]
    cases hout : runRecord.out r o with
    | none => rfl
    | some rows =>
      obtain ⟨hrows, hfrozen⟩ := out_frozen hkept o hout
      have hsame := run_snapshot (next_kept hkept o) hfrozen after
      have harrays : readRows (runRecord.next r o).arrays rows = readRows r.arrays rows := by
        cases o with
        | handOut => rfl
        | startFreshRun => rfl
        | writeTaskRow stepName taskIndex outcome now | writeStep stepName w now
        | resetSteps stepNames => exact nomatch hout
      rw [map_some, map_some, hsame, harrays]

/-- Two tasks of one map step, with the rows handed out in between. -/
private def mapCalls : List RunCall :=
  [.writeTaskRow "map" 1 (.completed .null) 0, .handOut, .writeTaskRow "map" 0 (.completed .null) 1]

theorem taskRows_copied_mapCalls :
    readRows (runRecord.run .new mapCalls).arrays (runRecord.run .new mapCalls).steps =
        (copiedRun.run .new mapCalls).steps ∧
      (runRecord.out (runRecord.run .new (mapCalls.take 1)) .handOut).map
          (readRows (runRecord.run .new mapCalls).arrays) =
        copiedRun.out (copiedRun.run .new (mapCalls.take 1)) .handOut :=
  ⟨(taskRows_copied mapCalls).1, (taskRows_copied mapCalls).2 _ _ _ rfl⟩

/-! ## The run of the storage -/

theorem copiedRun_nodup (calls : List RunCall) (stepName : String) :
    ((((copiedRun.run .new calls).steps.get stepName).bind (·.tasks)).getD []
      |>.map (·.taskIndex)).Nodup := by
  have hnodup := (run_kept calls).nodup stepName
  have hcopied := run_copied kept_new calls
  rw [show copiedRun.run .new calls = _ from hcopied.symm]
  simp only [RunRecord.copied, readRows, JsMap.get_map]
  cases hrow : (runRecord.run .new calls).steps.get stepName with
  | none => exact List.nodup_nil
  | some row =>
    rw [hrow] at hnodup
    exact hnodup

def MutableWorkflow.copiedRun (wf : MutableWorkflow) : CopiedRun := ⟨wf.run, wf.steps⟩

theorem find?_eq_of_indexes (h : JsMap.Indexes (·.taskIndex) position tasks) (k : Int) :
    tasks.find? (fun t => t.taskIndex == k) = (position.get k).bind fun i => tasks[i]? := by
  have hfind : (position.get k).bind (fun i => tasks[i]?) = JsMap.find position tasks k := rfl
  rw [hfind]
  cases hfound : tasks.find? fun t => t.taskIndex == k with
  | some t =>
    have hk : t.taskIndex = k := by simpa using List.find?_some hfound
    exact ((h.find_eq_some_iff k t).mpr ⟨List.mem_of_find?_eq_some hfound, hk⟩).symm
  | none =>
    symm
    rw [eq_none_iff_forall_ne_some]
    intro t ht
    obtain ⟨hmem, hk⟩ := (h.find_eq_some_iff k t).mp ht
    have hnone := List.find?_eq_none.mp hfound t hmem
    simp [hk] at hnone

theorem set_eq_map_of_indexes (h : JsMap.Indexes (·.taskIndex) position tasks) {k : Int} {i : Nat}
    (hi : position.get k = some i) (task : StepTaskState) :
    tasks.set i task = tasks.map fun t => if t.taskIndex == k then task else t := by
  apply List.ext_getElem?
  intro n
  rw [List.getElem?_map]
  by_cases hn : i = n
  · subst hn
    obtain ⟨t, ht, hk⟩ := (h k i).mp hi
    have hlt := (List.getElem?_eq_some_iff.mp ht).1
    rw [List.getElem?_set_self hlt, ht]
    simp [hk]
  · rw [List.getElem?_set_ne hn]
    cases ht : tasks[n]? with
    | none => rfl
    | some t =>
      have hne : t.taskIndex ≠ k := by
        intro hk
        have hpos := (h k n).mpr ⟨t, ht, hk⟩
        rw [hi] at hpos
        exact hn (Option.some.inj hpos)
      simp [hne]

variable (s : InMemoryWorkflowStorage)

/-- A row of the storage that calls on a copied run have made is what one call more makes of it,
when the storage writes a task. -/
theorem storage_writeTaskRow (wf : MutableWorkflow) (calls : List RunCall)
    (hmade : wf.copiedRun = copiedRun.run .new calls) (stepName : String) (taskIndex : Int)
    (outcome : TaskOutcome) :
    (s.writeTaskRow wf stepName taskIndex outcome).copiedRun =
      copiedRun.run .new (calls ++ [.writeTaskRow stepName taskIndex outcome s.now]) := by
  have hnodup : (((wf.steps.get stepName).bind (·.tasks)).getD [] |>.map (·.taskIndex)).Nodup := by
    have hcopied := copiedRun_nodup calls stepName
    rwa [← hmade] at hcopied
  rw [run_append, ← hmade]
  show _ = wf.copiedRun.writeTaskRow stepName taskIndex outcome s.now
  have hindexed := indexes_indexFrom hnodup
  have hfind := find?_eq_of_indexes hindexed taskIndex
  unfold InMemoryWorkflowStorage.writeTaskRow CopiedRun.writeTaskRow MutableWorkflow.copiedRun
  simp only [hfind]
  cases hat : (JsMap.indexFrom (·.taskIndex) 0 JsMap.empty
      (((wf.steps.get stepName).bind (·.tasks)).getD [])).get taskIndex with
  | none => rfl
  | some i =>
    obtain ⟨t, ht, hk⟩ := (hindexed taskIndex i).mp hat
    simp only [bind_some, ht, isSome_some, if_true]
    rw [set_eq_map_of_indexes hindexed hat]
    rfl

end Promin.Durable
