import Mathlib.Data.String.Basic
import Promin.Durable.JournalCursor
import Promin.Spec.JournalEntries
import Promin.Spec.StorageFrame

/-!
# Journal slots are first-writer-wins

Over every run of the storage, a completed slot keeps its exit until it is discarded or
dropped, `loadJournal` lists every slot once in slot order, and the index is exact.
-/

namespace Promin.Durable

open InMemoryWorkflowStorage List InMemoryJournal JournalSlots

/-! ## Statements -/

def journalEntry (s : InMemoryWorkflowStorage) (w stepName : String) (slot : JournalSlot) :
    Option JournalEntry :=
  s.journal.entryIn (journalKey w stepName) slot

/-- The slot holds a completed entry with this exit. -/
def CompletedWith (s : InMemoryWorkflowStorage) (w stepName : String) (slot : JournalSlot)
    (exit : JournalExit) : Prop :=
  ∃ e, journalEntry s w stepName slot = some e ∧ e.phase = .completed ∧ e.exit = some exit

def DropsSlot (s : InMemoryWorkflowStorage) (o : StorageOp) (w stepName : String)
    (slot : JournalSlot) : Prop :=
  (∃ slots g, o = .discardJournalEntries w stepName slots g ∧ slot ∈ slots) ∨
  (∃ stepNames, o = .resetSteps w stepNames ∧ stepName ∈ stepNames) ∨
  (∃ run input g, o = .startFreshRun w run input g) ∨
  (∃ window limit, o = .purgeCompleted window limit ∧ (s.workflows.get w).isSome = true ∧
    (storage.next s o).workflows.get w = none)

/-- A completed slot keeps its exit through the call, unless the call drops the slot. -/
def KeepsCompleted (s : InMemoryWorkflowStorage) (o : StorageOp) : Prop :=
  ∀ w stepName slot exit, CompletedWith s w stepName slot exit →
    CompletedWith (storage.next s o) w stepName slot exit ∨ DropsSlot s o w stepName slot

/-- `complete` on a slot that is there answers what is stored at it afterwards. -/
def CompleteAgrees (s : InMemoryWorkflowStorage) : Prop :=
  ∀ (c : JournalCursor) (slot : JournalSlot) (exit : JournalExit) (result : CompleteResult),
    (journalEntry s c.workflowId c.stepName slot).isSome = true →
    (c.complete s slot exit).2 = .ok result →
    ∃ stored, CompletedWith (c.complete s slot exit).1 c.workflowId c.stepName slot stored ∧
      sameStoredValue stored.toJs result.exit.toJs = true

/-- `activityIndex` first, then `branchPath`. -/
def SlotBefore (a b : JournalEntry) : Prop :=
  a.activityIndex < b.activityIndex ∨
    (a.activityIndex = b.activityIndex ∧ a.branchPath < b.branchPath)

/-- `loadJournal` lists the entries of a step in strict slot order, so each slot once. -/
def LoadsInOrder (s : InMemoryWorkflowStorage) : Prop :=
  ∀ w stepName, (s.loadJournal w stepName).2.Pairwise SlotBefore ∧
    ∀ e, e ∈ (s.loadJournal w stepName).2 ↔ journalEntry s w stepName e.slot = some e

/-- The position index has the position of every entry under its slot's key, and nothing
    else. -/
def PositionsOwn (s : InMemoryWorkflowStorage) : Prop :=
  ∀ w stepName slots, s.journal.journalOf w stepName = some slots → ∀ slot i,
    slots.position.get (slotKey slot) = some i ↔
      ∃ e, slots.entries[i]? = some e ∧ e.slot = slot

def SharedKey (w stepName : String) : Prop :=
  ∃ w' stepName', journalKey w' stepName' = journalKey w stepName ∧
    ¬ (w' = w ∧ stepName' = stepName)

/-- The call drops a completed slot of a step whose journal key another pair shares. -/
def DropsShared (s : InMemoryWorkflowStorage) (o : StorageOp) : Prop :=
  ∃ w stepName slot exit, DropsSlot s o w stepName slot ∧ CompletedWith s w stepName slot exit ∧
    SharedKey w stepName

private def EntryChange (s : InMemoryWorkflowStorage) (o : StorageOp) (key : String)
    (slot : JournalSlot) : Prop :=
  EntryStep (s.journal.entryIn key slot) ((storage.next s o).journal.entryIn key slot) ∨
    ((storage.next s o).journal.entryIn key slot = none ∧
      ∃ w stepName, key = journalKey w stepName ∧ DropsSlot s o w stepName slot)

variable {s : InMemoryWorkflowStorage}

private theorem journalStep_of_eq {o : StorageOp}
    (h : s.journal.Sound) (heq : (storage.next s o).journal = s.journal) :
    (storage.next s o).journal.Sound ∧ ∀ key slot, EntryChange s o key slot := by
  refine ⟨heq ▸ h, fun key slot => .inl ?_⟩
  rw [heq]
  exact .same _

private theorem purgeLoop_journal (window : PurgeWindow) (limit : Int)
    (l : List (String × MutableWorkflow)) (deleted : Nat) (t : InMemoryWorkflowStorage)
    (h : t.journal.Sound) (hnd : (l.map Prod.fst).Nodup)
    (hrows : ∀ e ∈ l, t.workflows.get e.1 = some e.2) :
    (purgeLoop window limit l deleted t).1.journal.Sound ∧
    (∀ w, t.workflows.get w = none →
      (purgeLoop window limit l deleted t).1.workflows.get w = none) ∧
    ∀ key slot,
      (purgeLoop window limit l deleted t).1.journal.entryIn key slot =
        t.journal.entryIn key slot ∨
      ((purgeLoop window limit l deleted t).1.journal.entryIn key slot = none ∧
        ∃ w stepName, key = journalKey w stepName ∧ (t.workflows.get w).isSome = true ∧
          (purgeLoop window limit l deleted t).1.workflows.get w = none) := by
  induction l generalizing deleted t with
  | nil => exact ⟨h, fun _ hw => hw, fun _ _ => .inl rfl⟩
  | cons e rest ih =>
    obtain ⟨id, wf⟩ := e
    simp only [map_cons, nodup_cons] at hnd
    simp only [purgeLoop]
    split
    · exact ⟨h, fun _ hw => hw, fun _ _ => .inl rfl⟩
    · split
      · have hworkflows : (t.deleteRun id wf).workflows = t.workflows.delete id := rfl
        have hjournal : (t.deleteRun id wf).journal = t.journal.deleteWorkflow id := rfl
        have hgone : (t.deleteRun id wf).workflows.get id = none := by
          rw [hworkflows, JsMap.get_delete_self]
        obtain ⟨hsound, hrest, hentries⟩ := ih (deleted + 1) (t.deleteRun id wf)
          (hjournal ▸ h.deleteWorkflow id) hnd.2 fun e he => by
            rw [hworkflows, JsMap.get_delete_ne, hrows e (mem_cons_of_mem _ he)]
            rintro rfl
            exact hnd.1 (mem_map.mpr ⟨e, he, rfl⟩)
        refine ⟨hsound, fun w hw => hrest w ?_, fun key slot => ?_⟩
        · rw [hworkflows, JsMap.get_delete, hw, ite_self]
        · rcases hentries key slot with heq | ⟨hnone, w, stepName, hkey, hrow, hw⟩
          · rw [hjournal, entryIn_deleteWorkflow] at heq
            split at heq
            · rename_i hmem
              obtain ⟨stepName, hkey⟩ := h.keys id key hmem
              exact .inr ⟨heq, id, stepName, hkey,
                by rw [hrows (id, wf) mem_cons_self]; rfl, hrest id hgone⟩
            · exact .inl heq
          · refine .inr ⟨hnone, w, stepName, hkey, ?_, hw⟩
            rw [hworkflows, JsMap.get_delete] at hrow
            split at hrow
            · cases hrow
            · exact hrow
      · exact ih deleted t h hnd.2 fun e he => hrows e (mem_cons_of_mem _ he)

private theorem foldl_deleteStep (w : String) (names : List String) (j : InMemoryJournal)
    (h : j.Sound) :
    (names.foldl (fun j name => j.deleteStep w name) j).Sound ∧ ∀ key slot,
      (names.foldl (fun j name => j.deleteStep w name) j).entryIn key slot =
        j.entryIn key slot ∨
      ((names.foldl (fun j name => j.deleteStep w name) j).entryIn key slot = none ∧
        ∃ name ∈ names, key = journalKey w name) := by
  induction names generalizing j with
  | nil => exact ⟨h, fun _ _ => .inl rfl⟩
  | cons name rest ih =>
    obtain ⟨hsound, hentries⟩ := ih (j.deleteStep w name) (h.deleteStep w name)
    refine ⟨hsound, fun key slot => ?_⟩
    rcases hentries key slot with heq | ⟨hnone, name', hname', hkey⟩
    · rw [entryIn_deleteStep] at heq
      split at heq
      · rename_i hkey
        exact .inr ⟨heq, name, mem_cons_self, hkey.symm⟩
      · exact .inl heq
    · exact .inr ⟨hnone, name', mem_cons_of_mem _ hname', hkey⟩

private theorem journalStep_of_fenced {α : Type} {o : StorageOp}
    {w : String} {g : FenceGuard} {body : InMemoryWorkflowStorage × Except StorageError α}
    {f : α → StorageAnswer} (ho : storage.next s o = (answered f (s.fenced w g body)).1)
    (h : s.journal.Sound) (hbody : body.1.journal.Sound ∧
      ∀ key slot, EntryStep (s.journal.entryIn key slot) (body.1.journal.entryIn key slot)) :
    (storage.next s o).journal.Sound ∧ ∀ key slot, EntryChange s o key slot := by
  have hstep : (storage.next s o).journal.Sound ∧ ∀ key slot,
      EntryStep (s.journal.entryIn key slot) ((storage.next s o).journal.entryIn key slot) := by
    rw [ho]
    exact fenced_state (P := fun t => t.journal.Sound ∧ ∀ key slot,
      EntryStep (s.journal.entryIn key slot) (t.journal.entryIn key slot))
      ⟨h, fun _ _ => .same _⟩ hbody
  exact ⟨hstep.1, fun key slot => .inl (hstep.2 key slot)⟩

/-- **What one call does to the journal.** -/
private theorem step_journal (s : InMemoryWorkflowStorage) (o : StorageOp) (h : s.journal.Sound) :
    (storage.next s o).journal.Sound ∧ ∀ key slot, EntryChange s o key slot := by
  cases o with
  | advance ms | tryLock w ms attemptId | releaseLock w g | heartbeat w ms g =>
    exact journalStep_of_eq h rfl
  | startFreshRun w run input g =>
    have hbody : (storage.next s (.startFreshRun w run input g)).journal = s.journal ∨
        (storage.next s (.startFreshRun w run input g)).journal = s.journal.deleteWorkflow w := by
      refine fenced_state (P := fun t => t.journal = s.journal ∨
        t.journal = s.journal.deleteWorkflow w) (.inl rfl) ?_
      split
      · exact .inl rfl
      · split
        · exact .inl rfl
        · exact .inr rfl
    rcases hbody with heq | heq
    · exact journalStep_of_eq h heq
    · refine ⟨heq ▸ h.deleteWorkflow w, fun key slot => ?_⟩
      unfold EntryChange
      rw [heq, entryIn_deleteWorkflow]
      split
      · rename_i hmem
        -- the index named the key for `w`
        obtain ⟨stepName, hkey⟩ := h.keys w key hmem
        exact .inr ⟨rfl, w, stepName, hkey, .inr (.inr (.inl ⟨run, input, g, rfl⟩))⟩
      · exact .inl (.same _)
  | resetSteps w stepNames =>
    have hbody : (storage.next s (.resetSteps w stepNames)).journal = s.journal ∨
        (storage.next s (.resetSteps w stepNames)).journal =
          stepNames.foldl (fun j name => j.deleteStep w name) s.journal := by
      show (s.resetSteps w stepNames).1.journal = _ ∨ (s.resetSteps w stepNames).1.journal = _
      unfold resetSteps
      split
      · exact .inl rfl
      · split
        · exact .inl rfl
        · exact .inr rfl
    rcases hbody with heq | heq
    · exact journalStep_of_eq h heq
    · obtain ⟨hsound, hentries⟩ := foldl_deleteStep w stepNames s.journal h
      refine ⟨heq ▸ hsound, fun key slot => ?_⟩
      unfold EntryChange
      rw [heq]
      rcases hentries key slot with hsame | ⟨hnone, name, hname, hkey⟩
      · rw [hsame]
        exact .inl (.same _)
      · exact .inr ⟨hnone, w, name, hkey, .inr (.inl ⟨stepNames, rfl, hname⟩)⟩
  | purgeCompleted window limit =>
    obtain ⟨hsound, -, hentries⟩ := purgeLoop_journal window limit s.workflows.entries 0 s h
      s.workflows.nodup fun e he => (JsMap.mem_entries_iff _ _ _).mp he
    refine ⟨hsound, fun key slot => ?_⟩
    rcases hentries key slot with hsame | ⟨hnone, w, stepName, hkey, hrow, hgone⟩
    · refine .inl ?_
      show EntryStep _ ((s.purgeCompleted window limit).1.journal.entryIn key slot)
      unfold purgeCompleted
      rw [hsame]
      exact .same _
    · exact .inr ⟨hnone, w, stepName, hkey, .inr (.inr (.inr ⟨window, limit, rfl, hrow, hgone⟩))⟩
  | loadJournal w stepName =>
    obtain ⟨hsound, hentries⟩ := load_step h w stepName
    refine ⟨hsound, fun key slot => .inl ?_⟩
    show EntryStep _ ((s.journal.load w stepName).1.entryIn key slot)
    rw [hentries]
    exact .same _
  | appendEntry a name hash exit g =>
    exact journalStep_of_fenced rfl h (append_step h s.now a name hash exit)
  | appendPendingEntry a name hash type wakeAt g =>
    exact journalStep_of_fenced rfl h
      (appendPending_step h s.now a name hash type wakeAt)
  | completePendingEntry a exit g =>
    exact journalStep_of_fenced rfl h (completePending_step h a exit)
  | discardJournalEntries w stepName slots g =>
    rcases fenced_cases s w g
      ({ s with journal := s.journal.discard w stepName slots }, .ok ()) with
      ⟨e, -, hrej⟩ | ⟨-, hacc⟩
    · exact journalStep_of_eq h (congrArg (fun r => r.1.journal) hrej)
    · have heq : (storage.next s (.discardJournalEntries w stepName slots g)).journal =
          s.journal.discard w stepName slots := congrArg (fun r => r.1.journal) hacc
      refine ⟨heq ▸ h.discard w stepName slots, fun key slot => ?_⟩
      unfold EntryChange
      rw [heq, entryIn_discard h]
      split
      · rename_i hdrop
        exact .inr ⟨rfl, w, stepName, hdrop.1.symm, .inl ⟨slots, g, rfl, hdrop.2⟩⟩
      · exact .inl (.same _)
  | findDueSleeps now limit =>
    exact ⟨⟨h.slots, h.keys⟩, fun _ _ => .inl (.same _)⟩
  | _ => exact journalStep_of_eq h (rowCall_journal trivial)

/-! ## Every state -/

private theorem keepsCompleted_of_sound {o : StorageOp}
    (h : s.journal.Sound) (hshared : ¬ DropsShared s o) : KeepsCompleted s o := by
  rintro w stepName slot exit ⟨e, hentry, hphase, hexit⟩
  rcases (step_journal s o h).2 (journalKey w stepName) slot with
    hstep | ⟨-, w', stepName', hkey, hdrop⟩
  · left
    unfold journalEntry at hentry
    rw [hentry] at hstep
    generalize hafter : (storage.next s o).journal.entryIn (journalKey w stepName) slot = after
      at hstep
    cases hstep with
    | same => exact ⟨e, hafter, hphase, hexit⟩
    | completed hopen hdone =>
      rw [hphase] at hopen
      exact nomatch hopen
  · right
    -- The entries were dropped under this key: for this very step, as no other pair has it.
    have hcompleted : CompletedWith s w' stepName' slot exit := by
      refine ⟨e, ?_, hphase, hexit⟩
      unfold journalEntry at hentry ⊢
      rw [← hkey, hentry]
    by_cases hsame : w = w' ∧ stepName = stepName'
    · rw [hsame.1, hsame.2]
      exact hdrop
    · exact absurd ⟨w', stepName', slot, exit, hdrop, hcompleted, w, stepName, hkey, hsame⟩ hshared

private theorem completeAgrees_of_sound (h : s.journal.Sound) :
    CompleteAgrees s := by
  intro c slot exit result hsome hresult
  obtain ⟨e, hentry⟩ := Option.isSome_iff_exists.mp hsome
  obtain ⟨stored, e', hafter, hphase, hexit, hanswer, hsame⟩ :=
    completePending_answer h (c.address slot) exit hentry
  unfold JournalCursor.complete completePendingEntry at hresult ⊢
  rcases fenced_cases s (c.address slot).workflowId c.guard_
    ({ s with journal := (s.journal.completePending (c.address slot) exit).1 },
      .ok (s.journal.completePending (c.address slot) exit).2) with ⟨err, -, hrej⟩ | ⟨-, hacc⟩
  · simp only [hrej] at hresult
    exact nomatch hresult
  · simp only [hacc] at hresult ⊢
    refine ⟨stored, ⟨e', hafter, hphase, hexit⟩, ?_⟩
    simp only [Except.map, hanswer, Except.ok.injEq] at hresult
    cases hcompleted : (s.journal.completePending (c.address slot) exit).2.completed with
    | true =>
      simp only [hcompleted] at hresult
      rw [← hresult]
      exact hsame hcompleted
    | false =>
      simp only [hcompleted] at hresult
      rw [← hresult]
      exact sameStoredValue_refl _

theorem before_iff (a b : JournalEntry) : a.before b = true ↔
    a.activityIndex < b.activityIndex ∨
      (a.activityIndex = b.activityIndex ∧ a.branchPath ≤ b.branchPath) := by
  unfold JournalEntry.before
  by_cases h : a.activityIndex = b.activityIndex <;> simp [h]

private instance : Std.Total fun a b : JournalEntry => a.before b = true where
  total a b := by
    simp only [before_iff]
    rcases Nat.lt_trichotomy a.activityIndex b.activityIndex with h | h | h
    · exact .inl (.inl h)
    · rcases le_total a.branchPath b.branchPath with hp | hp
      · exact .inl (.inr ⟨h, hp⟩)
      · exact .inr (.inr ⟨h.symm, hp⟩)
    · exact .inr (.inl h)

private instance : IsTrans JournalEntry fun a b => a.before b = true where
  trans a b c := by
    simp only [before_iff]
    rintro (hab | ⟨hab, hab'⟩) (hbc | ⟨hbc, hbc'⟩)
    · exact .inl (by omega)
    · exact .inl (by omega)
    · exact .inl (by omega)
    · exact .inr ⟨by omega, le_trans hab' hbc'⟩

private theorem pairwise_sort {slots : JournalSlots} (h : slots.Sound) :
    (sort slots.entries).Pairwise SlotBefore := by
  have hperm : (sort slots.entries).Perm slots.entries :=
    perm_insertionSort _ _
  have hne : (sort slots.entries).Pairwise fun a b => a.slot ≠ b.slot := by
    have hnd : ((sort slots.entries).map fun e => slotKey e.slot).Nodup := by
      rw [(hperm.map _).nodup_iff]
      exact h.indexed.nodup
    exact (pairwise_map.mp hnd).imp fun hkey hslot => hkey (congrArg slotKey hslot)
  refine List.Pairwise.imp₂ ?_ (pairwise_insertionSort _ _) hne
  intro a b hbefore hslot
  rcases (before_iff a b).mp hbefore with hlt | ⟨heq, hle⟩
  · exact .inl hlt
  · refine .inr ⟨heq, lt_of_le_of_ne hle fun hpath => hslot ?_⟩
    simp only [JournalEntry.slot, JournalSlot.mk.injEq]
    exact ⟨heq, hpath⟩

theorem loadsInOrder_of_sound (h : s.journal.Sound) :
    LoadsInOrder s := by
  intro w stepName
  have hload : (s.loadJournal w stepName).2 = _ := load_eq h w stepName
  rw [hload]
  unfold journalEntry
  cases hget : s.journal.journalOf w stepName with
  | none =>
    have hget' : s.journal.journal.get (journalKey w stepName) = none := hget
    simp [InMemoryJournal.entryIn, hget']
  | some slots =>
    have hslots := h.slots _ _ hget
    simp only [Option.map_some, Option.getD_some]
    refine ⟨pairwise_sort hslots, fun e => ?_⟩
    rw [entryIn_of_journalOf hget, hslots.entryAt_eq_some_iff]
    simp [sort, mem_insertionSort]

private theorem positionsOwn_of_sound (h : s.journal.Sound) :
    PositionsOwn s := by
  intro w stepName slots hget slot i
  rw [(h.slots _ _ hget).indexed (slotKey slot) i]
  exact exists_congr fun e => and_congr_right fun _ => ⟨slotKey_inj, fun he => he ▸ rfl⟩

theorem sound_of_run (config : StorageConfig) (ops : List StorageOp) :
    (storage.run (.new config) ops).journal.Sound :=
  Machine.run_induction (fun s o hs => (step_journal s o hs).1) ops sound_new

/-- **Journal slots are first-writer-wins** along every run of the storage in which no call
    drops completed entries under a journal key that another pair shares. -/
theorem journal_first_writer_wins (config : StorageConfig) (ops : List StorageOp)
    (h : storage.Always (fun s o => ¬ DropsShared s o) (.new config) ops) :
    storage.Always KeepsCompleted (.new config) ops ∧
    ∀ before, before <+: ops →
      CompleteAgrees (storage.run (.new config) before) ∧
      LoadsInOrder (storage.run (.new config) before) ∧
      PositionsOwn (storage.run (.new config) before) := by
  have hnew : (InMemoryWorkflowStorage.new config).journal.Sound := sound_new
  have hstep (s : InMemoryWorkflowStorage) (o : StorageOp) (hs : s.journal.Sound) :
      (storage.next s o).journal.Sound := (step_journal s o hs).1
  refine ⟨Machine.always_of_invariant hstep (fun s o => keepsCompleted_of_sound) hnew h, ?_⟩
  intro before _
  have hsound := sound_of_run config before
  exact ⟨completeAgrees_of_sound hsound, loadsInOrder_of_sound hsound,
    positionsOwn_of_sound hsound⟩

private theorem not_dropsShared {o : StorageOp}
    (h : ∀ w stepName slot, ¬ DropsSlot s o w stepName slot) : ¬ DropsShared s o := by
  rintro ⟨w, stepName, slot, exit, hdrop, -⟩
  exact h w stepName slot hdrop

/-- A body waits for a signal, the delivery completes the slot, and the timeout that comes
    after it is told the delivered value. -/
theorem journal_first_writer_wins_signal :
    let a : EntryAddress := { workflowId := "w", stepName := "wait", activityIndex := 0 }
    let ops : List StorageOp := [
      .appendPendingEntry a "approve" none .signal (some 5) none,
      .completePendingEntry a (.success (.str "yes")) none,
      .completePendingEntry a (.success (.str "timeout")) none,
      .loadJournal "w" "wait"]
    storage.Always KeepsCompleted (.new { instanceId := "i" }) ops ∧
      CompleteAgrees (storage.run (.new { instanceId := "i" }) ops) := by
  intro a ops
  have h := journal_first_writer_wins { instanceId := "i" } ops
    ⟨not_dropsShared (by simp [DropsSlot]), not_dropsShared (by simp [DropsSlot]),
      not_dropsShared (by simp [DropsSlot]), not_dropsShared (by simp [DropsSlot]), trivial⟩
  exact ⟨h.1, (h.2 ops (prefix_refl ops)).1⟩

/-- Step `b::c` of workflow `a` and step `c` of workflow `a::b` share a journal: resetting
    the second drops the completed slot of the first. -/
theorem shared_journal_counterexample :
    let a : EntryAddress := { workflowId := "a", stepName := "b::c", activityIndex := 0 }
    let ops : List StorageOp := [
      .createWorkflow { workflowId := "a::b", workflowName := "order", input := .null } none,
      .appendEntry a "charge" none (.success (.str "paid")) none,
      .resetSteps "a::b" ["c"]]
    CompletedWith (storage.run (.new { instanceId := "i" }) (ops.take 2)) "a" "b::c" ⟨0, ""⟩
      (.success (.str "paid")) ∧
    journalEntry (storage.run (.new { instanceId := "i" }) ops) "a" "b::c" ⟨0, ""⟩ = none ∧
    ¬ storage.Always KeepsCompleted (.new { instanceId := "i" }) ops := by
  intro a ops
  have hcompleted : CompletedWith (storage.run (.new { instanceId := "i" }) (ops.take 2))
      "a" "b::c" ⟨0, ""⟩ (.success (.str "paid")) :=
    ⟨{ activityIndex := 0, branchPath := "", activityName := "charge", stepType := .activity,
       phase := .completed, exit := some (.success (.str "paid")), createdAt := 0 },
      by decide, rfl, rfl⟩
  have hgone : journalEntry (storage.run (.new { instanceId := "i" }) ops) "a" "b::c" ⟨0, ""⟩ =
      none := by decide
  refine ⟨hcompleted, hgone, ?_⟩
  rintro ⟨-, -, hkeeps, -⟩
  rcases hkeeps "a" "b::c" ⟨0, ""⟩ (.success (.str "paid")) hcompleted with ⟨e, he, -⟩ | hdrop
  · exact nomatch he.symm.trans hgone
  · simp [DropsSlot] at hdrop

end Promin.Durable
