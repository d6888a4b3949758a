import Mathlib.Data.String.Basic
import Promin.ForStd.Paging
import Promin.Distributed.ResumeScanner
import Promin.Spec.StaleSweep
import Promin.Spec.StrandedRuns

/-!
# What the scanners find

The scans of the in-memory storage go over the runs in the order of their ids, so a page that
leaves a due run out is full and ends before it: they are what a `ResumeScanner` expects of its
`find`.
-/

namespace Promin.Distributed

open Durable List InMemoryWorkflowStorage Paging

abbrev KeyedStorage := { s : InMemoryWorkflowStorage // RowsKeyed s }

/-- The rows a scan picks, one for each run in scope, in the order of the run ids. -/
def matching {α : Type} (s : InMemoryWorkflowStorage) (pick : MutableWorkflow → Option α) :
    List α :=
  (s.workflows.keys.insertionSort fun a b => a ≤ b).filterMap fun id =>
    (s.workflows.get id).bind fun wf => if s.inScope wf then pick wf else none

section Scans

variable {α : Type} {idOf : α → String} {s : InMemoryWorkflowStorage}
  {pick : MutableWorkflow → Option α} (hkeyed : RowsKeyed s)
  (hpick : ∀ wf row, pick wf = some row → idOf row = wf.workflowId)

include hkeyed hpick

private theorem idOf_picked {id : String} {row : α} (h : ((s.workflows.get id).bind fun wf =>
    if s.inScope wf then pick wf else none) = some row) : idOf row = id := by
  obtain ⟨wf, hget, hrow⟩ := Option.bind_eq_some_iff.mp h
  split at hrow
  · rw [hpick wf row hrow, hkeyed id wf hget]
  · cases hrow

theorem pairwise_matching : (matching s pick).Pairwise (idOf · < idOf ·) := by
  have hsorted : (s.workflows.keys.insertionSort fun a b => a ≤ b).Pairwise
      fun a b => a < b :=
    List.Pairwise.imp₂ (fun a b hle hne => lt_of_le_of_ne hle hne)
      (pairwise_insertionSort (fun a b => a ≤ b) _)
      ((perm_insertionSort _ _).nodup_iff.mpr s.workflows.nodup)
  refine List.Pairwise.filterMap _ ?_ hsorted
  intro id id' hlt row hrow row' hrow'
  rw [idOf_picked hkeyed hpick hrow, idOf_picked hkeyed hpick hrow']
  exact hlt

theorem scanWorkflows_eq (limit : Nat) (after : Option String) :
    s.scanWorkflows limit after pick =
      (afterCursor idOf after (matching s pick)).take limit := by
  unfold scanWorkflows matching
  simp only [Int.toNat_natCast]
  congr 1
  cases after with
  | none => simp [afterCursor]
  | some cursor =>
    -- Sorting what comes after the cursor is as good as cutting the sorted ids there.
    have hids : ((s.workflows.keys.filter fun id => decide (cursor < id)).insertionSort
        fun a b => a ≤ b) = (s.workflows.keys.insertionSort fun a b => a ≤ b).filter
          fun id => decide (cursor < id) :=
      List.Perm.eq_of_pairwise (fun a b _ _ => le_antisymm)
        (pairwise_insertionSort _ _) ((pairwise_insertionSort _ _).filter _)
        ((perm_insertionSort _ _).trans ((perm_insertionSort _ _).symm.filter _))
    simp only [Option.map_some, Option.getD_some, afterCursor, hids]
    rw [filterMap_filter, filter_filterMap]
    congr 1
    funext id
    cases hrow : (s.workflows.get id).bind fun wf => if s.inScope wf then pick wf else none with
    | none => simp
    | some row => simp [Option.filter, idOf_picked hkeyed hpick hrow]

end Scans

/-- What a page of a scan is read from: the runs of its time, and what the scan picks of them. -/
structure ScannedRuns {α : Type} (idOf : α → String) where
  storage : KeyedStorage
  pick : MutableWorkflow → Option α
  own : ∀ wf row, pick wf = some row → idOf row = wf.workflowId

section Pages

variable {α : Type} {idOf : α → String}

def ScannedRuns.rows (page : ScannedRuns idOf) : List α := matching page.storage.1 page.pick

/-- Pages through a scan with the last id of each page, up to an empty or short page: the rows
    read, and whether that page came. -/
def readScan (limit : Nat) (pages : List (ScannedRuns idOf)) : List α × Bool :=
  readOn idOf limit
    (fun page after => page.storage.1.scanWorkflows limit after page.pick) pages none

theorem lists_scanWorkflows (limit : Nat) (page : ScannedRuns idOf) :
    Lists idOf limit
      (fun page after => page.storage.1.scanWorkflows limit after page.pick) idOf
        ScannedRuns.rows page where
  sorted := pairwise_matching page.storage.2 page.own
  reads := fun _ => scanWorkflows_eq page.storage.2 page.own limit _

/-- Runs may come and go between the pages: the rows read are in the order of their ids, each
    was there when it was read, and a run picked all along is among them.  Where nothing
    changes, the rows read are the rows. -/
theorem readScan_complete {limit : Nat} (hpos : 0 < limit) :
    (∀ pages : List (ScannedRuns idOf),
      (readScan limit pages).1.Pairwise (idOf · < idOf ·) ∧
      (∀ row ∈ (readScan limit pages).1, ∃ page ∈ pages, row ∈ page.rows) ∧
      ((readScan limit pages).2 = true → ∀ id,
        (∀ page ∈ pages, ∃ row ∈ page.rows, idOf row = id) →
          ∃ row ∈ (readScan limit pages).1, idOf row = id)) ∧
    ∀ (page : ScannedRuns idOf) (n : Nat), page.rows.length < n →
      readScan limit (List.replicate n page) = (page.rows, true) := by
  constructor
  · intro pages
    exact readOn_spec hpos fun page _ => lists_scanWorkflows limit page
  · intro page n hn
    exact readOn_replicate hpos (lists_scanWorkflows limit page) hn

/-- Two runs, created against the order of their ids. -/
def twoRuns : ScannedRuns (id : String → String) where
  storage := ⟨storage.run (new { instanceId := "scanner" })
    [.createWorkflow { workflowId := "w2", workflowName := "order", input := .null } none,
      .createWorkflow { workflowId := "w1", workflowName := "order", input := .null } none],
    run_rowsKeyed _ _⟩
  pick wf := some wf.workflowId
  own wf row h := by
    cases h
    rfl

theorem readScan_twoRuns : readScan 1 (List.replicate 3 twoRuns) = (["w1", "w2"], true) := by
  have hrows : twoRuns.rows = ["w1", "w2"] := by decide +kernel
  rw [(readScan_complete Nat.one_pos).2 twoRuns 3 (by rw [hrows]; decide), hrows]

end Pages

section Wakeups

variable {s : InMemoryWorkflowStorage} {pick : MutableWorkflow → Option WorkflowWakeup}

/-- The scan is about the run. -/
def picks (s : InMemoryWorkflowStorage) (pick : MutableWorkflow → Option WorkflowWakeup)
    (id : String) : Bool :=
  (s.workflows.get id).any fun wf => s.inScope wf && (pick wf).isSome

theorem picks_eq_true {id : String} : picks s pick id = true ↔
    ∃ wf, s.workflows.get id = some wf ∧ s.inScope wf = true ∧ (pick wf).isSome = true := by
  unfold picks
  cases s.workflows.get id <;> simp

theorem scanWorkflows_covers (hkeyed : RowsKeyed s)
    (hpick : ∀ wf row, pick wf = some row → row.workflowId = wf.workflowId) {pageSize : Nat}
    (hpos : 0 < pageSize) {id : String} (hdue : picks s pick id = true) {after : Option String}
    (hafter : ∀ cursor ∈ after, cursor < id) :
    (∃ row ∈ s.scanWorkflows pageSize after pick, row.workflowId = id) ∨
      (decide ((s.scanWorkflows pageSize after pick).length < pageSize) = false ∧
        ∃ last ∈ (s.scanWorkflows pageSize after pick).getLast?, last.workflowId < id) := by
  obtain ⟨wf, hget, hscope, hpicked⟩ := picks_eq_true.mp hdue
  obtain ⟨row, hrow⟩ := Option.isSome_iff_exists.mp hpicked
  have hid : row.workflowId = id := by rw [hpick wf row hrow, hkeyed id wf hget]
  have hmem : row ∈ matching s pick := by
    refine mem_filterMap.mpr ⟨id, ?_, by simp [hget, hscope, hrow]⟩
    rw [(perm_insertionSort _ _).mem_iff, JsMap.mem_keys_iff, hget]
    rfl
  rw [scanWorkflows_eq hkeyed hpick]
  cases mem_take_or (pairwise_afterCursor (pairwise_matching hkeyed hpick) after)
    hpos (mem_afterCursor.mpr ⟨hmem, hid ▸ hafter⟩) with
  | inl hpage => exact .inl ⟨row, hpage, hid⟩
  | inr hlater =>
    obtain ⟨hfull, last, hlast, hlt⟩ := hlater
    exact .inr ⟨decide_eq_false (not_lt.mpr (le_of_eq hfull.symm)), last, hlast, hid ▸ hlt⟩

end Wakeups

/-- The wake-up `listDueTimers` picks for a run. -/
def dueTimerOf (now : Int) (wf : MutableWorkflow) : Option WorkflowWakeup :=
  if wf.status ≠ .suspended then none
  else (stepsByName wf).findSome? (timerOf now wf)

/-- The wake-up `listSignalWakeups` picks for a run. -/
def dueSignalOf (s : InMemoryWorkflowStorage) (wf : MutableWorkflow) : Option WorkflowWakeup :=
  if wf.status ≠ .suspended then none
  else (stepsByName wf).findSome?
    (signalOf ((s.signals.get wf.workflowId).getD []) wf)

theorem dueTimerOf_workflowId {now : Int} {wf : MutableWorkflow} {row : WorkflowWakeup}
    (h : dueTimerOf now wf = some row) : row.workflowId = wf.workflowId := by
  unfold dueTimerOf at h
  split at h
  · cases h
  · obtain ⟨step, -, hstep⟩ := exists_of_findSome?_eq_some h
    exact timerOf_workflowId hstep

theorem dueSignalOf_workflowId {s : InMemoryWorkflowStorage} {wf : MutableWorkflow}
    {row : WorkflowWakeup} (h : dueSignalOf s wf = some row) : row.workflowId = wf.workflowId := by
  unfold dueSignalOf at h
  split at h
  · cases h
  · obtain ⟨step, -, hstep⟩ := exists_of_findSome?_eq_some h
    exact signalOf_workflowId hstep

def sleepFinder (pageSize : Nat) (hpos : 0 < pageSize) : DueFinder KeyedStorage where
  find s after :=
    let rows := s.1.listDueTimers s.1.now pageSize after
    { rows := rows, done := decide (rows.length < pageSize) }
  due s id := picks s.1 (dueTimerOf s.1.now) id = true
  covers := fun s _ _ hdue hafter =>
    scanWorkflows_covers s.2 (fun _ _ => dueTimerOf_workflowId) hpos hdue hafter

instance (pageSize : Nat) (hpos : 0 < pageSize) (s : KeyedStorage) (id : String) :
    Decidable ((sleepFinder pageSize hpos).due s id) :=
  inferInstanceAs (Decidable (_ = true))

/-- `find` of the signal scanner: runs that wait for a delivered signal. -/
def signalFinder (pageSize : Nat) (hpos : 0 < pageSize) : DueFinder KeyedStorage where
  find s after :=
    let rows := s.1.listSignalWakeups pageSize after
    { rows := rows, done := decide (rows.length < pageSize) }
  due s id := picks s.1 (dueSignalOf s.1) id = true
  covers := fun s _ _ hdue hafter =>
    scanWorkflows_covers s.2 (fun _ _ => dueSignalOf_workflowId) hpos hdue hafter

end Promin.Distributed
