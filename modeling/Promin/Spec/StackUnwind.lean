import Promin.Durable.CompensationStack
import Promin.ForStd.History
import Promin.Spec.Driving
import Promin.Spec.JournalFailures
import Promin.Spec.JournalWriters

/-!
# The unwind of a journaled step

A body that has failed is driven again and again: it registers its compensations
at the same slot indices, and unwinds; each drive can crash before any of its
actions, and the lock of the run changes hands between them.
-/

namespace Promin.Durable

open CompensationStack List InMemoryJournal Prog JournalCursor InMemoryWorkflowStorage Triple Within

variable {V : Type}

/-! ## Statements -/

def CompletedIn (j : InMemoryJournal) (key : String) (slot : JournalSlot) (exit : JournalExit) :
    Prop :=
  ∃ e, j.entryIn key slot = some e ∧ e.phase = .completed ∧ e.exit = some exit

/-- The unwinds are done with a compensation: it has completed, or was passed over. -/
def Settled (events : List UnwindEvent) (activityIndex : Nat) : Prop :=
  (∃ exit, .completed activityIndex exit ∈ events) ∨ .unreachable activityIndex ∈ events

/-- A compensation runs when those registered after it are settled, and not when it has
    completed; it completes when it has run. -/
def RanInTurn (comps : List (Compensation V)) : List UnwindEvent → Prop :=
  History.Each fun past event => match event with
    | .ran activityIndex =>
      (∀ comp ∈ comps, activityIndex < comp.activityIndex → Settled past comp.activityIndex) ∧
      ∀ exit, .completed activityIndex exit ∉ past
    | .completed activityIndex _ => .ran activityIndex ∈ past
    | .unreachable _ => True

def succeeded (events : List UnwindEvent) (activityIndex : Nat) : Bool :=
  events.any fun
    | .completed i exit => i == activityIndex && exit.isSuccess
    | _ => false

def succeededSlots (comps : List (Compensation V)) (events : List UnwindEvent) :
    List JournalSlot :=
  comps.flatMap fun comp => if succeeded events comp.activityIndex then comp.rolledBack else []

/-- The compensations a body registers, in order. -/
def compensationsOf (body : List (BodyMove V)) : List (Compensation V) :=
  (registered { workflowId := "", stepName := "", guard_ := none, journal := [] }
    body).compensations

def unwindAttempts (rt : ErrorRuntime V) (workflowId stepName : String) (body : List (BodyMove V))
    (drives : List (FenceGuard × List Moment)) (w : UnwindWorld) : UnwindWorld :=
  drives.foldl (fun w drive =>
    (unwindAttempt rt workflowId stepName body drive.1 drive.2 w).2.2) w

/-- What the drives of a body do from `s`, wherever they crash. -/
structure UnwindsExactly (rt : ErrorRuntime V) (workflowId stepName : String)
    (body : List (BodyMove V)) (s : InMemoryWorkflowStorage) : Prop where
  inTurn : ∀ drives, RanInTurn (compensationsOf body)
    (unwindAttempts rt workflowId stepName body drives ⟨s, []⟩).events
  rows : ∀ drives activityIndex exit,
    .completed activityIndex exit ∈
      (unwindAttempts rt workflowId stepName body drives ⟨s, []⟩).events →
    CompletedWith (unwindAttempts rt workflowId stepName body drives ⟨s, []⟩).storage
      workflowId stepName ⟨activityIndex, ""⟩ exit
  /-- A drive ends by its report or by a crash. -/
  ends : ∀ drives guard_ moments e,
    (unwindAttempt rt workflowId stepName body guard_ moments
      (unwindAttempts rt workflowId stepName body drives ⟨s, []⟩)).1 ≠ .error (.thrown e)
  reports : ∀ drives guard_ moments rolledBack ms w,
    unwindAttempt rt workflowId stepName body guard_ moments
      (unwindAttempts rt workflowId stepName body drives ⟨s, []⟩) = (.ok rolledBack, ms, w) →
    (∀ comp ∈ compensationsOf body, Settled w.events comp.activityIndex) ∧
    rolledBack = succeededSlots (compensationsOf body).reverse w.events

/-! ## The stack -/

variable (c : JournalCursor)

private def onCursor (stack : CompensationStack V) : CompensationStack V :=
  { stack with cursor := { c with nextIndex := stack.cursor.nextIndex } }

private theorem move_onCursor (stack : CompensationStack V) (m : BodyMove V) :
    move (onCursor c stack) m = onCursor c (move stack m) := by
  cases m with
  | yielded => rfl
  | succeeded source name compensate => rfl

theorem registered_eq (hnew : c.nextIndex = 0) (body : List (BodyMove V)) :
    ∃ n, registered c body = ⟨{ c with nextIndex := n }, compensationsOf body⟩ := by
  have hfold : ∀ (body : List (BodyMove V)) (stack : CompensationStack V),
      body.foldl move (onCursor c stack) = onCursor c (body.foldl move stack) :=
    fun _ _ => foldl_hom (onCursor c) fun stack m => move_onCursor c stack m
  have hstart : (CompensationStack.new c : CompensationStack V) = onCursor c (CompensationStack.new
      { workflowId := "", stepName := "", guard_ := none, journal := [] }) := by
    cases c
    simp only at hnew
    subst hnew
    rfl
  refine ⟨(registered { workflowId := "", stepName := "", guard_ := none, journal := [] }
    body).cursor.nextIndex, ?_⟩
  rw [registered, hstart, hfold]
  rfl

theorem compensationsOf_increasing (body : List (BodyMove V)) :
    (compensationsOf body).Pairwise fun a b => a.activityIndex < b.activityIndex := by
  refine (List.foldlRecOn (motive := fun stack : CompensationStack V =>
    stack.compensations.Pairwise (fun a b => a.activityIndex < b.activityIndex) ∧
      ∀ comp ∈ stack.compensations, comp.activityIndex < stack.cursor.nextIndex) body move
    (b := .new _) ⟨List.Pairwise.nil, List.forall_mem_nil _⟩ ?_).1
  rintro stack ⟨hsorted, hbelow⟩ m -
  cases m with
  | yielded =>
    refine ⟨hsorted, fun comp hcomp => ?_⟩
    have hlt := hbelow comp hcomp
    show comp.activityIndex < stack.cursor.nextIndex + 1
    omega
  | succeeded source name compensate =>
    constructor
    · show (stack.compensations ++ [_]).Pairwise _
      rw [pairwise_append]
      refine ⟨hsorted, pairwise_singleton _ _, fun comp hcomp new hnew => ?_⟩
      rw [mem_singleton.mp hnew]
      exact hbelow comp hcomp
    · intro comp hcomp
      show comp.activityIndex < stack.cursor.nextIndex + 1
      cases mem_append.mp hcomp with
      | inl hold =>
        have hlt := hbelow comp hold
        omega
      | inr hnew =>
        rw [mem_singleton.mp hnew]
        exact Nat.lt_succ_self _

variable {key : String} {slot : JournalSlot} {j : InMemoryJournal} {events : List UnwindEvent}

theorem entryIn_slot (h : j.Sound)
    {e : JournalEntry} (he : j.entryIn key slot = some e) : e.slot = slot := by
  obtain ⟨slots, hget, hat⟩ := Option.bind_eq_some_iff.mp he
  exact (((h.slots _ _ hget).entryAt_eq_some_iff _ _).mp hat).2

theorem recorded_of_load {s : InMemoryWorkflowStorage} (h : s.journal.Sound)
    (workflowId stepName : String) (guard_ : FenceGuard) (n : Nat) (slot : JournalSlot) :
    recorded ⟨workflowId, stepName, guard_, (s.loadJournal workflowId stepName).2, n⟩
      slot = journalEntry s workflowId stepName slot := by
  obtain ⟨hordered, hmem⟩ := loadsInOrder_of_sound h workflowId stepName
  generalize hjournal : (s.loadJournal workflowId stepName).2 = journal at hordered hmem
  have hnd : (journal.map fun e => slotKey e.slot).Nodup := by
    apply List.Pairwise.map _ (fun a b hab => ?_) hordered
    intro hkey
    have hslot : a.activityIndex = b.activityIndex ∧ a.branchPath = b.branchPath := by
      simpa [JournalEntry.slot] using slotKey_inj hkey
    rcases hab with hlt | ⟨-, hlt⟩
    · omega
    · exact (hslot.2 ▸ hlt : b.branchPath < b.branchPath).false
  apply Option.ext
  intro e
  show (journal.foldl (fun m e => m.set (slotKey e.slot) e) JsMap.empty).get (slotKey slot) =
    some e ↔ _
  rw [JsMap.get_foldl_set_eq_some_iff _ journal _ fun a ha b hb hkey =>
    inj_on_of_nodup_map hnd ha hb hkey]
  constructor
  · rintro (⟨hin, hkey⟩ | ⟨-, hempty⟩)
    · rw [← slotKey_inj hkey]
      exact (hmem e).mp hin
    · cases hempty
  · intro hentry
    have hslot := entryIn_slot h hentry
    exact .inl ⟨(hmem e).mpr (hslot ▸ hentry), by rw [hslot]⟩

/-! ## The journal and the log between two actions -/

/-- What the drives keep of the journal and the log. -/
structure Unwinding (comps : List (Compensation V)) (key : String) (j : InMemoryJournal)
    (events : List UnwindEvent) : Prop where
  sound : j.Sound
  completed : ∀ comp ∈ comps, ∀ exit,
    CompletedIn j key comp.slot exit ↔ .completed comp.activityIndex exit ∈ events
  own : ∀ i exit, .completed i exit ∈ events → ∃ comp ∈ comps, comp.activityIndex = i
  inTurn : RanInTurn comps events

/-- How far a drive is: it has settled `done`, and its cursor has the rows of the others as
    they are. -/
structure Reached (cursor : JournalCursor) (done rest : List (Compensation V))
    (rolledBack : List JournalSlot) (j : InMemoryJournal) (events : List UnwindEvent) : Prop where
  settled : ∀ comp ∈ done, Settled events comp.activityIndex
  snapshot : ∀ comp ∈ rest, cursor.recorded comp.slot =
    j.entryIn (journalKey cursor.workflowId cursor.stepName) comp.slot
  reported : rolledBack = succeededSlots done events

def PendingIn (j : InMemoryJournal) (key : String) (slot : JournalSlot) : Prop :=
  ∃ e, j.entryIn key slot = some e ∧ e.phase = .pending

theorem Settled.append {i : Nat} (h : Settled events i)
    (new : List UnwindEvent) : Settled (events ++ new) i := by
  rcases h with ⟨exit, hexit⟩ | hunreachable
  · exact .inl ⟨exit, mem_append_left _ hexit⟩
  · exact .inr (mem_append_left _ hunreachable)

@[simp] theorem succeeded_append (events new : List UnwindEvent) (i : Nat) :
    succeeded (events ++ new) i = (succeeded events i || succeeded new i) := by
  simp [succeeded]

theorem succeeded_eq_false {i : Nat}
    (h : ∀ exit, .completed i exit ∉ events) : succeeded events i = false := by
  rw [succeeded, any_eq_false]
  intro e he
  cases e with
  | ran i' => simp
  | unreachable i' => simp
  | completed i' exit =>
    have hne : i' ≠ i := by
      rintro rfl
      exact h exit he
    simp [hne]

theorem succeededSlots_append {comps : List (Compensation V)} {new : List UnwindEvent}
    (h : ∀ comp ∈ comps, succeeded new comp.activityIndex = false) :
    succeededSlots comps (events ++ new) = succeededSlots comps events := by
  apply flatMap_congr
  intro comp hcomp
  rw [succeeded_append, h comp hcomp, Bool.or_false]

theorem completedIn_unique {exit exit' : JournalExit} (h : CompletedIn j key slot exit)
    (h' : CompletedIn j key slot exit') : exit = exit' := by
  obtain ⟨e, he, -, hexit⟩ := h
  obtain ⟨e', he', -, hexit'⟩ := h'
  have heq : e = e' := Option.some.inj (he.symm.trans he')
  subst heq
  exact Option.some.inj (hexit.symm.trans hexit')

theorem pending_or_completed (h : j.Sound) {e : JournalEntry} (he : j.entryIn key slot = some e) :
    e.phase = .pending ∨ ∃ exit, e.phase = .completed ∧ e.exit = some exit ∧
      CompletedIn j key slot exit := by
  cases hphase : e.phase with
  | pending => exact .inl rfl
  | completed =>
    obtain ⟨slots, hget, hat⟩ := Option.bind_eq_some_iff.mp he
    have hslots := h.slots key slots hget
    obtain ⟨exit, hexit⟩ := Option.isSome_iff_exists.mp
      (hslots.exits e ((hslots.entryAt_eq_some_iff _ _).mp hat).1 hphase)
    exact .inr ⟨exit, rfl, hexit, e, he, hphase, hexit⟩

section Moves

variable {comps done rest : List (Compensation V)} {comp : Compensation V} {key : String}
  {cursor : JournalCursor} {rolledBack : List JournalSlot} {j j' : InMemoryJournal}
  {events : List UnwindEvent}

theorem slot_inj {comp comp' : Compensation V} :
    comp.slot = comp'.slot ↔ comp.activityIndex = comp'.activityIndex := by
  simp [Compensation.slot]

theorem turn_order (hinc : comps.Pairwise fun a b => a.activityIndex < b.activityIndex)
    (hsplit : comps.reverse = done ++ comp :: rest) :
    comp ∈ comps ∧ (∀ d ∈ done, comp.activityIndex < d.activityIndex) ∧
    (∀ d ∈ rest, d.activityIndex < comp.activityIndex) ∧
    ∀ d ∈ comps, comp.activityIndex < d.activityIndex → d ∈ done := by
  have hdec : (done ++ comp :: rest).Pairwise fun a b => b.activityIndex < a.activityIndex := by
    rw [← hsplit]
    exact pairwise_reverse.mpr hinc
  obtain ⟨-, htail, hcross⟩ := pairwise_append.mp hdec
  have hrest := (pairwise_cons.mp htail).1
  have hmem : ∀ d, d ∈ comps ↔ d ∈ done ++ comp :: rest := by
    intro d
    rw [← hsplit, mem_reverse]
  refine ⟨(hmem comp).mpr (by simp), fun d hd => hcross d hd comp mem_cons_self, hrest, ?_⟩
  intro d hd hlt
  rcases mem_append.mp ((hmem d).mp hd) with hdone | hlate
  · exact hdone
  · exfalso
    rcases mem_cons.mp hlate with rfl | hd'
    · omega
    · have hlt' := hrest d hd'
      omega

section

variable (h : Unwinding comps key j events)
include h

theorem Unwinding.passOver (i : Nat) :
    Unwinding comps key j (events ++ [.unreachable i]) where
  sound := h.sound
  completed := by
    intro comp hcomp exit
    simp [h.completed comp hcomp exit]
  own := by
    intro i' exit hmem
    exact h.own i' exit (by simpa using hmem)
  inTurn := h.inTurn.snoc trivial

theorem Unwinding.ran (i : Nat)
    (habove : ∀ d ∈ comps, i < d.activityIndex → Settled events d.activityIndex)
    (hfresh : ∀ exit, .completed i exit ∉ events) :
    Unwinding comps key j (events ++ [.ran i]) where
  sound := h.sound
  completed := by
    intro comp hcomp exit
    simp [h.completed comp hcomp exit]
  own := by
    intro i' exit hmem
    exact h.own i' exit (by simpa using hmem)
  inTurn := h.inTurn.snoc ⟨habove, hfresh⟩

theorem Unwinding.appendPending (now : Int) (a : EntryAddress)
    (name : String) (hash : Option String) (type : JournalStepType) (wakeAt : Option Int) :
    Unwinding comps key (j.appendPending now a name hash type wakeAt) events where
  sound := (appendPending_step h.sound now a name hash type wakeAt).1
  completed := by
    intro comp hcomp exit
    rw [← h.completed comp hcomp exit]
    unfold CompletedIn
    simp only [entryIn_appendPending h.sound]
    split
    · cases j.entryIn key comp.slot with
      | none => simp
      | some e => simp
    · rfl
  own := h.own
  inTurn := h.inTurn

theorem Unwinding.completePending (hcomp : comp ∈ comps)
    {a : EntryAddress} (hkey : journalKey a.workflowId a.stepName = key)
    (hslot : a.slot = comp.slot)
    (hpending : PendingIn j key comp.slot) (hran : .ran comp.activityIndex ∈ events)
    (exit : JournalExit) :
    Unwinding comps key (j.completePending a exit).1
      (events ++ [.completed comp.activityIndex exit]) where
  sound := (completePending_step h.sound a exit).1
  completed := by
    intro d hd exit'
    rw [mem_append, ← h.completed d hd exit', mem_singleton]
    obtain ⟨e, he, hphase⟩ := hpending
    unfold CompletedIn
    simp only [entryIn_completePending h.sound, hkey, hslot, true_and]
    by_cases hsame : comp.slot = d.slot
    · -- its own row: pending before, completed with `exit` now
      have hindex := slot_inj.mp hsame
      rw [if_pos hsame, ← hsame, he]
      simp [hphase, hindex, eq_comm]
    · have hindex : comp.activityIndex ≠ d.activityIndex := fun heq => hsame (slot_inj.mpr heq)
      rw [if_neg hsame]
      simp [hindex.symm]
  own := by
    intro i exit' hmem
    rcases mem_append.mp hmem with hold | hnew
    · exact h.own i exit' hold
    · cases mem_singleton.mp hnew
      exact ⟨comp, hcomp, rfl⟩
  inTurn := h.inTurn.snoc hran

end

structure AtTurn (cursor : JournalCursor) (done : List (Compensation V)) (comp : Compensation V)
    (rest : List (Compensation V)) (rolledBack : List JournalSlot) (j : InMemoryJournal)
    (events : List UnwindEvent) : Prop where
  settled : ∀ d ∈ done, Settled events d.activityIndex
  snapshot : ∀ d ∈ rest, cursor.recorded d.slot =
    j.entryIn (journalKey cursor.workflowId cursor.stepName) d.slot
  reported : rolledBack = succeededSlots done events
  fresh : ∀ exit, .completed comp.activityIndex exit ∉ events

theorem AtTurn.goOn (h : AtTurn cursor done comp rest rolledBack j events)
    (hrows : ∀ d ∈ rest, j'.entryIn (journalKey cursor.workflowId cursor.stepName) d.slot =
      j.entryIn (journalKey cursor.workflowId cursor.stepName) d.slot)
    (new : List UnwindEvent) (hnew : ∀ i exit, .completed i exit ∉ new) :
    AtTurn cursor done comp rest rolledBack j' (events ++ new) where
  settled := fun d hd => (h.settled d hd).append new
  snapshot := fun d hd => (h.snapshot d hd).trans (hrows d hd).symm
  reported := by
    rw [h.reported, succeededSlots_append]
    intro d _
    exact succeeded_eq_false (hnew d.activityIndex)
  fresh := by
    intro exit hmem
    cases mem_append.mp hmem with
    | inl hold => exact h.fresh exit hold
    | inr hlate => exact hnew _ exit hlate

theorem AtTurn.settle (h : AtTurn cursor done comp rest rolledBack j events)
    (hrows : ∀ d ∈ rest, j'.entryIn (journalKey cursor.workflowId cursor.stepName) d.slot =
      j.entryIn (journalKey cursor.workflowId cursor.stepName) d.slot)
    {e : UnwindEvent} (hsettled : Settled [e] comp.activityIndex)
    (hothers : ∀ d ∈ done, succeeded [e] d.activityIndex = false) :
    Reached cursor (done ++ [comp]) rest
      (if succeeded [e] comp.activityIndex then rolledBack ++ comp.rolledBack else rolledBack)
      j' (events ++ [e]) where
  settled := by
    intro d hd
    cases mem_append.mp hd with
    | inl hdone => exact (h.settled d hdone).append [e]
    | inr hself =>
      cases mem_singleton.mp hself
      rcases hsettled with ⟨exit, hexit⟩ | hunreachable
      · exact .inl ⟨exit, mem_append_right _ hexit⟩
      · exact .inr (mem_append_right _ hunreachable)
  snapshot := fun d hd => (h.snapshot d hd).trans (hrows d hd).symm
  reported := by
    have hdone : succeededSlots (done ++ [comp]) (events ++ [e]) =
        succeededSlots done (events ++ [e]) ++ succeededSlots [comp] (events ++ [e]) := by
      simp [succeededSlots]
    have hself : succeededSlots [comp] (events ++ [e]) =
        if succeeded [e] comp.activityIndex then comp.rolledBack else [] := by
      simp [succeededSlots, succeeded_eq_false h.fresh]
    rw [hdone, hself, succeededSlots_append hothers, ← h.reported]
    split
    · rfl
    · rw [append_nil]

end Moves

/-! ## One drive -/

theorem stable_of_journal (workflowId : String) (R : InMemoryJournal → List UnwindEvent → Prop) :
    Stable (interfere workflowId) fun w : UnwindWorld => R w.storage.journal w.events := by
  intro moment w h
  obtain ⟨leases, now, hrun⟩ := run_traffic workflowId moment w.storage
  show R (storage.run w.storage (moment.map (·.op workflowId))).journal w.events
  rw [hrun]
  exact h

section Drive

variable {rt : ErrorRuntime V} {comps done rest : List (Compensation V)} {comp : Compensation V}
  {cursor : JournalCursor} {rolledBack : List JournalSlot}

variable {E : Thrown → UnwindWorld → Prop}

theorem journalWrite_triple {α : Type} {I P : UnwindWorld → Prop}
    {Q : Option α → UnwindWorld → Prop}
    {events : List UnwindEvent} {body : InMemoryWorkflowStorage → InMemoryWorkflowStorage}
    {write : InMemoryWorkflowStorage → InMemoryWorkflowStorage × Except StorageError α}
    (hwrite : ∀ s, (∃ a, write s = (body s, .ok a)) ∨ ∃ e, write s = (s, .error e))
    (hi : Stable (interfere cursor.workflowId) I)
    (hp : Stable (interfere cursor.workflowId) P)
    (hok : ∀ w a, I w → P w → I ⟨body w.storage, w.events ++ events⟩ ∧
      Q (some a) ⟨body w.storage, w.events ++ events⟩) (hrejected : ∀ w, I w → P w →
      I ⟨w.storage, w.events ++ [.unreachable comp.activityIndex]⟩ ∧
        Q none ⟨w.storage, w.events ++ [.unreachable comp.activityIndex]⟩) :
    Triple I P (journalWrite cursor comp events write) Q E := by
  apply act hi hp
  intro w hinv hpre
  rcases hwrite w.storage with ⟨a, hacc⟩ | ⟨e, hrej⟩
  · rw [hacc]
    exact hok w a hinv hpre
  · rw [hrej]
    exact hrejected w hinv hpre

theorem writePending_cases (slot : JournalSlot) (kind : JournalStepType) (name : String)
    (s : InMemoryWorkflowStorage) : (∃ a, c.writePending s slot kind name none none =
      ({ s with journal := s.journal.appendPending s.now (c.address slot) name none kind none },
        .ok a)) ∨
    ∃ e, c.writePending s slot kind name none none = (s, .error e) := by
  unfold writePending appendPendingEntry
    fencedWrite
  rcases fenced_cases s (c.address slot).workflowId c.guard_
    ({ s with journal := s.journal.appendPending s.now (c.address slot) name none kind none },
      .ok ()) with ⟨e, -, hrej⟩ | ⟨-, hacc⟩
  · exact .inr ⟨_, hrej⟩
  · exact .inl ⟨(), hacc⟩

theorem complete_cases (slot : JournalSlot) (exit : JournalExit) (s : InMemoryWorkflowStorage) :
    (∃ a, c.complete s slot exit =
      ({ s with journal := (s.journal.completePending (c.address slot) exit).1 }, .ok a)) ∨
    ∃ e, c.complete s slot exit = (s, .error e) := by
  unfold complete completePendingEntry
  rcases fenced_cases s (c.address slot).workflowId c.guard_
    ({ s with journal := (s.journal.completePending (c.address slot) exit).1 },
      .ok (s.journal.completePending (c.address slot) exit).2) with ⟨e, -, hrej⟩ | ⟨-, hacc⟩
  · simp only [hrej]
    exact .inr ⟨_, rfl⟩
  · simp only [hacc]
    exact .inl ⟨_, rfl⟩

theorem other_slots {comps : List (Compensation V)}
    (hinc : comps.Pairwise fun a b => a.activityIndex < b.activityIndex)
    (hsplit : comps.reverse = done ++ comp :: rest) {d : Compensation V} (hd : d ∈ rest) :
    comp.slot ≠ d.slot := by
  have hlt := (turn_order hinc hsplit).2.2.1 d hd
  rw [ne_eq, slot_inj]
  omega

private def UnwindKept (comps : List (Compensation V)) (cursor : JournalCursor) (w : UnwindWorld) :
    Prop :=
  Unwinding comps (journalKey cursor.workflowId cursor.stepName) w.storage.journal w.events

private def RowOpened (cursor : JournalCursor) (done : List (Compensation V))
    (comp : Compensation V)
    (rest : List (Compensation V)) (rolledBack : List JournalSlot) (w : UnwindWorld) : Prop :=
  AtTurn cursor done comp rest rolledBack w.storage.journal w.events ∧
    PendingIn w.storage.journal (journalKey cursor.workflowId cursor.stepName) comp.slot

/-- The row of `comp` is open, and its callback has run. -/
private def Ran (cursor : JournalCursor) (done : List (Compensation V)) (comp : Compensation V)
    (rest : List (Compensation V)) (rolledBack : List JournalSlot) (w : UnwindWorld) : Prop :=
  RowOpened cursor done comp rest rolledBack w ∧ .ran comp.activityIndex ∈ w.events

private def Past (cursor : JournalCursor) (done rest : List (Compensation V))
    (rolledBack : List JournalSlot) (w : UnwindWorld) : Prop :=
  Reached cursor done rest rolledBack w.storage.journal w.events

private theorem kept_stable : Stable (interfere cursor.workflowId) (UnwindKept comps cursor) :=
  stable_of_journal cursor.workflowId (Unwinding comps _)

private theorem opened_stable :
    Stable (interfere cursor.workflowId) (RowOpened cursor done comp rest rolledBack) :=
  stable_of_journal cursor.workflowId fun j events =>
    AtTurn cursor done comp rest rolledBack j events ∧
      PendingIn j (journalKey cursor.workflowId cursor.stepName) comp.slot

private theorem ran_stable :
    Stable (interfere cursor.workflowId) (Ran cursor done comp rest rolledBack) :=
  stable_of_journal cursor.workflowId fun j events =>
    (AtTurn cursor done comp rest rolledBack j events ∧
      PendingIn j (journalKey cursor.workflowId cursor.stepName) comp.slot) ∧
    UnwindEvent.ran comp.activityIndex ∈ events

private theorem passOver {w : UnwindWorld} (hkept : UnwindKept comps cursor w)
    (h : AtTurn cursor done comp rest rolledBack w.storage.journal w.events) :
    UnwindKept comps cursor ⟨w.storage, w.events ++ [.unreachable comp.activityIndex]⟩ ∧
      Past cursor (done ++ [comp]) rest rolledBack
        ⟨w.storage, w.events ++ [.unreachable comp.activityIndex]⟩ :=
  ⟨Unwinding.passOver hkept _, h.settle (e := .unreachable comp.activityIndex) (fun _ _ => rfl)
    (.inr mem_cons_self) fun _ _ => rfl⟩

section

variable (hinc : comps.Pairwise fun a b => a.activityIndex < b.activityIndex)
include hinc

section

variable (hsplit : comps.reverse = done ++ comp :: rest)
include hsplit

private theorem openRow_triple (name : String) :
    Triple (UnwindKept comps cursor)
      (fun w => AtTurn cursor done comp rest rolledBack w.storage.journal w.events)
      (journalWrite cursor comp [] fun s =>
        cursor.writePending s comp.slot .compensation name none none)
      (fun answer => match answer with
        | none => Past cursor (done ++ [comp]) rest rolledBack
        | some () => RowOpened cursor done comp rest rolledBack) E := by
  apply journalWrite_triple (writePending_cases cursor comp.slot .compensation name) kept_stable
    (stable_of_journal _ (AtTurn cursor done comp rest rolledBack))
  · intro w answer hkept hturn
    rw [append_nil]
    have hkept' := hkept.appendPending w.storage.now (cursor.address comp.slot) name none
      .compensation none
    have hentry := entryIn_appendPending hkept.sound w.storage.now
      (cursor.address comp.slot) name none .compensation none
      (journalKey cursor.workflowId cursor.stepName)
    refine ⟨hkept', ?_, ?_⟩
    · -- the slots of the rest are not its own
      have hrows : ∀ d ∈ rest, (w.storage.journal.appendPending w.storage.now
          (cursor.address comp.slot) name none .compensation none).entryIn
            (journalKey cursor.workflowId cursor.stepName) d.slot =
          w.storage.journal.entryIn (journalKey cursor.workflowId cursor.stepName) d.slot := by
        intro d hd
        rw [hentry, if_neg fun h => other_slots hinc hsplit hd h.2]
      have hrest := hturn.goOn hrows [] (fun _ _ => not_mem_nil)
      rw [append_nil] at hrest
      exact hrest
    · -- its row is there now, and not completed
      have hrow := hentry comp.slot
      rw [if_pos ⟨rfl, rfl⟩] at hrow
      obtain ⟨e, he⟩ : ∃ e, (w.storage.journal.appendPending w.storage.now
          (cursor.address comp.slot) name none .compensation none).entryIn
          (journalKey cursor.workflowId cursor.stepName) comp.slot = some e := by
        rw [hrow]
        cases w.storage.journal.entryIn (journalKey cursor.workflowId cursor.stepName)
            comp.slot with
        | none => exact ⟨_, rfl⟩
        | some e => exact ⟨e, rfl⟩
      rcases pending_or_completed hkept'.sound he with hpending | ⟨exit, -, -, hdone⟩
      · exact ⟨e, he, hpending⟩
      · exact absurd ((hkept'.completed comp (turn_order hinc hsplit).1 exit).mp hdone)
          (hturn.fresh exit)
  · exact fun w hkept hturn => passOver hkept hturn

private theorem runExit_triple :
    Triple (UnwindKept comps cursor) (RowOpened cursor done comp rest rolledBack)
      (runExit rt cursor comp) (fun _ => Ran cursor done comp rest rolledBack) E := by
  apply act kept_stable opened_stable
  rintro w hkept ⟨hturn, hpending⟩
  -- all that is above it in the stack is done
  have habove : ∀ d ∈ comps, comp.activityIndex < d.activityIndex →
      Settled w.events d.activityIndex := fun d hd hlt =>
    hturn.settled d ((turn_order hinc hsplit).2.2.2 d hd hlt)
  refine ⟨Unwinding.ran hkept comp.activityIndex habove hturn.fresh, ⟨?_, hpending⟩, ?_⟩
  · exact hturn.goOn (fun _ _ => rfl) [.ran comp.activityIndex] (by simp)
  · exact mem_append_right _ mem_cons_self

private theorem closeRow_triple (exit : JournalExit) :
    Triple (UnwindKept comps cursor) (Ran cursor done comp rest rolledBack)
      (journalWrite cursor comp [.completed comp.activityIndex exit] fun s =>
        cursor.complete s comp.slot exit)
      (fun answer => Past cursor (done ++ [comp]) rest
        (if answer.isSome && exit.isSuccess then rolledBack ++ comp.rolledBack else rolledBack))
      E := by
  obtain ⟨hcomp, hdone, -, -⟩ := turn_order hinc hsplit
  apply journalWrite_triple (complete_cases cursor comp.slot exit) kept_stable ran_stable
  · rintro w answer hkept ⟨⟨hturn, hpending⟩, hran⟩
    refine ⟨hkept.completePending hcomp rfl rfl hpending hran exit, ?_⟩
    have hrows : ∀ d ∈ rest,
        (w.storage.journal.completePending (cursor.address comp.slot) exit).1.entryIn
          (journalKey cursor.workflowId cursor.stepName) d.slot =
        w.storage.journal.entryIn (journalKey cursor.workflowId cursor.stepName) d.slot := by
      intro d hd
      rw [entryIn_completePending hkept.sound,
        if_neg fun h => other_slots hinc hsplit hd h.2]
    have hsettle := hturn.settle (e := .completed comp.activityIndex exit) hrows
      (.inl ⟨exit, mem_cons_self⟩) (fun d hd => by
        have hlt := hdone d hd
        have hne : comp.activityIndex ≠ d.activityIndex := by omega
        simp [succeeded, hne])
    simpa [succeeded, Past] using hsettle
  · exact fun w hkept hran => passOver hkept hran.1.1

private theorem runCompensation_triple :
    Triple (UnwindKept comps cursor)
      (fun w => AtTurn cursor done comp rest rolledBack w.storage.journal w.events)
      (runCompensation rt cursor comp)
      (fun isRolledBack => Past cursor (done ++ [comp]) rest
        (if isRolledBack then rolledBack ++ comp.rolledBack else rolledBack)) E := by
  apply bind (openRow_triple hinc hsplit _)
  intro opened
  cases opened with
  | none => exact pure fun w _ h => h
  | some u =>
    apply bind (runExit_triple hinc hsplit)
    intro exit
    apply bind (closeRow_triple hinc hsplit exit)
    intro closed
    cases closed with
    | none => exact pure fun w _ h => h
    | some result =>
      apply Triple.pure
      intro w _ h
      simpa using h

end

end

private theorem skip {j : InMemoryJournal} {events : List UnwindEvent} {row : JournalEntry}
    (hkept : Unwinding comps (journalKey cursor.workflowId cursor.stepName) j events)
    (hcomp : comp ∈ comps) (h : Reached cursor done (comp :: rest) rolledBack j events)
    (hrow : cursor.recorded comp.slot = some row) (hphase : row.phase = .completed) :
    Reached cursor (done ++ [comp]) rest
      (if row.exit.any JournalExit.isSuccess then rolledBack ++ comp.rolledBack else rolledBack)
      j events := by
  have hentry : j.entryIn (journalKey cursor.workflowId cursor.stepName) comp.slot = some row := by
    rw [← h.snapshot comp mem_cons_self, hrow]
  obtain ⟨exit, hexit, hcompleted⟩ : ∃ exit, row.exit = some exit ∧
      CompletedIn j (journalKey cursor.workflowId cursor.stepName) comp.slot exit := by
    rcases pending_or_completed hkept.sound hentry with hpending | ⟨exit, -, hexit, hcompleted⟩
    · rw [hphase] at hpending
      exact nomatch hpending
    · exact ⟨exit, hexit, hcompleted⟩
  have hmem := (hkept.completed comp hcomp exit).mp hcompleted
  -- the log has this one completion of it
  have hsucceeded : succeeded events comp.activityIndex = exit.isSuccess := by
    rw [succeeded, Bool.eq_iff_iff, any_eq_true]
    constructor
    · rintro ⟨e, he, hsuccess⟩
      cases e with
      | ran i | unreachable i => simp at hsuccess
      | completed i exit' =>
        obtain ⟨hi, hok⟩ : i = comp.activityIndex ∧ exit'.isSuccess = true := by
          simpa using hsuccess
        subst hi
        rw [completedIn_unique hcompleted ((hkept.completed comp hcomp exit').mpr he)]
        exact hok
    · exact fun hok => ⟨_, hmem, by simp [hok]⟩
  constructor
  · intro d hd
    rcases mem_append.mp hd with hold | hself
    · exact h.settled d hold
    · cases mem_singleton.mp hself
      exact .inl ⟨exit, hmem⟩
  · exact fun d hd => h.snapshot d (mem_cons_of_mem _ hd)
  · have hsplit : succeededSlots (done ++ [comp]) events =
        succeededSlots done events ++ if exit.isSuccess then comp.rolledBack else [] := by
      simp [succeededSlots, hsucceeded]
    rw [hsplit, ← h.reported, hexit, Option.any_some]
    split
    · rfl
    · rw [append_nil]

section

variable (hinc : comps.Pairwise fun a b => a.activityIndex < b.activityIndex)
include hinc

private theorem unwindOne_triple
    (hsplit : comps.reverse = done ++ comp :: rest) :
    Triple (UnwindKept comps cursor) (Past cursor done (comp :: rest) rolledBack)
      (unwindOne rt cursor comp)
      (fun isRolledBack => Past cursor (done ++ [comp]) rest
        (if isRolledBack then rolledBack ++ comp.rolledBack else rolledBack)) E := by
  have hcomp := (turn_order hinc hsplit).1
  have hopen : (∀ exit row, cursor.recorded comp.slot = some row → row.phase = .completed →
      row.exit ≠ some exit) → Triple (UnwindKept comps cursor)
      (Past cursor done (comp :: rest) rolledBack) (runCompensation rt cursor comp)
      (fun isRolledBack => Past cursor (done ++ [comp]) rest
        (if isRolledBack then rolledBack ++ comp.rolledBack else rolledBack)) E := by
    intro hnone
    apply (runCompensation_triple hinc hsplit).conseq _ (fun _ _ _ h => h) fun _ _ _ h => h
    intro w hkept h
    refine ⟨h.settled, fun d hd => h.snapshot d (mem_cons_of_mem _ hd), h.reported, ?_⟩
    intro exit hmem
    obtain ⟨row, hrow, hphase, hexit⟩ := (hkept.completed comp hcomp exit).mpr hmem
    exact hnone exit row ((h.snapshot comp mem_cons_self).trans hrow) hphase hexit
  unfold unwindOne
  cases hrow : cursor.recorded comp.slot with
  | none => exact hopen fun exit row hsome => nomatch hrow.symm.trans hsome
  | some row =>
    simp only
    split
    · rename_i hphase
      exact pure fun w hkept h => skip hkept hcomp h hrow hphase
    · rename_i hphase
      apply hopen
      intro exit row' hsome hdone
      cases hrow.symm.trans hsome
      exact absurd hdone hphase

private theorem unwindFrom_triple
    (hsplit : comps.reverse = done ++ rest) :
    Triple (UnwindKept comps cursor) (Past cursor done rest rolledBack)
      (unwindFrom rt cursor rolledBack rest)
      (fun result => Past cursor comps.reverse [] result) E := by
  induction rest generalizing done rolledBack with
  | nil =>
    rw [append_nil] at hsplit
    subst hsplit
    exact pure fun w _ h => h
  | cons comp rest ih =>
    apply bind (unwindOne_triple hinc hsplit)
    intro isRolledBack
    exact ih (by simp [hsplit])

end

end Drive

theorem unwindAttempt_triple (rt : ErrorRuntime V) (workflowId stepName : String)
    (body : List (BodyMove V)) (guard_ : FenceGuard) :
    Triple
      (fun w => Unwinding (compensationsOf body) (journalKey workflowId stepName)
        w.storage.journal w.events)
      (fun _ => True) (unwindAttempt rt workflowId stepName body guard_)
      (fun rolledBack w => (∀ comp ∈ compensationsOf body, Settled w.events comp.activityIndex) ∧
        rolledBack = succeededSlots (compensationsOf body).reverse w.events)
      fun _ _ => False := by
  apply bind (Q := fun journal w => ∀ slot,
    recorded ⟨workflowId, stepName, guard_, journal, 0⟩ slot =
      w.storage.journal.entryIn (journalKey workflowId stepName) slot)
  · apply storageCall_triple (stable_of_journal _ _) fun _ _ _ => trivial
    · intro w s journal hkept _ hload
      cases hload
      obtain ⟨hsound, hsame⟩ := load_step hkept.sound workflowId stepName
      rw [append_nil]
      refine ⟨⟨hsound, fun comp hcomp exit => ?_, hkept.own, hkept.inTurn⟩, fun slot => ?_⟩
      · rw [← hkept.completed comp hcomp exit]
        show (∃ e, (w.storage.journal.load workflowId stepName).1.entryIn _ _ = some e ∧ _) ↔ _
        simp only [hsame]
        rfl
      · show _ = (w.storage.journal.load workflowId stepName).1.entryIn _ _
        rw [hsame]
        exact recorded_of_load hkept.sound workflowId stepName guard_ 0 slot
    · exact fun w s e _ _ hload => nomatch hload
  · intro journal
    obtain ⟨n, hregistered⟩ := registered_eq
      ⟨workflowId, stepName, guard_, journal, 0⟩ rfl body
    simp only [hregistered]
    let cursor : JournalCursor := ⟨workflowId, stepName, guard_, journal, n⟩
    have hunwind : Triple (UnwindKept (compensationsOf body) cursor)
        (Past cursor [] (compensationsOf body).reverse [])
        (unwindFrom rt cursor [] (compensationsOf body).reverse)
        (fun result => Past cursor (compensationsOf body).reverse [] result) fun _ _ => False :=
      unwindFrom_triple (compensationsOf_increasing body) (nil_append _).symm
    apply hunwind.conseq _ _ fun _ _ _ h => h
    · exact fun w _ hrecorded => ⟨fun d hd => absurd hd not_mem_nil,
        fun d _ => hrecorded d.slot, rfl⟩
    · exact fun rolledBack w _ h =>
        ⟨fun d hd => h.settled d (mem_reverse.mpr hd), h.reported⟩

/-! ## Slots that were taken -/

section Taken

variable {rt : ErrorRuntime V} {cursor : JournalCursor} {key : String} {i : Nat}
  {exit : JournalExit}

/-- A slot that was taken before the first unwind: its row is completed, and nothing was done
    for it. -/
private def Taken (key : String) (i : Nat) (exit : JournalExit) (w : UnwindWorld) : Prop :=
  w.storage.journal.Sound ∧ CompletedIn w.storage.journal key ⟨i, ""⟩ exit ∧ ¬ Settled w.events i

private theorem taken_stable (workflowId : String) :
    Stable (interfere workflowId) (Taken key i exit) :=
  stable_of_journal workflowId fun j events =>
    j.Sound ∧ CompletedIn j key ⟨i, ""⟩ exit ∧ ¬ Settled events i

theorem completedIn_of_step {j j' : InMemoryJournal} {slot : JournalSlot}
    (hstep : EntryStep (j.entryIn key slot) (j'.entryIn key slot))
    (h : CompletedIn j key slot exit) : CompletedIn j' key slot exit := by
  obtain ⟨e, he, hphase, hexit⟩ := h
  rw [he] at hstep
  generalize hafter : j'.entryIn key slot = after at hstep
  cases hstep with
  | same => exact ⟨e, hafter, hphase, hexit⟩
  | completed hopen _ =>
    rw [hphase] at hopen
    exact nomatch hopen

private theorem Taken.event {w : UnwindWorld} (h : Taken key i exit w)
    {s : InMemoryWorkflowStorage} (hsound : s.journal.Sound)
    (hstep : ∀ slot, EntryStep (w.storage.journal.entryIn key slot) (s.journal.entryIn key slot))
    {new : List UnwindEvent} (hnew : ¬ Settled new i) : Taken key i exit ⟨s, w.events ++ new⟩ := by
  refine ⟨hsound, completedIn_of_step (hstep _) h.2.1, ?_⟩
  rintro (⟨exit', hmem⟩ | hmem)
  · rcases mem_append.mp hmem with hold | hlate
    · exact h.2.2 (.inl ⟨exit', hold⟩)
    · exact hnew (.inl ⟨exit', hlate⟩)
  · rcases mem_append.mp hmem with hold | hlate
    · exact h.2.2 (.inr hold)
    · exact hnew (.inr hlate)

private theorem runCompensation_taken {comp : Compensation V} (hother : comp.activityIndex ≠ i) :
    Triple (Taken key i exit) (fun _ => True) (runCompensation rt cursor comp)
      (fun _ _ => True) fun _ _ => True := by
  have hpassed : ∀ w, Taken key i exit w → True →
      Taken key i exit ⟨w.storage, w.events ++ [.unreachable comp.activityIndex]⟩ ∧ True := by
    intro w h _
    exact ⟨h.event h.1 (fun _ => .same _) (by simp [Settled, hother.symm]), trivial⟩
  apply bind (Q := fun _ _ => True)
  · apply journalWrite_triple (writePending_cases cursor comp.slot .compensation _)
      (taken_stable _) (fun _ _ h => h) _ hpassed
    intro w answer h _
    obtain ⟨hsound, hstep⟩ := appendPending_step h.1 w.storage.now
      (cursor.address comp.slot) ("compensation:" ++ comp.activityName) none .compensation none
    exact ⟨h.event hsound (hstep key) (by simp [Settled]), trivial⟩
  · intro opened
    cases opened with
    | none => exact pure fun _ _ _ => trivial
    | some u =>
      apply bind (Q := fun _ _ => True)
      · apply Prog.Triple.act (taken_stable _) fun _ _ h => h
        intro w h _
        exact ⟨h.event h.1 (fun _ => .same _) (by simp [Settled]), trivial⟩
      · intro ended
        apply bind (Q := fun _ _ => True)
        · apply journalWrite_triple (complete_cases cursor comp.slot ended) (taken_stable _)
            (fun _ _ h => h) _ hpassed
          intro w answer h _
          obtain ⟨hsound, hstep⟩ := completePending_step h.1
            (cursor.address comp.slot) ended
          exact ⟨h.event hsound (hstep key) (by simp [Settled, hother.symm]), trivial⟩
        · intro closed
          cases closed with
          | none | some result => exact pure fun _ _ _ => trivial

private theorem unwindFrom_taken {row : JournalEntry}
    (hrow : cursor.recorded ⟨i, ""⟩ = some row) (hphase : row.phase = .completed)
    (rest : List (Compensation V)) (rolledBack : List JournalSlot) :
    Triple (Taken key i exit) (fun _ => True) (unwindFrom rt cursor rolledBack rest)
      (fun _ _ => True) fun _ _ => True := by
  induction rest generalizing rolledBack with
  | nil => exact pure fun _ _ _ => trivial
  | cons comp rest ih =>
    apply bind (Q := fun _ _ => True)
    · unfold unwindOne
      by_cases hself : comp.activityIndex = i
      · -- skipped
        have hslot : comp.slot = ⟨i, ""⟩ := by simp [Compensation.slot, hself]
        rw [hslot, hrow]
        simp only [hphase, if_true]
        exact pure fun _ _ _ => trivial
      · cases cursor.recorded comp.slot with
        | none => exact runCompensation_taken hself
        | some recorded =>
          simp only
          split
          · exact pure fun _ _ _ => trivial
          · exact runCompensation_taken hself
    · exact fun isRolledBack => ih _

private theorem unwindAttempt_taken (rt : ErrorRuntime V) (workflowId stepName : String)
    (body : List (BodyMove V)) (guard_ : FenceGuard) :
    Triple (Taken (journalKey workflowId stepName) i exit) (fun _ => True)
      (unwindAttempt rt workflowId stepName body guard_) (fun _ _ => True) fun _ _ => True := by
  apply bind (Q := fun journal _ => ∃ row,
    recorded ⟨workflowId, stepName, guard_, journal, 0⟩ ⟨i, ""⟩ = some row ∧
      row.phase = .completed)
  · apply storageCall_triple (taken_stable _) (fun _ _ h => h)
    · intro w s journal h _ hload
      cases hload
      obtain ⟨hsound, hsame⟩ := load_step h.1 workflowId stepName
      obtain ⟨row, hrow, hphase, -⟩ := h.2.1
      refine ⟨h.event hsound (fun slot => ?_) (by simp [Settled]), row, ?_, hphase⟩
      · show EntryStep _ ((w.storage.journal.load workflowId stepName).1.entryIn _ slot)
        rw [hsame]
        exact .same _
      · rw [← hrow]
        exact recorded_of_load h.1 workflowId stepName guard_ 0 _
    · exact fun w s e _ _ hload => nomatch hload
  · intro journal
    obtain ⟨n, hregistered⟩ := registered_eq
      ⟨workflowId, stepName, guard_, journal, 0⟩ rfl body
    simp only [hregistered]
    intro ms w h hrecorded
    obtain ⟨row, hrow, hphase⟩ := hrecorded
    have hrow : recorded ⟨workflowId, stepName, guard_, journal, n⟩ ⟨i, ""⟩ =
      some row := hrow
    exact unwindFrom_taken hrow hphase _ [] ms w h trivial

private theorem unwindAttempt_within (rt : ErrorRuntime V) (workflowId stepName : String)
    (body : List (BodyMove V)) (guard_ : FenceGuard) :
    Within (1 + 3 * (compensationsOf body).length)
      (unwindAttempt rt workflowId stepName body guard_) := by
  have hrun : ∀ (cursor : JournalCursor) (comp : Compensation V),
      Within 3 (runCompensation rt cursor comp) := by
    intro cursor comp
    apply bind (n := 1) (l := 2) (act _ _)
    intro opened
    cases opened with
    | none => exact (pure false).mono (Nat.zero_le 2)
    | some u =>
      apply bind (n := 1) (l := 1) (act _ _)
      intro ended
      apply bind (n := 1) (l := 0) (act _ _)
      intro closed
      cases closed with
      | none => exact pure false
      | some result => exact pure _
  have hloop : ∀ (cursor : JournalCursor) (rest : List (Compensation V)) rolledBack,
      Within (3 * rest.length) (unwindFrom rt cursor rolledBack rest) := by
    intro cursor rest
    induction rest with
    | nil => exact fun rolledBack => pure rolledBack
    | cons comp rest ih =>
      intro rolledBack
      have hone : Within 3 (unwindOne rt cursor comp) := by
        unfold unwindOne
        split
        · exact hrun cursor comp
        · split
          · exact (Within.pure _).mono (Nat.zero_le 3)
          · exact hrun cursor comp
      have hlen : 3 * (comp :: rest).length = 3 + 3 * rest.length := by
        rw [length_cons]
        omega
      rw [hlen]
      exact bind hone fun isRolledBack => ih _
  apply bind (storageCall_within _ _ _)
  intro journal
  obtain ⟨n, hregistered⟩ := registered_eq ⟨workflowId, stepName, guard_, journal, 0⟩ rfl body
  simp only [hregistered, unwind]
  rw [← length_reverse]
  exact hloop _ _ []

end Taken

/-! ## All drives -/

/-- **The unwind of a journaled step does what it reports**, on every drive and wherever
    the drives crash, exactly when no slot that the body reserves for a compensation holds a
    completed row before the first unwind. -/
theorem unwind_exact_iff (rt : ErrorRuntime V) (config : StorageConfig) (ops : List StorageOp)
    (workflowId stepName : String) (body : List (BodyMove V)) :
    UnwindsExactly rt workflowId stepName body (storage.run (.new config) ops) ↔
      ∀ comp ∈ compensationsOf body, ∀ exit,
        ¬ CompletedWith (storage.run (.new config) ops) workflowId stepName comp.slot exit := by
  have hsound := sound_of_run config ops
  generalize storage.run (.new config) ops = s at hsound
  constructor
  · -- A drive without a crash passes over a slot that is taken, and neither completes it nor
    -- gives it up.
    intro h comp hcomp exit htaken
    have hends := unwindAttempt_within rt workflowId stepName body none
      (List.replicate (1 + 3 * (compensationsOf body).length) []) ⟨s, []⟩ (by simp)
    have hnone := unwindAttempt_taken rt workflowId stepName body none
      (List.replicate (1 + 3 * (compensationsOf body).length) []) ⟨s, []⟩
      ⟨hsound, htaken, by simp [Settled]⟩ trivial
    have hthrown := h.ends [] none
      (List.replicate (1 + 3 * (compensationsOf body).length) [])
    have hreports := h.reports [] none
      (List.replicate (1 + 3 * (compensationsOf body).length) [])
    simp only [unwindAttempts, foldl_nil] at hthrown hreports
    generalize unwindAttempt rt workflowId stepName body none
      (List.replicate (1 + 3 * (compensationsOf body).length) []) ⟨s, []⟩ = r
      at hends hnone hthrown hreports
    obtain ⟨answer, ms, w⟩ := r
    cases answer with
    | error stop =>
      cases stop with
      | crashed => exact hends.1 rfl
      | thrown e => exact hthrown e rfl
    | ok rolledBack => exact hnone.1.2.2 ((hreports rolledBack ms w rfl).1 comp hcomp)
  · intro hfree
    have hstart : Unwinding (compensationsOf body) (journalKey workflowId stepName) s.journal [] :=
      ⟨hsound, fun comp hcomp exit => ⟨fun h => absurd h (hfree comp hcomp exit), nofun⟩,
        fun i exit hmem => absurd hmem not_mem_nil, History.Each.nil⟩
    -- the invariant, over the drives
    have hdrives : ∀ drives : List (FenceGuard × List Moment),
        Unwinding (compensationsOf body) (journalKey workflowId stepName)
          (unwindAttempts rt workflowId stepName body drives ⟨s, []⟩).storage.journal
          (unwindAttempts rt workflowId stepName body drives ⟨s, []⟩).events := by
      intro drives
      have hfold : ∀ w : UnwindWorld, Unwinding (compensationsOf body)
          (journalKey workflowId stepName) w.storage.journal w.events →
          Unwinding (compensationsOf body) (journalKey workflowId stepName)
            (unwindAttempts rt workflowId stepName body drives w).storage.journal
            (unwindAttempts rt workflowId stepName body drives w).events := by
        induction drives with
        | nil => exact fun w hw => hw
        | cons drive rest ih =>
          exact fun w hw => ih _ (unwindAttempt_triple rt workflowId stepName body drive.1 drive.2 w
            hw trivial).1
      exact hfold ⟨s, []⟩ hstart
    constructor
    · exact fun drives => (hdrives drives).inTurn
    · intro drives i exit hmem
      obtain ⟨comp, hcomp, rfl⟩ := (hdrives drives).own i exit hmem
      exact ((hdrives drives).completed comp hcomp exit).mpr hmem
    · intro drives guard_ moments e hthrown
      exact (unwindAttempt_triple rt workflowId stepName body guard_).thrown
        (Prod.ext hthrown rfl) (hdrives drives) trivial
    · intro drives guard_ moments rolledBack ms w hok
      exact (unwindAttempt_triple rt workflowId stepName body guard_).answered hok
        (hdrives drives) trivial

/-- `charge` fails in the first attempt, the body catches that and goes on with `notify`, which
    gets the slot after it, and then fails.  In the second attempt `charge` succeeds, and its
    compensation reserves the slot that `notify` has: the unwind reports `charge` as rolled back,
    and has run nothing. -/
theorem reserved_slot_counterexample :
    let body : List (BodyMove JsValue) :=
      [.yielded, .succeeded 0 "charge" fun _ => .ok (), .yielded]
    let at_ (i : Nat) : EntryAddress := { workflowId := "w", stepName := "pay", activityIndex := i }
    let first : List StorageOp := [
      .appendPendingEntry (at_ 0) "charge" none .activity none none,
      .completePendingEntry (at_ 0) (.failure "declined" none none none) none,
      .appendPendingEntry (at_ 1) "notify" none .activity none none,
      .completePendingEntry (at_ 1) (.success .null) none]
    let discard : List StorageOp := [
      .loadJournal "w" "pay", .discardJournalEntries "w" "pay" [⟨0, ""⟩] none]
    let second : List StorageOp := [
      .appendPendingEntry (at_ 0) "charge" none .activity none none,
      .completePendingEntry (at_ 0) (.success .null) none,
      .appendPendingEntry (at_ 2) "notify" none .activity none none,
      .completePendingEntry (at_ 2) (.success .null) none]
    let s := storage.run (.new { instanceId := "i" }) (first ++ discard ++ second)
    let drive := unwindAttempt jsonErrors "w" "pay" body none [[], [], [], []] ⟨s, []⟩
    discardFailedAttempt (storage.run (.new { instanceId := "i" }) first) "w" "pay" [] none =
      storage.run (.new { instanceId := "i" }) (first ++ discard) ∧
    drive.1 = .ok [⟨0, ""⟩, ⟨1, ""⟩] ∧ drive.2.2.events = [] ∧
    ¬ UnwindsExactly jsonErrors "w" "pay" body s := by
  intro body at_ first discard second s drive
  have hcomps : compensationsOf body = [⟨1, 0, "charge", fun _ => .ok ()⟩] := rfl
  -- a report of a compensation the log does not have
  have hwrong : ∀ s r rolledBack, unwindAttempt jsonErrors "w" "pay" body none [[], [], [], []]
      ⟨s, []⟩ = r → r.1 = .ok rolledBack → r.2.2.events = [] →
      ¬ UnwindsExactly jsonErrors "w" "pay" body s := by
    intro s r rolledBack hdrive hanswer hevents h
    obtain ⟨hsettled, -⟩ := h.reports [] none [[], [], [], []] rolledBack r.2.1 r.2.2
      (hdrive.trans (Prod.ext hanswer rfl))
    have hself := hsettled _ (hcomps ▸ mem_singleton_self _)
    rw [hevents] at hself
    simp [Settled] at hself
  have hanswer : drive.1 = .ok [⟨0, ""⟩, ⟨1, ""⟩] := by decide
  have hevents : drive.2.2.events = [] := by decide
  exact ⟨by decide, hanswer, hevents, hwrong s drive _ rfl hanswer hevents⟩

end Promin.Durable
