import Promin.Spec.DueFinders

/-!
# Dispatching due runs

One scan is in flight at a time, but the resumes it started finish while it goes
on.
-/

namespace Promin.Distributed

open JsMap Machine List

open Durable (WorkflowWakeup InMemoryWorkflowStorage storage run_rowsKeyed)

namespace ResumeScanner

variable {E : Type} {config : ResumeScannerConfig} {finder : DueFinder E} {l : ResumeScanner E}

/-! ## What a step does -/

def queued : ScanPhase → Bool
  | .waiting _ woken _ => !woken
  | .idle _ | .acquiring _ | .finding _ | .resolving _ _ | .between _ => false

inductive Advance (config : ResumeScannerConfig) (l : ResumeScanner E) :
    ResumeScanner E × Option Dispatched → Prop
  | awaits (phase : ScanPhase) (hgoes : queued phase = false) : Advance config l (l.awaits phase)
  | queues (row : WorkflowWakeup) (rest : PageRest) (hfull : config.concurrency ≤ l.inFlight.size) :
    Advance config l (l.awaits (.waiting row false rest))
  | skips (row : WorkflowWakeup) (rest : PageRest) (hin : l.inFlight.has row.workflowId = true) :
    Advance config l (l.returns row .alreadyInFlight rest)
  | dispatches (row : WorkflowWakeup) (rest : PageRest)
    (hroom : l.inFlight.size < config.concurrency)
    (hfree : l.inFlight.has row.workflowId = false) :
    Advance config l ((l.startResume row.workflowId).returns row .dispatched rest)

theorem takeSlot_advance (l : ResumeScanner E) (row : WorkflowWakeup) (rest : PageRest) :
    Advance config l (l.takeSlot config row rest) := by
  unfold takeSlot
  split
  · rename_i hfull
    exact .queues row rest hfull
  · rename_i hroom
    cases hin : l.inFlight.has row.workflowId with
    | true => exact .skips row rest hin
    | false => exact .dispatches row rest (by omega) hin

theorem dispatch_advance (l : ResumeScanner E) (row : WorkflowWakeup) (rest : PageRest) :
    Advance config l (l.dispatch config row rest) := by
  unfold dispatch
  cases hin : l.inFlight.has row.workflowId with
  | true => exact .skips row rest hin
  | false =>
    cases config.target with
    | runner => exact .awaits _ rfl
    | wake => exact takeSlot_advance l row rest

theorem loopTop_advance (l : ResumeScanner E) (after : Option String) :
    Advance config l (l.loopTop config after) := by
  unfold loopTop
  split
  · exact .awaits _ rfl
  · split
    · exact .awaits _ rfl
    · exact .awaits _ rfl

theorem nextRow_advance (l : ResumeScanner E) (rest : PageRest) :
    Advance config l (l.nextRow config rest) := by
  unfold nextRow
  cases rest.rows with
  | nil =>
    cases rest.done with
    | true => exact .awaits _ rfl
    | false => exact loopTop_advance l _
  | cons row rows =>
    cases l.stopRequested with
    | true => exact .awaits _ rfl
    | false => exact dispatch_advance l row _

theorem onPage_advance (l : ResumeScanner E) (page : ScanPage) :
    Advance config l (l.onPage config page) := by
  unfold onPage
  cases page.rows.getLast? with
  | none => exact .awaits _ rfl
  | some last => exact nextRow_advance l _

structure SamePool (l l' : ResumeScanner E) : Prop where
  inFlight : l'.inFlight = l.inFlight
  resumes : l'.resumes = l.resumes
  nextResume : l'.nextResume = l.nextResume
  waits : queued l'.scan = true → queued l.scan = true

inductive ScannerStep (config : ResumeScannerConfig) (l : ResumeScanner E) :
    ResumeScannerOp E → ResumeScanner E × Option Dispatched → Prop
  | quiet {o : ResumeScannerOp E} {l' : ResumeScanner E} (hsame : SamePool l l') :
    ScannerStep config l o (l', none)
  | advances {o : ResumeScannerOp E} {r : ResumeScanner E × Option Dispatched}
    (h : Advance config l r) : ScannerStep config l o r
  | unknown (row : WorkflowWakeup) (rest : PageRest) (hscan : l.scan = .resolving row rest) :
    ScannerStep config l (.resolved (some false))
      ((l.reportUnknown config row).returns row .unknownWorkflow rest)
  | settles (n : Nat) (r : ScannerResume) (hget : l.resumes.get n = some r) :
    ScannerStep config l (.settles n)
      ({ l with resumes := l.resumes.set n { r with settled := true } }, none)
  | releases (n : Nat) (id : String) (hget : l.resumes.get n = some ⟨id, true⟩) :
    ScannerStep config l (.releases n)
      ({ l with
          inFlight := l.inFlight.delete id
          resumes := l.resumes.delete n
          scan := wakeWaiters l.scan }, none)

theorem SamePool.refl (l : ResumeScanner E) : SamePool l l := ⟨rfl, rfl, rfl, fun h => h⟩

theorem queued_wakeWaiters (scan : ScanPhase) : queued (wakeWaiters scan) = false := by
  cases scan <;> rfl

/-- What a step of the scanner can do. -/
theorem step_cases (l : ResumeScanner E) (o : ResumeScannerOp E) :
    ScannerStep config l o (l.step config finder o) := by
  have hquiet : ScannerStep config l o (l, none) := .quiet (.refl l)
  cases o with
  | tick =>
    unfold step
    cases l.scan with
    | idle last =>
      cases config.leaderElection with
      | true => exact .advances (.awaits _ rfl)
      | false => exact .advances (loopTop_advance l none)
    | acquiring | finding | resolving | waiting | between => exact hquiet
  | leaseAnswer acquired =>
    simp only [step, leaseAnswer]
    cases l.scan with
    | acquiring after =>
      cases acquired with
      | none => exact .advances (.awaits _ rfl)
      | some leads =>
        cases leads with
        | false => exact .advances (.awaits _ rfl)
        | true =>
          cases after with
          | none => exact .advances (loopTop_advance l none)
          | some cursor => exact .advances (.awaits _ rfl)
    | idle | finding | resolving | waiting | between => exact hquiet
  | found =>
    unfold step
    cases l.scan with
    | finding after => exact .advances (onPage_advance l _)
    | idle | acquiring | resolving | waiting | between => exact hquiet
  | findFails =>
    unfold step
    cases l.scan with
    | finding after => exact .advances (.awaits _ rfl)
    | idle | acquiring | resolving | waiting | between => exact hquiet
  | resolved known =>
    simp only [step, resolved]
    cases hscan : l.scan with
    | resolving row rest =>
      cases known with
      | none => exact .advances (.awaits _ rfl)
      | some known =>
        cases known with
        | false => exact .unknown row rest hscan
        | true => exact .advances (takeSlot_advance l row rest)
    | idle | acquiring | finding | waiting | between => exact hquiet
  | continues =>
    simp only [step, continues]
    cases l.scan with
    | between rest => exact .advances (nextRow_advance l rest)
    | waiting row woken rest =>
      cases woken with
      | true => exact .advances (takeSlot_advance l row rest)
      | false => exact hquiet
    | idle | acquiring | finding | resolving => exact hquiet
  | settles n =>
    simp only [step, ResumeScanner.settles]
    cases hget : l.resumes.get n with
    | none => exact hquiet
    | some r => exact .settles n r hget
  | releases n =>
    simp only [step, ResumeScanner.releases]
    cases hget : l.resumes.get n with
    | none => exact hquiet
    | some r =>
      obtain ⟨id, settled⟩ := r
      cases settled with
      | true => exact .releases n id hget
      | false => exact hquiet
  | stop | moves env => exact .quiet ⟨rfl, rfl, rfl, fun h => h⟩
  | start =>
    unfold step
    cases hscan : l.scan with
    | idle last => exact .quiet ⟨rfl, rfl, rfl, fun h => by cases h⟩
    | acquiring | finding | resolving | waiting | between => exact hquiet

/-! ## The pool -/

/-- Every run in flight has its one resume, and there are no more of them than slots; a scan
that nobody woke waits because all slots are taken. -/
structure Pooled (config : ResumeScannerConfig) (l : ResumeScanner E) : Prop where
  tracked : ∀ n r, l.resumes.get n = some r → l.inFlight.get r.workflowId = some n
  paired : l.inFlight.size = l.resumes.size
  bounded : l.inFlight.size ≤ config.concurrency
  fresh : ∀ n, l.nextResume ≤ n → l.resumes.get n = none
  waits : queued l.scan = true → config.concurrency ≤ l.inFlight.size

theorem Pooled.new (config : ResumeScannerConfig) (env : E) : Pooled config (new env) where
  tracked := fun n r h => by cases h
  paired := rfl
  bounded := Nat.zero_le _
  fresh := fun _ _ => rfl
  waits := fun h => by cases h

theorem Pooled.of_samePool {l' : ResumeScanner E} (h : Pooled config l) (hsame : SamePool l l') :
    Pooled config l' where
  tracked := by
    rw [hsame.resumes, hsame.inFlight]
    exact h.tracked
  paired := by
    rw [hsame.resumes, hsame.inFlight]
    exact h.paired
  bounded := by
    rw [hsame.inFlight]
    exact h.bounded
  fresh := by
    rw [hsame.resumes, hsame.nextResume]
    exact h.fresh
  waits := by
    intro hwaits
    rw [hsame.inFlight]
    exact h.waits (hsame.waits hwaits)

variable {id : String} {handled : Prop} {phase : ScanPhase}

theorem Pooled.awaits (h : Pooled config l) (hgoes : queued phase = false) :
    Pooled config { l with scan := phase } where
  tracked := h.tracked
  paired := h.paired
  bounded := h.bounded
  fresh := h.fresh
  waits := by
    intro hwaits
    have hqueued : queued phase = true := hwaits
    rw [hgoes] at hqueued
    cases hqueued

theorem Pooled.startResume (h : Pooled config l)
    (hroom : l.inFlight.size < config.concurrency) (hfree : l.inFlight.has id = false)
    (hphase : queued phase = false) :
    Pooled config { l.startResume id with scan := phase } := by
  have hnone : l.inFlight.get id = none := by simpa [JsMap.has] using hfree
  have hnew := h.fresh l.nextResume (Nat.le_refl _)
  have hin : (l.inFlight.set id l.nextResume).size = l.inFlight.size + 1 :=
    size_set_of_none _ hnone
  constructor
  · intro n r hget
    simp only [ResumeScanner.startResume, get_set] at hget ⊢
    split at hget
    · rename_i heq
      cases hget
      simp [heq]
    · -- A resume that was there is of another run.
      have hold := h.tracked n r hget
      have hne : id ≠ r.workflowId := by
        intro heq
        rw [← heq, hnone] at hold
        cases hold
      rw [if_neg hne]
      exact hold
  · show (l.inFlight.set id l.nextResume).size = (l.resumes.set l.nextResume _).size
    rw [hin, size_set_of_none _ hnew, h.paired]
  · show (l.inFlight.set id l.nextResume).size ≤ _
    omega
  · intro n hn
    simp only [ResumeScanner.startResume] at hn ⊢
    rw [get_set_ne _ _ (by omega)]
    exact h.fresh n (by omega)
  · intro hwaits
    have hqueued : queued phase = true := hwaits
    rw [hphase] at hqueued
    cases hqueued

theorem step_pooled (o : ResumeScannerOp E) (h : Pooled config l) :
    Pooled config (l.step config finder o).1 := by
  have hstep : ScannerStep config l o (l.step config finder o) := step_cases l o
  generalize l.step config finder o = r at hstep ⊢
  cases hstep with
  | quiet hsame => exact h.of_samePool hsame
  | advances hadvance =>
    cases hadvance with
    | awaits phase hgoes => exact h.awaits hgoes
    | queues row rest hfull => exact { h with waits := fun _ => hfull }
    | skips row rest hin => exact h.awaits rfl
    | dispatches row rest hroom hfree => exact h.startResume hroom hfree rfl
  | unknown row rest hscan =>
    have hreported : Pooled config (l.reportUnknown config row) := by
      unfold reportUnknown
      split
      · exact h
      · exact { h with }
    exact hreported.awaits rfl
  | settles n r hget =>
    have hsize : (l.resumes.set n { r with settled := true }).size = l.resumes.size := by
      rw [← length_keys, keys_set_of_get hget, length_keys]
    refine { h with tracked := ?_, paired := ?_, fresh := ?_ }
    · intro m r' hget'
      simp only [get_set] at hget'
      split at hget'
      · rename_i heq
        cases hget'
        subst heq
        exact h.tracked n r hget
      · exact h.tracked m r' hget'
    · show l.inFlight.size = (l.resumes.set n _).size
      rw [hsize]
      exact h.paired
    · intro m hm
      have hne : n ≠ m := by
        intro heq
        subst heq
        rw [h.fresh n hm] at hget
        cases hget
      show (l.resumes.set n _).get m = none
      rw [get_set_ne _ _ hne]
      exact h.fresh m hm
  | releases n id hget =>
    have hin : l.inFlight.get id = some n := h.tracked n _ hget
    have hsize := size_delete_of_get hin
    have hsize' := size_delete_of_get hget
    have hpaired := h.paired
    have hbounded := h.bounded
    constructor
    · intro m r hget'
      simp only [get_delete] at hget' ⊢
      split at hget'
      · cases hget'
      · -- Another resume is of another run.
        rename_i hne
        have hother := h.tracked m r hget'
        have hid : id ≠ r.workflowId := by
          intro heq
          rw [← heq, hin] at hother
          cases hother
          exact hne rfl
        rw [if_neg hid]
        exact hother
    · show (l.inFlight.delete id).size = (l.resumes.delete n).size
      omega
    · show (l.inFlight.delete id).size ≤ _
      omega
    · intro m hm
      show (l.resumes.delete n).get m = none
      rw [get_delete]
      split
      · rfl
      · exact h.fresh m hm
    · intro hwaits
      have hqueued : queued (wakeWaiters l.scan) = true := hwaits
      rw [queued_wakeWaiters] at hqueued
      cases hqueued

/-! ## What becomes of a row -/

/-- The answer of a step tells what happened to the row. -/
inductive Honest (l : ResumeScanner E) (o : ResumeScannerOp E) :
    ResumeScanner E × Option Dispatched → Prop
  | nothing (l' : ResumeScanner E) : Honest l o (l', none)
  | dispatched {l' : ResumeScanner E} {id : String} (hfree : l.inFlight.has id = false)
    (hin : l'.inFlight.get id = some l.nextResume)
    (hresume : l'.resumes.get l.nextResume = some ⟨id, false⟩) :
    Honest l o (l', some ⟨id, .dispatched⟩)
  | alreadyInFlight {l' : ResumeScanner E} {id : String} (hin : l.inFlight.has id = true) :
    Honest l o (l', some ⟨id, .alreadyInFlight⟩)
  | unknownWorkflow {l' : ResumeScanner E} {row : WorkflowWakeup} {rest : PageRest}
    (hscan : l.scan = .resolving row rest) (hunknown : o = .resolved (some false)) :
    Honest l o (l', some ⟨row.workflowId, .unknownWorkflow⟩)

theorem step_honest (l : ResumeScanner E) (o : ResumeScannerOp E) :
    Honest l o (l.step config finder o) := by
  have hstep : ScannerStep config l o (l.step config finder o) := step_cases l o
  generalize l.step config finder o = r at hstep ⊢
  cases hstep with
  | quiet hsame | settles n r hget | releases n id hget => exact .nothing _
  | advances hadvance =>
    cases hadvance with
    | awaits phase hgoes | queues row rest hfull => exact .nothing _
    | skips row rest hin => exact .alreadyInFlight hin
    | dispatches row rest hroom hfree =>
      exact .dispatched hfree (get_set_self _ _ _) (get_set_self _ _ _)
  | unknown row rest hscan => exact .unknownWorkflow hscan rfl

/-! ## Covering the due runs -/

def Pending (id : String) (handled : Prop) (rest : PageRest) : Prop :=
  handled ∨ (∃ row ∈ rest.rows, row.workflowId = id) ∨ (rest.done = false ∧ rest.lastId < id)

/-- What a scan has done about a run that stays due, by what it awaits. -/
def Covered (id : String) (handled : Prop) : ScanPhase → Prop
  | .idle _ => handled
  | .acquiring after => ∀ cursor ∈ after, ¬ cursor < id → handled
  | .finding after => ∀ cursor ∈ after, ¬ cursor < id → handled
  | .resolving row rest => row.workflowId = id ∨ Pending id handled rest
  | .waiting row _ rest => row.workflowId = id ∨ Pending id handled rest
  | .between rest => Pending id handled rest

def HandledBy (id : String) (handled : Prop) (answer : Option Dispatched) : Prop :=
  handled ∨ ∃ outcome, answer = some ⟨id, outcome⟩

theorem Pending.mono {handled' : Prop} {rest : PageRest}
    (h : Pending id handled rest) (hle : handled → handled') : Pending id handled' rest :=
  h.imp hle fun hrest => hrest

theorem Covered.mono {handled' : Prop}
    (h : Covered id handled phase) (hle : handled → handled') : Covered id handled' phase := by
  cases phase with
  | idle last => exact hle h
  | acquiring after | finding after => exact fun cursor hcursor hid => hle (h cursor hcursor hid)
  | resolving row rest | waiting row woken rest => exact h.imp_right fun hrest => hrest.mono hle
  | between rest => exact Pending.mono h hle

def KeepsCovered (id : String) (handled : Prop) (r : ResumeScanner E × Option Dispatched) : Prop :=
  Covered id (HandledBy id handled r.2) r.1.scan ∧ r.1.stopRequested = false

section Covered

variable {id : String} {handled : Prop} (hstop : l.stopRequested = false)

include hstop

variable {rest : PageRest} {row : WorkflowWakeup}

section

variable (h : row.workflowId = id ∨ Pending id handled rest)
include h

theorem returns_covered (outcome : DispatchOutcome) :
    KeepsCovered id handled (l.returns row outcome rest) := by
  refine ⟨?_, hstop⟩
  cases h with
  | inl hid =>
    subst hid
    exact .inl (.inr ⟨outcome, rfl⟩)
  | inr hrest => exact hrest.mono .inl

theorem takeSlot_covered :
    KeepsCovered id handled (l.takeSlot config row rest) := by
  unfold takeSlot
  split
  · exact ⟨h.imp_right fun hrest => hrest.mono .inl, hstop⟩
  · split
    · exact returns_covered hstop h _
    · exact returns_covered (l := l.startResume row.workflowId) hstop h _

theorem dispatch_covered :
    KeepsCovered id handled (l.dispatch config row rest) := by
  unfold dispatch
  split
  · exact returns_covered hstop h _
  · cases config.target with
    | runner => exact ⟨h.imp_right fun hrest => hrest.mono .inl, hstop⟩
    | wake => exact takeSlot_covered hstop h

end

theorem loopTop_covered {after : Option String} (h : ∀ cursor ∈ after, ¬ cursor < id → handled) :
    KeepsCovered id handled (l.loopTop config after) := by
  unfold loopTop
  simp only [hstop, Bool.false_eq_true, if_false]
  split
  · exact ⟨fun cursor hcursor hid => .inl (h cursor hcursor hid), hstop⟩
  · exact ⟨fun cursor hcursor hid => .inl (h cursor hcursor hid), hstop⟩

theorem nextRow_covered (h : Pending id handled rest) :
    KeepsCovered id handled (l.nextRow config rest) := by
  unfold nextRow
  cases hrows : rest.rows with
  | nil =>
    -- The page is over: the run is not on it any more.
    have hrest : handled ∨ (rest.done = false ∧ rest.lastId < id) := by
      cases h with
      | inl hhandled => exact .inl hhandled
      | inr h =>
        refine .inr (h.resolve_left fun hrow => ?_)
        rw [hrows] at hrow
        obtain ⟨row, hrow, -⟩ := hrow
        cases hrow
    cases hdone : rest.done with
    | true =>
      cases hrest with
      | inl hhandled => exact ⟨.inl hhandled, hstop⟩
      | inr hlast =>
        rw [hdone] at hlast
        cases hlast.1
    | false =>
      apply loopTop_covered hstop
      intro cursor hcursor hid
      cases hcursor
      exact hrest.resolve_right fun hlast => hid hlast.2
  | cons row rows =>
    simp only [hstop, Bool.false_eq_true, if_false]
    apply dispatch_covered hstop
    cases h with
    | inl hhandled => exact .inr (.inl hhandled)
    | inr h =>
      cases h with
      | inl hrow =>
        rw [hrows] at hrow
        obtain ⟨found, hfound, hid⟩ := hrow
        cases mem_cons.mp hfound with
        | inl heq => exact .inl (heq ▸ hid)
        | inr hfound => exact .inr (.inr (.inl ⟨found, hfound, hid⟩))
      | inr hlast => exact .inr (.inr (.inr hlast))

theorem onPage_covered {after : Option String} (hdue : finder.due l.env id)
    (h : ∀ cursor ∈ after, ¬ cursor < id → handled) :
    KeepsCovered id handled (l.onPage config (finder.find l.env after)) := by
  -- A run that is not behind the cursor is on the page, or after it.
  have hpage : handled ∨
      (∃ row ∈ (finder.find l.env after).rows, row.workflowId = id) ∨
      ((finder.find l.env after).done = false ∧
        ∃ last ∈ (finder.find l.env after).rows.getLast?, last.workflowId < id) := by
    by_cases hbehind : ∃ cursor ∈ after, ¬ cursor < id
    · obtain ⟨cursor, hcursor, hid⟩ := hbehind
      exact .inl (h cursor hcursor hid)
    · refine .inr (finder.covers l.env after id hdue fun cursor hcursor => ?_)
      exact Classical.not_not.mp fun hid => hbehind ⟨cursor, hcursor, hid⟩
  unfold onPage
  cases hlast : (finder.find l.env after).rows.getLast? with
  | none =>
    refine ⟨.inl ?_, hstop⟩
    refine hpage.resolve_right fun hrow => ?_
    cases hrow with
    | inl hrow =>
      rw [getLast?_eq_none_iff.mp hlast] at hrow
      obtain ⟨row, hrow, -⟩ := hrow
      cases hrow
    | inr hafter =>
      obtain ⟨last, hmem, -⟩ := hafter.2
      rw [hlast] at hmem
      cases hmem
  | some last =>
    apply nextRow_covered hstop
    refine hpage.imp_right fun hrow => hrow.imp_right fun hafter => ⟨hafter.1, ?_⟩
    obtain ⟨last', hmem, hlt⟩ := hafter.2
    rw [hlast] at hmem
    cases hmem
    exact hlt

end Covered

/-- The operation ends a scan before its last page: a stop, a lost lease, or a call that is
rejected. -/
def disturbs : ResumeScannerOp E → Bool
  | .stop => true
  | .findFails => true
  | .leaseAnswer acquired => acquired != some true
  | .resolved known => known.isNone
  | .tick | .found | .continues | .settles _ | .releases _ | .start | .moves _ => false

theorem tick_covered (hstop : l.stopRequested = false)
    {last : Option ScanEnd} (hidle : l.scan = .idle last) :
    KeepsCovered id handled (l.step config finder .tick) := by
  simp only [step, hidle]
  split
  · exact ⟨nofun, hstop⟩
  · exact loopTop_covered hstop nofun

/-- While nothing disturbs the scan, a run that stays due is handled or still ahead of it. -/
theorem step_covered {o : ResumeScannerOp E}
    (hcalm : disturbs o = false) (hdue : finder.due l.env id) (hstop : l.stopRequested = false)
    (h : Covered id handled l.scan) : KeepsCovered id handled (l.step config finder o) := by
  have hquiet : KeepsCovered id handled (l, none) := ⟨h.mono .inl, hstop⟩
  cases o with
  | tick =>
    cases hscan : l.scan with
    | idle last => exact tick_covered hstop hscan
    | acquiring | finding | resolving | waiting | between =>
      simp only [step, hscan]
      exact hquiet
  | leaseAnswer acquired =>
    have hleads : acquired = some true := by simpa [disturbs] using hcalm
    subst hleads
    cases hscan : l.scan with
    -- after a page the lease is asked for again, and the cursor is kept
    | acquiring after =>
      rw [hscan] at h
      simp only [step, leaseAnswer, hscan]
      cases after with
      | none => exact loopTop_covered hstop nofun
      | some cursor =>
        exact ⟨fun cursor hcursor hid => .inl (h cursor hcursor hid), hstop⟩
    | idle | finding | resolving | waiting | between =>
      simp only [step, leaseAnswer, hscan]
      exact hquiet
  | found =>
    cases hscan : l.scan with
    | finding after =>
      rw [hscan] at h
      simp only [step, hscan]
      exact onPage_covered hstop hdue h
    | idle | acquiring | resolving | waiting | between =>
      simp only [step, hscan]
      exact hquiet
  | findFails | stop => cases hcalm
  | resolved known =>
    cases hscan : l.scan with
    | resolving row rest =>
      rw [hscan] at h
      simp only [step, resolved, hscan]
      cases known with
      | none => cases hcalm
      | some known =>
        cases known with
        | true => exact takeSlot_covered hstop h
        | false =>
          have hreported : (l.reportUnknown config row).stopRequested = false := by
            unfold reportUnknown
            split <;> exact hstop
          exact returns_covered hreported h _
    | idle | acquiring | finding | waiting | between =>
      simp only [step, resolved, hscan]
      exact hquiet
  | continues =>
    cases hscan : l.scan with
    | between rest =>
      rw [hscan] at h
      simp only [step, continues, hscan]
      exact nextRow_covered hstop h
    | waiting row woken rest =>
      rw [hscan] at h
      simp only [step, continues, hscan]
      cases woken with
      | true => exact takeSlot_covered hstop h
      | false => exact hquiet
    | idle | acquiring | finding | resolving =>
      simp only [step, continues, hscan]
      exact hquiet
  | settles n =>
    simp only [step, ResumeScanner.settles]
    cases l.resumes.get n with
    | none => exact hquiet
    | some r => exact ⟨h.mono .inl, hstop⟩
  | releases n =>
    simp only [step, ResumeScanner.releases]
    split
    · refine ⟨?_, hstop⟩
      have hwoken : Covered id handled (wakeWaiters l.scan) := by
        cases hscan : l.scan <;> rw [hscan] at h <;> exact h
      exact hwoken.mono .inl
    · exact hquiet
  | start =>
    cases hscan : l.scan with
    | idle last =>
      rw [hscan] at h
      simp only [step, hscan]
      exact ⟨.inl h, rfl⟩
    | acquiring | finding | resolving | waiting | between =>
      simp only [step, hscan]
      exact hquiet
  | moves env => exact ⟨h.mono .inl, hstop⟩

end ResumeScanner

open ResumeScanner

section Runs

variable {E : Type} (config : ResumeScannerConfig) (finder : DueFinder E)

def CoveredSoFar (id : String) (handled : Prop) (l : ResumeScanner E)
    (answers : List (Option Dispatched)) : Prop :=
  l.stopRequested = false ∧
    Covered id (handled ∨ ∃ outcome, some ⟨id, outcome⟩ ∈ answers) l.scan

theorem run_covered {id : String} {handled : Prop} {l : ResumeScanner E}
    {ops : List (ResumeScannerOp E)} (hc : (resumeScanner config finder).Always
      (fun l o => finder.due l.env id ∧ disturbs o = false) l ops)
    (hstop : l.stopRequested = false) (h : Covered id handled l.scan) :
    Covered id (handled ∨ ∃ outcome,
        some ⟨id, outcome⟩ ∈ (resumeScanner config finder).outs l ops)
      ((resumeScanner config finder).run l ops).scan := by
  have hstep : ∀ (l : ResumeScanner E) (o : ResumeScannerOp E) (answers : List (Option Dispatched)),
      finder.due l.env id ∧ disturbs o = false → CoveredSoFar id handled l answers →
      CoveredSoFar id handled ((resumeScanner config finder).next l o)
        (answers ++ [(resumeScanner config finder).out l o]) := by
    intro l o answers hcalm hkept
    obtain ⟨hcovered, hstop⟩ := step_covered hcalm.2 hcalm.1 hkept.1 hkept.2
    refine ⟨hstop, hcovered.mono fun hhandled => ?_⟩
    cases hhandled with
    | inl hbefore =>
      refine hbefore.imp_right fun hmem => ?_
      obtain ⟨outcome, hmem⟩ := hmem
      exact ⟨outcome, mem_append_left _ hmem⟩
    | inr hnow =>
      obtain ⟨outcome, hnow⟩ := hnow
      exact .inr ⟨outcome, mem_append_right _ (mem_singleton.mpr hnow.symm)⟩
  have hrun := run_induction_trace (l := []) (P := CoveredSoFar id handled) hstep hc
    ⟨hstop, h.mono .inl⟩
  rw [trace_out, nil_append] at hrun
  exact hrun.2

/-- No two resumes are of one run, and there are no more than the concurrency; a scan that
nobody woke waits because every slot is taken. -/
structure PoolSafe (config : ResumeScannerConfig) (l : ResumeScanner E) : Prop where
  oneResume : ∀ n m r r', l.resumes.get n = some r → l.resumes.get m = some r' →
    r.workflowId = r'.workflowId → n = m
  bounded : l.resumes.size ≤ config.concurrency
  waits : ∀ row rest, l.scan = .waiting row false rest → l.resumes.size = config.concurrency

theorem ResumeScanner.Pooled.safe {config : ResumeScannerConfig} {l : ResumeScanner E}
    (h : Pooled config l) : PoolSafe config l where
  oneResume := by
    intro n m r r' hn hm hid
    have htracked := h.tracked n r hn
    rw [hid, h.tracked m r' hm] at htracked
    cases htracked
    rfl
  bounded := by
    rw [← h.paired]
    exact h.bounded
  waits := by
    intro row rest hwaits
    have hqueued : queued l.scan = true := by rw [hwaits]; rfl
    rw [← h.paired]
    exact le_antisymm h.bounded (h.waits hqueued)

/-- The scan settles the run, with whatever outcome. -/
def ScanHandles (config : ResumeScannerConfig) (finder : DueFinder E) (l : ResumeScanner E)
    (ops : List (ResumeScannerOp E)) (id : String) : Prop :=
  ∃ outcome, some ⟨id, outcome⟩ ∈ (resumeScanner config finder).outs l ops

/-- In every run of the scanner the resumes in flight are of different runs and within the
concurrency, every answer tells what happened to a row, and a scan that was neither stopped nor
ended early by its lease or a rejected call has handled every run that was due throughout. -/
theorem resumeScanner_dispatches (env : E) (ops : List (ResumeScannerOp E)) :
    PoolSafe config ((resumeScanner config finder).run (.new env) ops) ∧
      (resumeScanner config finder).Always
        (fun l o => Honest l o ((resumeScanner config finder).step l o)) (.new env) ops ∧
      ∀ before scan last last' id, ops = before ++ .tick :: scan →
        ((resumeScanner config finder).run (.new env) before).scan = .idle last →
        ((resumeScanner config finder).run (.new env) before).stopRequested = false →
        (resumeScanner config finder).Always
          (fun l o => finder.due l.env id ∧ disturbs o = false)
          ((resumeScanner config finder).run (.new env) before) (.tick :: scan) →
        ((resumeScanner config finder).run (.new env) ops).scan = .idle last' →
        ScanHandles config finder ((resumeScanner config finder).run (.new env) before)
          (.tick :: scan) id := by
  refine ⟨?_, ?_, ?_⟩
  · have hpooled := run_induction (M := resumeScanner config finder)
      (P := Pooled config) (fun l o h => step_pooled o h) ops (Pooled.new config env)
    exact hpooled.safe
  · exact always_of_forall (fun l o => step_honest l o) _ ops
  · rintro before scan last last' id rfl hidle hstop hc hover
    rw [run_append] at hover
    generalize (resumeScanner config finder).run (.new env) before = l at hidle hstop hc hover ⊢
    have hfirst : KeepsCovered id False (l.step config finder .tick) := tick_covered hstop hidle
    have hrest := run_covered config finder hc.2 hfirst.2 hfirst.1
    rw [run_cons] at hover
    rw [hover] at hrest
    unfold ScanHandles
    cases hrest with
    | inl hfirst =>
      obtain ⟨outcome, hanswer⟩ := hfirst.resolve_left not_false
      exact ⟨outcome, mem_cons.mpr (.inl hanswer.symm)⟩
    | inr hlater =>
      obtain ⟨outcome, hanswer⟩ := hlater
      exact ⟨outcome, mem_cons_of_mem _ hanswer⟩

end Runs

/-! ## Two sleepers -/

def twoSleepers : KeyedStorage :=
  ⟨storage.run (InMemoryWorkflowStorage.new { instanceId := "i1" }) [
      .createWorkflow { workflowId := "a", workflowName := "order", input := .null } none,
      .suspendWorkflow "a" "nap" { status := .sleeping, wakeAt := some 0 } none,
      .createWorkflow { workflowId := "b", workflowName := "order", input := .null } none,
      .suspendWorkflow "b" "nap" { status := .sleeping, wakeAt := some 0 } none],
    run_rowsKeyed _ _⟩

/-- With pages of one row and one slot, the second run is found on the second page and waits
for the slot of the first. -/
theorem resumeScanner_dispatches_second :
    ScanHandles { name := "sleep-scanner", target := .wake, resumeConcurrency := some 1 }
      (sleepFinder 1 (by decide)) (.new twoSleepers)
      [.tick, .found, .continues, .found, .settles 0, .releases 0, .continues, .continues, .found]
      "b" :=
  (resumeScanner_dispatches _ _ twoSleepers _).2.2 [] _ none (some .completed) "b" rfl rfl rfl
    (by decide +kernel) (by decide +kernel)

/-- A scan whose `resolveWorkflow` is rejected for the first run is over without the second,
though nobody stopped it. -/
theorem resumeScanner_counterexample :
    (resumeScanner { name := "sleep-scanner", target := .runner }
        (sleepFinder 2 (by decide))).Always
      (fun l _ => (sleepFinder 2 (by decide)).due l.env "b" ∧ l.stopRequested = false)
      (.new twoSleepers) [.tick, .found, .resolved none] ∧
    ((resumeScanner { name := "sleep-scanner", target := .runner }
        (sleepFinder 2 (by decide))).run (.new twoSleepers) [.tick, .found, .resolved none]).scan =
      .idle (some .failed) ∧
    ¬ ScanHandles { name := "sleep-scanner", target := .runner } (sleepFinder 2 (by decide))
      (.new twoSleepers) [.tick, .found, .resolved none] "b" := by
  refine ⟨by decide +kernel, by decide +kernel, ?_⟩
  intro h
  obtain ⟨outcome, hmem⟩ := h
  have houts : (resumeScanner { name := "sleep-scanner", target := .runner }
      (sleepFinder 2 (by decide))).outs (.new twoSleepers) [.tick, .found, .resolved none] =
      [none, none, none] := by decide +kernel
  rw [houts] at hmem
  simp at hmem

end Promin.Distributed
