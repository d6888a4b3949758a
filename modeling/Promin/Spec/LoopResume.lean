import Promin.Spec.Driving
import Promin.ForStd.Text
import Promin.Durable.LoopStep

/-!
# Resuming a loop

The completed iteration rows of a loop are those of its first iterations
(`Progress`), and each stores what its body answers.
-/

namespace Promin.Durable.LoopStep

open InMemoryWorkflowStorage List Option Prog Triple Within

variable {α : Type} (l : LoopStep α) (x : StepExec)

/-! ## The uninterrupted loop -/

/-- How the loop ends from iteration `iter` on, with `left` to go, when nothing interrupts it. -/
def outcomeFrom (iter : Nat) : (left : Nat) → Except Thrown α
  | 0 => .error l.limitExceeded
  | left + 1 =>
    match l.body iter with
    | .error e => .error e
    | .ok result =>
      if l.keepGoing result iter then outcomeFrom (iter + 1) left else .ok result

/-- How the loop ends when nothing interrupts it. -/
def outcome : Except Thrown α := l.outcomeFrom 0 l.maxIterations

def GoesOn (iter : Nat) : Prop := ∃ a, l.body iter = .ok a ∧ l.keepGoing a iter = true

variable {i iter k : Nat} {row : StepState} {wf : MutableWorkflow}

theorem outcomeFrom_of_goesOn {left : Nat} (h : l.GoesOn iter) :
    l.outcomeFrom iter (left + 1) = l.outcomeFrom (iter + 1) left := by
  obtain ⟨a, ha, hgo⟩ := h
  simp [outcomeFrom, ha, hgo]

/-! ## Rows of a loop -/

def rowOf (w : DriverWorld Nat) (iter : Nat) : Option StepState :=
  (w.storage.workflows.get x.workflowId).bind fun wf => wf.steps.get (l.iterationName iter)

def completedIn (w : DriverWorld Nat) (iter : Nat) : Bool :=
  (l.rowOf x w iter).map (·.status) == some .completed

def Stores (row : StepState) (iter : Nat) : Prop :=
  row.status = .completed ∧
    ∃ a, l.body iter = .ok a ∧ row.result = some (l.codec.encode a)

/-- The first `k` iterations have completed rows, and no others. -/
structure Progress (w : DriverWorld Nat) (k : Nat) : Prop where
  run : (w.storage.workflows.get x.workflowId).isSome = true
  le : k ≤ l.maxIterations
  done : ∀ i, i < k → ∃ row, l.rowOf x w i = some row ∧ l.Stores row i
  goesOn : ∀ i, i + 1 < k → l.GoesOn i
  missing : ∀ i, k ≤ i → l.completedIn x w i = false

variable {l} {x}

theorem iterationName_inj {j : Nat} (h : l.iterationName i = l.iterationName j) : i = j :=
  Nat.append_toString_inj (l.name ++ ".iter.") h

theorem Progress.congr {w w' : DriverWorld Nat} (h : l.Progress x w k)
    (hrows : w'.storage.workflows = w.storage.workflows) : l.Progress x w' k := by
  have hrow : ∀ i, l.rowOf x w' i = l.rowOf x w i := by
    intro i
    simp only [rowOf, hrows]
  refine ⟨?_, h.le, ?_, h.goesOn, ?_⟩
  · rw [hrows]
    exact h.run
  · intro i hi
    rw [hrow]
    exact h.done i hi
  · intro i hi
    have hmissing := h.missing i hi
    simpa only [completedIn, hrow] using hmissing

variable {w : DriverWorld Nat}

theorem completedIn_of_lt (h : l.Progress x w k) (hi : i < k) :
    l.completedIn x w i = true := by
  obtain ⟨row, hrow, hstatus, -⟩ := h.done i hi
  simp [completedIn, hrow, hstatus]

theorem completedIn_iff (h : l.Progress x w k) :
    l.completedIn x w i = true ↔ i < k := by
  constructor
  · intro hdone
    by_contra hge
    have hmissing := h.missing i (by omega)
    rw [hdone] at hmissing
    exact nomatch hmissing
  · exact completedIn_of_lt h

/-- What replaying the rows comes to: the result the loop stopped with, or the first iteration
without a completed row. -/
theorem replay_eq (hcodec : l.codec.Lossless) (h : l.Progress x w k)
    (hwf : w.storage.workflows.get x.workflowId = some wf) :
    ∀ n i, i + n = k →
      (l.replay wf.steps i (l.maxIterations - i) = .missing k ∧
        (∀ j, i ≤ j → j < k → l.GoesOn j)) ∨
      ∃ a, l.replay wf.steps i (l.maxIterations - i) = .stopped a ∧
        l.outcomeFrom i (l.maxIterations - i) = .ok a := by
  intro n
  induction n with
  | zero =>
    intro i hi
    have hik : i = k := by omega
    subst hik
    left
    constructor
    · cases hleft : l.maxIterations - i with
      | zero => rfl
      | succ left =>
        -- the first row that is not completed ends the replay
        have hmissing := h.missing i (Nat.le_refl i)
        simp only [completedIn, rowOf, hwf, bind_some] at hmissing
        simp only [replay]
        cases hrow : wf.steps.get (l.iterationName i) with
        | none => rfl
        | some row =>
          rw [hrow] at hmissing
          have hstatus : row.status ≠ .completed := by
            intro heq
            simp [heq] at hmissing
          simp only [if_pos hstatus]
    · intro j hij hj
      omega
  | succ n ih =>
    intro i hi
    have hlt : i < k := by omega
    have hle := h.le
    obtain ⟨row, hrow, hstatus, a, ha, hresult⟩ := h.done i hlt
    simp only [rowOf, hwf, bind_some] at hrow
    have hleft : l.maxIterations - i = l.maxIterations - (i + 1) + 1 := by omega
    have hdecoded : l.codec.decode (row.result.getD .undefined) = a := by
      rw [hresult, getD_some, hcodec]
    have hnot : ¬ row.status ≠ .completed := not_not.mpr hstatus
    rw [hleft]
    simp only [replay, outcomeFrom, hrow, if_neg hnot, hdecoded, ha]
    cases hgo : l.keepGoing a i with
    | false => exact .inr ⟨a, rfl, rfl⟩
    | true =>
      simp only [if_true]
      cases ih (i + 1) (by omega) with
      | inr hstopped => exact .inr hstopped
      | inl hmissing =>
        refine .inl ⟨hmissing.1, fun j hij hj => ?_⟩
        by_cases heq : i = j
        · subst heq
          exact ⟨a, ha, hgo⟩
        · exact hmissing.2 j (by omega) hj

theorem outcomeFrom_add {n left : Nat} (h : ∀ j, i ≤ j → j < i + n → l.GoesOn j) :
    l.outcomeFrom i (n + left) = l.outcomeFrom (i + n) left := by
  induction n generalizing i with
  | zero => simp
  | succ n ih =>
    rw [show n + 1 + left = n + left + 1 by omega,
      outcomeFrom_of_goesOn l (h i (Nat.le_refl i) (by omega)),
      ih fun j hij hj => h j (by omega) (by omega), show i + 1 + n = i + (n + 1) by omega]

/-! ## Writing an iteration's row -/

/-- Only the row of iteration `iter` has changed, to `row`. -/
structure Stored (w : DriverWorld Nat) (s : InMemoryWorkflowStorage) (iter : Nat)
    (row : StepState) : Prop where
  run : (s.workflows.get x.workflowId).isSome = true
  rows : ∀ i, l.rowOf x { w with storage := s } i =
    if i = iter then some row else l.rowOf x w i

variable {s : InMemoryWorkflowStorage}

theorem stored_putStep {wf' : MutableWorkflow}
    (hwf : w.storage.workflows.get x.workflowId = some wf)
    (hput : s.workflows.get x.workflowId = some wf')
    (hsteps : wf'.steps = wf.steps.set (l.iterationName iter) row) :
    Stored (l := l) (x := x) w s iter row where
  run := by rw [hput]; rfl
  rows := by
    intro i
    simp only [rowOf, hwf, hput, bind_some, hsteps, JsMap.get_set]
    by_cases hi : i = iter
    · simp [hi]
    · have hname : l.iterationName iter ≠ l.iterationName i :=
        fun heq => hi (iterationName_inj heq).symm
      simp [hi, hname]

theorem stored_markedStep (hwf : w.storage.workflows.get x.workflowId = some wf) {step : StepState}
    (hname : step.stepName = l.iterationName iter) (event : WorkflowRunEvent) :
    Stored (l := l) (x := x) w ((w.storage.putRun x.workflowId
      (w.storage.putStep (w.storage.markRunning wf) step)).emit x.workflowId event false)
      iter step := by
  apply stored_putStep hwf (JsMap.get_set_self _ _ _)
  have hmark : (w.storage.markRunning wf).steps = wf.steps := by
    unfold markRunning
    split <;> rfl
  show (w.storage.markRunning wf).steps.set step.stepName step = _
  rw [hmark, hname]

theorem stored_result (hrun : (w.storage.workflows.get x.workflowId).isSome)
    (iter : Nat) (result : JsValue) (durationMs startedAt : Int) :
    ∃ row, row.status = .completed ∧ row.result = some result ∧
      Stored (l := l) (x := x) w (w.storage.writeStepResult {
        workflowId := x.workflowId, stepName := l.iterationName iter, result := result
        durationMs := durationMs, startedAt := startedAt }) iter row := by
  obtain ⟨wf, hwf⟩ := isSome_iff_exists.mp hrun
  unfold writeStepResult
  simp only [hwf]
  exact ⟨_, rfl, rfl, stored_markedStep hwf rfl _⟩

theorem stored_failure (hrun : (w.storage.workflows.get x.workflowId).isSome)
    (iter : Nat) (error : String) (durationMs startedAt : Int) :
    ∃ row, row.status = .failed ∧
      Stored (l := l) (x := x) w (w.storage.writeStepFailure {
        workflowId := x.workflowId, stepName := l.iterationName iter, error := error
        durationMs := durationMs, startedAt := startedAt }) iter row := by
  obtain ⟨wf, hwf⟩ := isSome_iff_exists.mp hrun
  unfold writeStepFailure
  simp only [hwf]
  exact ⟨_, rfl, stored_markedStep hwf rfl _⟩

theorem Progress.succ (h : l.Progress x w k) (hlt : k < l.maxIterations)
    (hgo : ∀ i, i < k → l.GoesOn i) (hrow : l.Stores row k)
    (hstored : Stored (l := l) (x := x) w s k row) :
    l.Progress x { w with storage := s } (k + 1) where
  run := hstored.run
  le := hlt
  done := by
    intro i hi
    rw [hstored.rows]
    by_cases heq : i = k
    · subst heq
      exact ⟨row, by simp, hrow⟩
    · rw [if_neg heq]
      exact h.done i (by omega)
  goesOn := fun i hi => hgo i (by omega)
  missing := by
    intro i hi
    have hmissing := h.missing i (by omega)
    have hne : i ≠ k := by omega
    simpa only [completedIn, hstored.rows, if_neg hne] using hmissing

theorem Progress.failed (h : l.Progress x w k) (hrow : row.status = .failed)
    (hstored : Stored (l := l) (x := x) w s k row) :
    l.Progress x { w with storage := s } k where
  run := hstored.run
  le := h.le
  done := by
    intro i hi
    have hne : i ≠ k := by omega
    rw [hstored.rows, if_neg hne]
    exact h.done i hi
  goesOn := h.goesOn
  missing := by
    intro i hi
    by_cases heq : i = k
    · simp [completedIn, hstored.rows, heq, hrow]
    · have hmissing := h.missing i hi
      simpa only [completedIn, hstored.rows, if_neg heq] using hmissing

/-! ## One life -/

variable (l x)

/-- Where a life that started at iteration `k₀` is, up to wherever it crashes. -/
def Life (k₀ : Nat) (ran₀ : List Nat) (w : DriverWorld Nat) : Prop :=
  ∃ k n, l.Progress x w k ∧ k₀ ≤ k ∧ w.events = ran₀ ++ List.range' k₀ n ∧
    k ≤ k₀ + n ∧ k₀ + n ≤ k + 1 ∧ k₀ + n ≤ l.maxIterations

def Before (k₀ : Nat) (ran₀ : List Nat) (iter : Nat) (w : DriverWorld Nat) : Prop :=
  l.Progress x w iter ∧ k₀ ≤ iter ∧ w.events = ran₀ ++ List.range' k₀ (iter - k₀)

def During (k₀ : Nat) (ran₀ : List Nat) (iter : Nat) (w : DriverWorld Nat) : Prop :=
  l.Progress x w iter ∧ k₀ ≤ iter ∧ w.events = ran₀ ++ List.range' k₀ (iter - k₀ + 1)

variable {l x} {k₀ : Nat} {ran₀ : List Nat}

def OfRows (P : DriverWorld Nat → Prop) : Prop :=
  ∀ w w' : DriverWorld Nat, w'.storage.workflows = w.storage.workflows →
    w'.events = w.events → P w → P w'

theorem Before.ofRows (iter : Nat) : OfRows (Before l x k₀ ran₀ iter) :=
  fun _ _ hrows hevents h => ⟨h.1.congr hrows, h.2.1, by rw [hevents, h.2.2]⟩

theorem During.ofRows (iter : Nat) : OfRows (During l x k₀ ran₀ iter) :=
  fun _ _ hrows hevents h => ⟨h.1.congr hrows, h.2.1, by rw [hevents, h.2.2]⟩

theorem Life.stable : Stable (interfere x.workflowId) (Life l x k₀ ran₀) := by
  apply stable_of_rows
  intro w w' hrows hevents h
  obtain ⟨k, n, hprogress, hbounds⟩ := h
  exact ⟨k, n, hprogress.congr hrows, by rwa [hevents]⟩

theorem Before.life (h : Before l x k₀ ran₀ iter w) :
    Life l x k₀ ran₀ w := by
  obtain ⟨hprogress, hle, hevents⟩ := h
  have hmax := hprogress.le
  exact ⟨iter, iter - k₀, hprogress, hle, hevents, by omega, by omega, by omega⟩

theorem During.life (h : During l x k₀ ran₀ iter w)
    (hlt : iter < l.maxIterations) : Life l x k₀ ran₀ w := by
  obtain ⟨hprogress, hle, hevents⟩ := h
  exact ⟨iter, iter - k₀ + 1, hprogress, hle, hevents, by omega, by omega, by omega⟩

section Triples

variable {iter : Nat}

private theorem recordIteration_triple {outcome : StepOutcome} {startedAt : Int}
    {P : DriverWorld Nat → Prop} (hp : OfRows P) (hlife : ∀ w, P w → Life l x k₀ ran₀ w)
    (hwrite : ∀ w (durationMs : Int), During l x k₀ ran₀ iter w → P { w with
      storage := match outcome with
        | .completed result => w.storage.writeStepResult {
            workflowId := x.workflowId, stepName := l.iterationName iter, result := result
            durationMs := durationMs, startedAt := startedAt }
        | .failed error _ => w.storage.writeStepFailure {
            workflowId := x.workflowId, stepName := l.iterationName iter, error := error
            durationMs := durationMs, startedAt := startedAt } }) :
    Triple (Life l x k₀ ran₀) (During l x k₀ ran₀ iter)
      (l.recordIteration x iter startedAt outcome) (fun _ w => P w)
      fun e _ => FencedOut x.guard_ e := by
  have hduring : Stable (interfere x.workflowId) (During l x k₀ ran₀ iter) :=
    stable_of_rows (During.ofRows iter)
  unfold recordIteration
  apply bind (Q := fun _ => During l x k₀ ran₀ iter)
  · exact read_triple Life.stable hduring fun _ _ h => h
  · intro now
    apply bind (Q := fun _ w => P w)
    · have hsave : ∀ w, Life l x k₀ ran₀ w → During l x k₀ ran₀ iter w → _ := fun w _ hw =>
        hwrite w (now - startedAt) hw
      cases outcome with
      | completed result | failed error tag =>
        apply (fencedWrite_triple (Q := fun _ w => P w) Life.stable hduring fun w hl hw =>
          ⟨hlife _ (hsave w hl hw), hsave w hl hw⟩).conseq
        · exact fun _ _ h => h
        · exact fun _ _ _ h => h
        · exact fun _ _ _ h => h.2
    · intro _
      split
      · -- The attempt row lies in another table.
        have hattempt : ∀ w (record : StepAttemptRecord), P w →
            P { w with storage := w.storage.appendAttempt record } :=
          fun w _ hw => hp w _ rfl rfl hw
        apply (fencedWrite_triple (P := P) (Q := fun _ w => P w) Life.stable (stable_of_rows hp)
          fun w _ hw => ⟨hlife _ (hattempt w _ hw), hattempt w _ hw⟩).conseq
        · exact fun _ _ h => h
        · exact fun _ _ _ h => h
        · exact fun _ _ _ h => h.2
      · exact pure fun _ _ h => h

/-- An iteration runs its body and then writes its row; a crash between the two loses one body. -/
private theorem runIteration_triple (hlt : iter < l.maxIterations)
    (hgo : ∀ i, i < iter → l.GoesOn i) :
    Triple (Life l x k₀ ran₀) (Before l x k₀ ran₀ iter) (l.runIteration x iter)
      (fun a w => l.body iter = .ok a ∧ Before l x k₀ ran₀ (iter + 1) w)
      fun e _ => l.body iter = .error e ∨ FencedOut x.guard_ e := by
  have hbefore : Stable (interfere x.workflowId) (Before l x k₀ ran₀ iter) :=
    stable_of_rows (Before.ofRows iter)
  unfold runIteration
  apply bind (Q := fun _ => Before l x k₀ ran₀ iter)
  · exact read_triple Life.stable hbefore fun _ _ h => h
  · intro startedAt
    apply bind
      (Q := fun answer w => answer = l.body iter ∧ During l x k₀ ran₀ iter w)
    · apply storageCall_triple Life.stable hbefore
      · intro w s a _ hw hcall
        cases hcall
        obtain ⟨hprogress, hle, hevents⟩ := hw
        have hduring : During l x k₀ ran₀ iter
            { w with storage := w.storage, events := w.events ++ [iter] } := by
          refine ⟨hprogress.congr rfl, hle, ?_⟩
          show w.events ++ [iter] = _
          rw [hevents, range'_concat, append_assoc]
          simp [show k₀ + (iter - k₀) = iter by omega]
        exact ⟨hduring.life hlt, rfl, hduring⟩
      · intro w s e _ _ hcall
        exact nomatch hcall
    · intro answer
      cases answer with
      | ok a =>
        apply conseq (P := fun w => During l x k₀ ran₀ iter w ∧ l.body iter = .ok a)
          (Q := fun a w => l.body iter = .ok a ∧ Before l x k₀ ran₀ (iter + 1) w)
          (E := fun e _ => FencedOut x.guard_ e)
        · apply of_fact
          intro ha
          apply bind (Q := fun _ => Before l x k₀ ran₀ (iter + 1))
          · apply recordIteration_triple (Before.ofRows (iter + 1)) fun _ h => h.life
            intro w durationMs hw
            obtain ⟨hprogress, hle, hevents⟩ := hw
            obtain ⟨row, hstatus, hresult, hstored⟩ :=
              stored_result hprogress.run iter (l.codec.encode a) durationMs startedAt
            have hnext := hprogress.succ hlt hgo ⟨hstatus, a, ha, hresult⟩ hstored
            exact ⟨hnext, by omega, by rw [hevents, show iter + 1 - k₀ = iter - k₀ + 1 by omega]⟩
          · intro _
            exact pure fun _ _ h => ⟨ha, h⟩
        · exact fun _ _ h => ⟨h.2, h.1.symm⟩
        · exact fun _ _ _ h => h
        · exact fun _ _ _ h => .inr h
      | error e =>
        apply conseq (P := fun w => During l x k₀ ran₀ iter w ∧ l.body iter = .error e)
          (Q := fun a w => l.body iter = .ok a ∧ Before l x k₀ ran₀ (iter + 1) w)
          (E := fun e _ => l.body iter = .error e ∨ FencedOut x.guard_ e)
        · apply of_fact
          intro he
          apply bind (Q := fun _ => During l x k₀ ran₀ iter)
          · apply (recordIteration_triple (During.ofRows iter) (fun _ h => h.life hlt) ?_).conseq
            · exact fun _ _ h => h
            · exact fun _ _ _ h => h
            · exact fun _ _ _ h => .inr h
            · intro w durationMs hw
              obtain ⟨hprogress, hle, hevents⟩ := hw
              obtain ⟨row, hstatus, hstored⟩ :=
                stored_failure hprogress.run iter (errorMessage e) durationMs startedAt
              exact ⟨hprogress.failed hstatus hstored, hle, hevents⟩
          · intro _
            exact throw fun _ _ _ => .inl he
        · exact fun _ _ h => ⟨h.2, h.1.symm⟩
        · exact fun _ _ _ h => h
        · exact fun _ _ _ h => h

/-- What the rest of a life does: it ends as the uninterrupted loop does from there on, or is
abandoned. -/
theorem loop_triple {left : Nat} (hleft : iter + left = l.maxIterations)
    (hgo : ∀ i, i < iter → l.GoesOn i) :
    Triple (Life l x k₀ ran₀) (Before l x k₀ ran₀ iter) (l.loop x iter left)
      (fun a _ => l.outcomeFrom iter left = .ok a)
      fun e _ => l.outcomeFrom iter left = .error e ∨ FencedOut x.guard_ e := by
  induction left generalizing iter with
  | zero => exact throw fun _ _ _ => .inl rfl
  | succ left ih =>
    unfold loop
    have hrun : Triple (Life l x k₀ ran₀) (Before l x k₀ ran₀ iter) (l.runIteration x iter)
        (fun a w => l.body iter = .ok a ∧ Before l x k₀ ran₀ (iter + 1) w)
        (fun e _ => l.body iter = .error e ∨ FencedOut x.guard_ e) :=
      runIteration_triple (by omega) hgo
    apply bind (hrun.conseq (fun _ _ h => h) (fun _ _ _ h => h) ?_)
    · intro a
      apply conseq
        (P := fun w => Before l x k₀ ran₀ (iter + 1) w ∧ l.body iter = .ok a)
        (Q := fun b _ => l.outcomeFrom iter (left + 1) = .ok b)
        (E := fun e _ => l.outcomeFrom iter (left + 1) = .error e ∨ FencedOut x.guard_ e)
      · apply of_fact
        intro ha
        split
        · rename_i hgoes
          have hthis : l.GoesOn iter := ⟨a, ha, hgoes⟩
          rw [outcomeFrom_of_goesOn l hthis]
          apply ih (by omega)
          intro i hi
          by_cases heq : i = iter
          · rw [heq]
            exact hthis
          · exact hgo i (by omega)
        · rename_i hstops
          exact pure fun _ _ _ => by simp [outcomeFrom, ha, hstops]
      · exact fun _ _ h => ⟨h.2, h.1⟩
      · exact fun _ _ _ h => h
      · exact fun _ _ _ h => h
    · intro e w _ he
      cases he with
      | inl hbody => exact .inl (by simp [outcomeFrom, hbody])
      | inr habandoned => exact .inr habandoned

theorem execute_triple (hcodec : l.codec.Lossless) :
    Triple (Life l x k₀ ran₀) (fun w => l.Progress x w k₀ ∧ w.events = ran₀) (l.execute x)
      (fun a _ => l.outcome = .ok a)
      fun e _ => l.outcome = .error e ∨ FencedOut x.guard_ e := by
  have hstart : Stable (interfere x.workflowId)
      (fun w => l.Progress x w k₀ ∧ w.events = ran₀) :=
    stable_of_rows fun _ _ hrows hevents h => ⟨h.1.congr hrows, hevents.trans h.2⟩
  have hbefore : ∀ w, l.Progress x w k₀ ∧ w.events = ran₀ → Before l x k₀ ran₀ k₀ w := by
    intro w hw
    exact ⟨hw.1, Nat.le_refl _, by simpa using hw.2⟩
  unfold execute
  apply bind (Q := fun state w => Before l x k₀ ran₀ k₀ w ∧
    ∃ wf, state = some wf.toWorkflowState ∧ w.storage.workflows.get x.workflowId = some wf)
  · apply read_triple Life.stable hstart
    intro w _ hw
    obtain ⟨wf, hwf⟩ := isSome_iff_exists.mp hw.1.run
    exact ⟨hbefore w hw, wf, by rw [hwf]; rfl, hwf⟩
  · intro state ms w hlife hw
    obtain ⟨hw, wf, rfl, hwf⟩ := hw
    have hle := hw.1.le
    simp only
    have hreplay := replay_eq hcodec hw.1 hwf k₀ 0 (Nat.zero_add k₀)
    rw [Nat.sub_zero] at hreplay
    cases hreplay with
    | inl hmissing =>
      obtain ⟨hreplay, hgo⟩ := hmissing
      have houtcome : l.outcome = l.outcomeFrom k₀ (l.maxIterations - k₀) := by
        have hadd : l.outcomeFrom 0 (k₀ + (l.maxIterations - k₀)) =
            l.outcomeFrom (0 + k₀) (l.maxIterations - k₀) :=
          outcomeFrom_add fun j _ hj => hgo j (Nat.zero_le j) (by omega)
        rw [show k₀ + (l.maxIterations - k₀) = l.maxIterations by omega, Nat.zero_add] at hadd
        exact hadd
      rw [hreplay, houtcome]
      exact loop_triple (by omega) (fun i hi => hgo i (Nat.zero_le i) hi) ms w hlife hw
    | inr hstopped =>
      obtain ⟨a, hreplay, ha⟩ := hstopped
      rw [hreplay]
      exact ⟨hlife, ha⟩

end Triples

/-! ## Lives -/

section Lives

variable (l) (x)

private theorem recordIteration_within (iter : Nat) (startedAt : Int) (outcome : StepOutcome) :
    Within 3 (l.recordIteration x iter startedAt outcome) := by
  unfold recordIteration
  show Within (1 + (1 + 1)) _
  apply bind (storageCall_within _ _ _)
  intro now
  apply bind (storageCall_within _ _ _)
  intro _
  split
  · exact storageCall_within _ _ _
  · exact (Within.pure _).mono (Nat.zero_le 1)

private theorem runIteration_within (iter : Nat) : Within 5 (l.runIteration x iter) := by
  unfold runIteration
  show Within (1 + (1 + 3)) _
  apply bind (storageCall_within _ _ _)
  intro startedAt
  apply bind (storageCall_within _ _ _)
  intro answer
  cases answer with
  | ok a =>
    exact bind (recordIteration_within l x iter startedAt _) fun _ =>
      pure _
  | error e =>
    exact bind (recordIteration_within l x iter startedAt _) fun _ =>
      throw _

private theorem loop_within (iter left : Nat) : Within (5 * left) (l.loop x iter left) := by
  induction left generalizing iter with
  | zero => exact throw _
  | succ left ih =>
    unfold loop
    rw [show 5 * (left + 1) = 5 + 5 * left by omega]
    apply bind (runIteration_within l x iter)
    intro a
    split
    · exact ih (iter + 1)
    · exact (Within.pure _).mono (Nat.zero_le _)

theorem execute_within : Within (1 + 5 * l.maxIterations) (l.execute x) := by
  unfold execute
  apply Within.bind (Within.act _ _)
  intro state
  cases state with
  | none => exact loop_within l x 0 l.maxIterations
  | some state =>
    simp only
    cases l.replay state.steps 0 l.maxIterations with
    | stopped a => exact (Within.pure _).mono (Nat.zero_le _)
    | missing iter => exact (loop_within l x iter _).mono (by omega)

variable {l} {x}

theorem execute_life (hcodec : l.codec.Lossless) {w : DriverWorld Nat} {k : Nat}
    (h : l.Progress x w k) (ms : List Moment) :
    Life l x k w.events (l.execute x ms w).2.2 ∧
      match (l.execute x ms w).1 with
      | .ok a => l.outcome = .ok a
      | .error (.thrown e) => l.outcome = .error e ∨ FencedOut x.guard_ e
      | .error .crashed => True := by
  have hle := h.le
  have hstart : Life l x k w.events w :=
    ⟨k, 0, h, Nat.le_refl k, by simp, by omega, by omega, by omega⟩
  obtain ⟨hlife, hresult⟩ := execute_triple hcodec ms w hstart ⟨h, rfl⟩
  refine ⟨hlife, ?_⟩
  cases hr : (l.execute x ms w).1 with
  | ok a =>
    rw [hr] at hresult
    exact hresult
  | error stop =>
    rw [hr] at hresult
    cases stop with
    | crashed => trivial
    | thrown e => exact hresult

/-- The world after earlier lives of the step, each under the lock it held. -/
def after (l : LoopStep α) (x : StepExec) (earlier : List (FenceGuard × List Moment))
    (w₀ : DriverWorld Nat) : DriverWorld Nat :=
  lives (fun guard_ => l.execute { x with guard_ := guard_ }) earlier w₀

theorem Progress.withGuard {w : DriverWorld Nat} {k : Nat} (h : l.Progress x w k)
    (guard_ : FenceGuard) : l.Progress { x with guard_ := guard_ } w k :=
  ⟨h.run, h.le, h.done, h.goesOn, h.missing⟩

/-- After each life the completed iterations account for all bodies but one a life. -/
theorem lives_progress (hcodec : l.codec.Lossless) {w₀ : DriverWorld Nat}
    (h : l.Progress x w₀ 0) (earlier : List (FenceGuard × List Moment)) :
    ∃ k, l.Progress x (l.after x earlier w₀) k ∧
      (l.after x earlier w₀).events.length ≤ w₀.events.length + k + earlier.length := by
  have hlives := lives_induction
    (m := fun guard_ => l.execute { x with guard_ := guard_ })
    (J := fun n w => ∃ k, l.Progress x w k ∧ w.events.length ≤ w₀.events.length + k + n)
    (n := 0) (s := w₀) ?_ earlier ⟨0, h, Nat.le_refl _⟩
  · rwa [Nat.zero_add] at hlives
  · intro guard_ n ms w hw
    obtain ⟨k, hk, hlen⟩ := hw
    obtain ⟨⟨k', n', hk', hle, hevents, hcovered, hlost, hmax⟩, -⟩ :=
      execute_life hcodec (hk.withGuard guard_) ms
    refine ⟨k', hk'.withGuard x.guard_, ?_⟩
    rw [hevents, length_append, length_range']
    omega

/-- How many iterations have a completed row. -/
def completedCount (l : LoopStep α) (x : StepExec) (w : DriverWorld Nat) : Nat :=
  ((List.range l.maxIterations).filter (l.completedIn x w)).length

theorem completedCount_eq {w : DriverWorld Nat} {k : Nat} (h : l.Progress x w k) :
    completedCount l x w = k := by
  have hfilter : (List.range l.maxIterations).filter (l.completedIn x w) = List.range k := by
    have hsplit : List.range l.maxIterations = List.range k ++
        (List.range (l.maxIterations - k)).map (k + ·) := by
      rw [← range_add, Nat.add_sub_cancel' h.le]
    have hdone : (List.range k).filter (l.completedIn x w) = List.range k := by
      rw [filter_eq_self]
      intro i hi
      exact (completedIn_iff h).mpr (mem_range.mp hi)
    have hmissing : ((List.range (l.maxIterations - k)).map (k + ·)).filter
        (l.completedIn x w) = [] := by
      rw [filter_eq_nil_iff]
      intro i hi
      obtain ⟨j, -, rfl⟩ := mem_map.mp hi
      rw [h.missing _ (Nat.le_add_right k j)]
      exact Bool.false_ne_true
    rw [hsplit, filter_append, hdone, hmissing, append_nil]
  rw [completedCount, hfilter, length_range]

/-- What the last of several lives of a loop step comes to, each of which has a lock of its own and
may crash before any of its actions. -/
structure Resumes (l : LoopStep α) (x : StepExec) (w₀ : DriverWorld Nat)
    (earlier : List (FenceGuard × List Moment)) (ms : List Moment) : Prop where
  /-- It ends as the uninterrupted loop does, unless it crashes or loses its lock. -/
  result : match (l.execute x ms (l.after x earlier w₀)).1 with
    | .ok a => l.outcome = .ok a
    | .error (.thrown e) => l.outcome = .error e ∨ FencedOut x.guard_ e
    | .error .crashed => True
  /-- It does end when it is not stopped. -/
  ends : 1 + 5 * l.maxIterations ≤ ms.length →
    (l.execute x ms (l.after x earlier w₀)).1 ≠ .error .crashed
  /-- It runs no body twice and none that has a completed row, and no more than are left. -/
  bodies : ∃ ran, (l.execute x ms (l.after x earlier w₀)).2.2.events =
      (l.after x earlier w₀).events ++ ran ∧ ran.Nodup ∧
    (∀ i ∈ ran, l.completedIn x (l.after x earlier w₀) i = false) ∧
    completedCount l x (l.after x earlier w₀) + ran.length ≤ l.maxIterations
  /-- All lives together run one body for each iteration, and at most one more each earlier life. -/
  total : (l.execute x ms (l.after x earlier w₀)).2.2.events.length ≤
    w₀.events.length + l.maxIterations + earlier.length

theorem resumes (hcodec : l.codec.Lossless) {w₀ : DriverWorld Nat} (h : l.Progress x w₀ 0)
    (earlier : List (FenceGuard × List Moment)) (ms : List Moment) : Resumes l x w₀ earlier ms := by
  obtain ⟨k, hk, hlen⟩ := lives_progress hcodec h earlier
  obtain ⟨⟨k', n, hk', hle, hevents, hcovered, hlost, hmax⟩, hresult⟩ := execute_life hcodec hk ms
  refine ⟨hresult, fun hms => (execute_within l x ms _ hms).1, ?_, ?_⟩
  · refine ⟨List.range' k n, hevents, nodup_range', fun i hi => ?_, ?_⟩
    · have hki : k ≤ i := (mem_range'_1.mp hi).1
      exact hk.missing i hki
    · rw [completedCount_eq hk, length_range']
      exact hmax
  · rw [hevents, length_append, length_range']
    omega

end Lives

end Promin.Durable.LoopStep
