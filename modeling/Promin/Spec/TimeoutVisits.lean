import Promin.Spec.TimedSteps

/-!
# When a timeout fires in time

A timer carries the time at which the visit it was armed for is due, and a
firing compares only the state's name under the lock.
-/

namespace Promin.Durable

open TimedMachines Function JsMap StateMachineSystem

/-! ## Visits -/

/-- The machine is stored and has reached the revision; as long as it stays there, `P`. -/
def AtVisit (storage : InMemoryStateMachineStorage) (id : String) (revision : Nat)
    (P : MachineState → Prop) : Prop :=
  ∃ m, storage.load id = some m ∧ revision ≤ m.revision ∧ (m.revision = revision → P m)

def Grows (storage storage' : InMemoryStateMachineStorage) : Prop :=
  ∀ id m, storage.load id = some m → AtVisit storage' id m.revision (· = m)

variable {storage storage' : InMemoryStateMachineStorage} {id : String}
  {uuid : String} {c revision : Nat}

theorem AtVisit.grows {P : MachineState → Prop}
    (h : AtVisit storage id revision P) (hgrows : Grows storage storage') :
    AtVisit storage' id revision P := by
  obtain ⟨m, hm, hle, hp⟩ := h
  obtain ⟨m', hm', hle', hsame⟩ := hgrows id m hm
  refine ⟨m', hm', hle.trans hle', fun hrevision => ?_⟩
  -- A machine that is back at the revision never left it.
  have hm₁ : m.revision = revision := by omega
  have heq : m' = m := hsame (hrevision.trans hm₁.symm)
  exact heq ▸ hp hm₁

theorem AtVisit.imp {P Q : MachineState → Prop}
    (h : AtVisit storage id revision P) (hpq : ∀ m, storage.load id = some m → P m → Q m) :
    AtVisit storage id revision Q := by
  obtain ⟨m, hm, hle, hp⟩ := h
  exact ⟨m, hm, hle, fun hrevision => hpq m hm (hp hrevision)⟩

theorem Grows.of_machines (h : storage'.machines = storage.machines) : Grows storage storage' := by
  intro id m hm
  have hm' : storage'.load id = some m := by
    rw [← hm]
    exact congrArg (·.get id) h
  exact ⟨m, hm', Nat.le_refl _, fun _ => rfl⟩

theorem Grows.create {p : MachineCreateParams} (h : storage.load p.id = none) :
    Grows storage (storage.create p) := by
  intro id m hm
  have hne : p.id ≠ id := by
    intro heq
    rw [← heq, h] at hm
    exact nomatch hm
  exact ⟨m, (get_set_ne _ _ hne).trans hm, Nat.le_refl _, fun _ => rfl⟩

theorem Grows.transition {p : MachineTransitionParams}
    (h : storage.transition p uuid = (storage', .ok ())) : Grows storage storage' := by
  obtain ⟨m₀, hm₀, -, hload, -, hother⟩ := transition_ok h
  intro id m hm
  by_cases hid : p.id = id
  · subst hid
    have heq : m₀ = m := Option.some.inj (hm₀.symm.trans hm)
    subst heq
    refine ⟨_, hload, Nat.le_succ _, fun hrevision => ?_⟩
    exact absurd hrevision (Nat.succ_ne_self _)
  · exact ⟨m, (hother id hid).1.trans hm, Nat.le_refl _, fun _ => rfl⟩

/-! ## What the calls in flight know -/

section

variable (defs : Nat → StateMachineDefinition)

def DueBy (storage : InMemoryStateMachineStorage) (i : Nat) (id : String) (revision : Nat)
    (due : Int) : Prop :=
  AtVisit storage id revision fun m =>
    ∀ cfg, (defs i).timeoutOf m.current = some cfg → m.updatedAt + cfg.ms ≤ due

def NotedDue (storage : InMemoryStateMachineStorage) (notes : CallNotes) (i : Nat) :
    MachineRequest → Prop
  | .send p => ∀ timer, notes.pending = some timer →
    DueBy defs storage i p.id timer.revision timer.dueAtMs
  | .timeout _ _ => True

def LoadedDue (now : Int) (d : StateMachineDefinition) : MachineRequest → MachineState → Prop
  | .send _, _ => True
  | .timeout _ fromState, m => m.current = fromState ∧
    ∀ cfg, d.timeoutOf fromState = some cfg → m.updatedAt + cfg.ms ≤ now

def DecidedOn (d : StateMachineDefinition) (tx : TransitionContext) : MachineRequest → Prop
  | .send p => tx.machineId = p.id
  | .timeout id fromState => tx.machineId = id ∧ ∃ cfg, d.timeoutOf fromState = some cfg

def CallOnVisit (storage : InMemoryStateMachineStorage) (notes : CallNotes) (i : Nat) :
    MachineCall → Prop
  | .starting _ => True
  | .due id _ => DueBy defs storage i id notes.revision storage.now
  | .locked (.timeout id _) _ => DueBy defs storage i id notes.revision storage.now
  | .locked (.send p) _ => NotedDue defs storage notes i (.send p)
  | .loaded request _ m => NotedDue defs storage notes i request ∧
    AtVisit storage request.id m.revision (· = m) ∧ LoadedDue storage.now (defs i) request m
  | .decided request _ m tx false => NotedDue defs storage notes i request ∧
    AtVisit storage request.id m.revision (· = m) ∧ LoadedDue storage.now (defs i) request m ∧
    DecidedOn (defs i) tx request
  | .decided request _ m tx true => NotedDue defs storage notes i request ∧
    AtVisit storage request.id (m.revision + 1) (·.current = tx.to)
  | .ending request _ => NotedDue defs storage notes i request

end

variable {defs : Nat → StateMachineDefinition} {auto : Nat → Bool}
variable {notes notes' : CallNotes} {i : Nat}

theorem DueBy.later {due due' : Int} (h : DueBy defs storage i id revision due)
    (hle : due ≤ due') : DueBy defs storage i id revision due' :=
  AtVisit.imp h fun _ _ hdue cfg hcfg => (hdue cfg hcfg).trans hle

variable {request : MachineRequest}

theorem NotedDue.grows (h : NotedDue defs storage notes i request)
    (hgrows : Grows storage storage') (hpending : notes'.pending = notes.pending) :
    NotedDue defs storage' notes' i request := by
  cases request with
  | send p =>
    intro timer htimer
    exact AtVisit.grows (h timer (hpending ▸ htimer)) hgrows
  | timeout id fromState => trivial

variable {d : StateMachineDefinition} {m : MachineState}

theorem LoadedDue.later {now now' : Int} (h : LoadedDue now d request m) (hle : now ≤ now') :
    LoadedDue now' d request m := by
  cases request with
  | send p => trivial
  | timeout id fromState => exact ⟨h.1, fun cfg hcfg => (h.2 cfg hcfg).trans hle⟩

variable {call : MachineCall}

theorem CallOnVisit.grows (h : CallOnVisit defs storage notes i call)
    (hgrows : Grows storage storage') (hnow : storage.now ≤ storage'.now)
    (hpending : notes'.pending = notes.pending) (hrevision : notes'.revision = notes.revision) :
    CallOnVisit defs storage' notes' i call := by
  cases call with
  | starting p => trivial
  | due id fromState =>
    show DueBy defs storage' i id notes'.revision storage'.now
    rw [hrevision]
    exact DueBy.later (AtVisit.grows h hgrows) hnow
  | locked request lock =>
    cases request with
    | send p =>
      have hnoted : NotedDue defs storage notes i (.send p) := h
      exact hnoted.grows hgrows hpending
    | timeout id fromState =>
      show DueBy defs storage' i id notes'.revision storage'.now
      rw [hrevision]
      exact DueBy.later (AtVisit.grows h hgrows) hnow
  | loaded request lock m =>
    obtain ⟨hnoted, hvisit, hdue⟩ := h
    exact ⟨hnoted.grows hgrows hpending, hvisit.grows hgrows, hdue.later hnow⟩
  | decided request lock m tx committed =>
    cases committed with
    | false =>
      obtain ⟨hnoted, hvisit, hdue, hdecided⟩ := h
      exact ⟨hnoted.grows hgrows hpending, hvisit.grows hgrows, hdue.later hnow, hdecided⟩
    | true =>
      obtain ⟨hnoted, hvisit⟩ := h
      exact ⟨hnoted.grows hgrows hpending, hvisit.grows hgrows⟩
  | ending request lock => exact NotedDue.grows h hgrows hpending

theorem CallOnVisit.losing (h : CallOnVisit defs storage notes i call) :
    CallOnVisit defs storage notes i (losing call) := by
  cases call with
  | starting p => trivial
  | due id fromState | loaded request lock m | ending request lock => exact h
  | locked request lock => cases request <;> exact h
  | decided request lock m tx committed => cases committed <;> exact h

/-- The clock is not behind what is stored. -/
structure Clocked (storage : InMemoryStateMachineStorage) : Prop where
  updated : ∀ id m, storage.load id = some m → m.updatedAt ≤ storage.now
  events : ∀ id m, storage.load id = some m →
    ∀ e ∈ storage.eventsOf id, e.createdAt ≤ m.updatedAt

/-- Timers, starts and calls act on visits. -/
structure OnVisits (defs : Nat → StateMachineDefinition) (s : TimedMachines) : Prop where
  clocked : Clocked s.machines.storage
  timers : ∀ i id timer, (s.timers i).get id = some timer →
    DueBy defs s.machines.storage i id timer.revision timer.dueAtMs
  arming : ∀ c i id, (s.notes c).arming = some (i, id) →
    AtVisit s.machines.storage id 0 (·.current = (defs i).initialState)
  calls : ∀ c i call, s.machines.calls c = some (i, call) →
    CallOnVisit defs s.machines.storage (s.notes c) i call

variable {s s' : TimedMachines}

theorem OnVisits.step (h : OnVisits defs s) (c : Nat)
    (hclocked : Clocked s'.machines.storage) (hgrows : Grows s.machines.storage s'.machines.storage)
    (hnow : s.now ≤ s'.now)
    (htimers : ∀ i id timer, (s'.timers i).get id = some timer → (s.timers i).get id = some timer ∨
      DueBy defs s'.machines.storage i id timer.revision timer.dueAtMs)
    (harming : ∀ i id, (s'.notes c).arming = some (i, id) →
      (s.notes c).arming = some (i, id) ∨
        AtVisit s'.machines.storage id 0 (·.current = (defs i).initialState))
    (hcall : ∀ i call, s'.machines.calls c = some (i, call) →
      CallOnVisit defs s'.machines.storage (s'.notes c) i call)
    (hother : ∀ c', c' ≠ c → s'.machines.calls c' = s.machines.calls c' ∧
      (s'.notes c').pending = (s.notes c').pending ∧
      (s'.notes c').revision = (s.notes c').revision ∧
      (s'.notes c').arming = (s.notes c').arming) : OnVisits defs s' := by
  constructor
  · exact hclocked
  · intro i id timer htimer
    rcases htimers i id timer htimer with hold | hdue
    · exact (h.timers i id timer hold).grows hgrows
    · exact hdue
  · intro c' i id harm
    by_cases hc : c' = c
    · subst hc
      rcases harming i id harm with hold | hvisit
      · exact (h.arming c' i id hold).grows hgrows
      · exact hvisit
    · exact (h.arming c' i id ((hother c' hc).2.2.2 ▸ harm)).grows hgrows
  · intro c' i call hc'
    by_cases hc : c' = c
    · subst hc
      exact hcall i call hc'
    · obtain ⟨hcalls, hpending, hrevision, -⟩ := hother c' hc
      exact (h.calls c' i call (hcalls ▸ hc')).grows hgrows hnow hpending hrevision

theorem Clocked.of_same (h : Clocked storage) (hmachines : storage'.machines = storage.machines)
    (hevents : storage'.events = storage.events) (hnow : storage.now ≤ storage'.now) :
    Clocked storage' := by
  have hload : ∀ id, storage'.load id = storage.load id := fun id => congrArg (·.get id) hmachines
  have heventsOf : ∀ id, storage'.eventsOf id = storage.eventsOf id :=
    fun id => congrArg (fun events => (events.get id).getD []) hevents
  constructor
  · intro id m hm
    rw [hload] at hm
    exact (h.updated id m hm).trans hnow
  · intro id m hm e he
    rw [hload] at hm
    rw [heventsOf] at he
    exact h.events id m hm e he

theorem Clocked.create {p : MachineCreateParams} (h : Clocked storage) :
    Clocked (storage.create p) := by
  constructor
  · intro id m hm
    by_cases hid : p.id = id
    · subst hid
      have hrow : m = storage.newMachine p := by
        simpa [InMemoryStateMachineStorage.load, InMemoryStateMachineStorage.create] using hm.symm
      rw [hrow]
      exact Int.le_refl _
    · exact h.updated id m ((get_set_ne _ _ hid).symm.trans hm)
  · intro id m hm e he
    by_cases hid : p.id = id
    · subst hid
      simp [InMemoryStateMachineStorage.eventsOf, InMemoryStateMachineStorage.create] at he
    · have hevents : (storage.create p).eventsOf id = storage.eventsOf id := by
        simp only [InMemoryStateMachineStorage.eventsOf, InMemoryStateMachineStorage.create]
        rw [get_set_ne _ _ hid]
      rw [hevents] at he
      exact h.events id m ((get_set_ne _ _ hid).symm.trans hm) e he

theorem Clocked.transition {p : MachineTransitionParams} (h : Clocked storage)
    (hsaved : storage.transition p uuid = (storage', .ok ())) : Clocked storage' := by
  obtain ⟨m₀, hm₀, -, hload, hevents, hother⟩ := transition_ok hsaved
  obtain ⟨-, hnow, -⟩ := transition_revision hsaved hm₀
  constructor
  · intro id m hm
    rw [hnow]
    by_cases hid : p.id = id
    · subst hid
      rw [hload] at hm
      cases hm
      exact Int.le_refl _
    · exact h.updated id m ((hother id hid).1.symm.trans hm)
  · intro id m hm e he
    by_cases hid : p.id = id
    · subst hid
      rw [hload] at hm
      cases hm
      rw [hevents] at he
      rcases List.mem_append.mp he with hold | hnew
      · -- The events before are not younger than the machine was.
        exact (h.events p.id m₀ hm₀ e hold).trans (h.updated p.id m₀ hm₀)
      · rw [List.mem_singleton.mp hnew]
        exact Int.le_refl _
    · rw [(hother id hid).2] at he
      exact h.events id m ((hother id hid).1.symm.trans hm) e he

theorem OnVisits.step_quiet {calls : Nat → Option (Nat × MachineCall)}
    {timers : Nat → JsMap String MachineTimer} {notes : Nat → CallNotes}
    {evaluated : String → Bool} (h : OnVisits defs s) (c : Nat)
    (hparts : HasParts s' storage calls timers notes evaluated)
    (hmachines : storage.machines = s.machines.storage.machines)
    (hevents : storage.events = s.machines.storage.events) (hnow : s.now ≤ storage.now)
    (htimers : ∀ i id timer, (timers i).get id = some timer → (s.timers i).get id = some timer ∨
      DueBy defs s.machines.storage i id timer.revision timer.dueAtMs)
    (harming : (notes c).arming = none ∨ (notes c).arming = (s.notes c).arming)
    (hcall : ∀ i call, calls c = some (i, call) →
      CallOnVisit defs s.machines.storage (notes c) i call)
    (hother : ∀ c', c' ≠ c → calls c' = s.machines.calls c' ∧
      (notes c').pending = (s.notes c').pending ∧ (notes c').revision = (s.notes c').revision ∧
      (notes c').arming = (s.notes c').arming) :
    OnVisits defs s' := by
  obtain ⟨rfl, rfl, rfl, rfl, -⟩ := hparts
  have hgrows := Grows.of_machines hmachines
  refine h.step c (h.clocked.of_same hmachines hevents hnow) hgrows hnow ?_ ?_ ?_ hother
  · intro i id timer htimer
    rcases htimers i id timer htimer with hold | hdue
    · exact .inl hold
    · exact .inr (AtVisit.grows hdue hgrows)
  · intro i id harm
    rcases harming with hnone | hold
    · rw [hnone] at harm
      exact nomatch harm
    · exact .inl (hold ▸ harm)
  · intro i call hc
    exact (hcall i call hc).grows hgrows hnow rfl rfl

theorem OnVisits.step_call {calls : Nat → Option (Nat × MachineCall)} {notes : Nat → CallNotes}
    {evaluated : String → Bool} (h : OnVisits defs s) (c : Nat)
    (hrows : SameRows s.machines.storage storage)
    (hparts : HasParts s' storage calls s.timers notes evaluated)
    (harming : (notes c).arming = none ∨ (notes c).arming = (s.notes c).arming)
    (hcall : ∀ i call, calls c = some (i, call) →
      CallOnVisit defs s.machines.storage (notes c) i call)
    (hother : ∀ c', c' ≠ c → calls c' = s.machines.calls c' ∧ notes c' = s.notes c') :
    OnVisits defs s' := by
  refine h.step_quiet c hparts hrows.machines hrows.events (le_of_eq hrows.now.symm)
    (fun _ _ _ htimer => .inl htimer) harming hcall fun c' hc => ?_
  obtain ⟨hcalls, hnotes⟩ := hother c' hc
  exact ⟨hcalls, by rw [hnotes], by rw [hnotes], by rw [hnotes]⟩

theorem OnVisits.step_moved {evaluated : String → Bool} (h : OnVisits defs s) (c : Nat)
    (n : CallNotes)
    (hrows : SameRows s.machines.storage storage)
    (hparts : HasParts s' storage (Function.update s.machines.calls c (some (i, call))) s.timers
      (Function.update s.notes c n) evaluated)
    (harming : n.arming = none ∨ n.arming = (s.notes c).arming)
    (hcall : CallOnVisit defs s.machines.storage n i call) : OnVisits defs s' := by
  refine h.step_call c hrows hparts ?_ ?_ fun c' hc =>
    ⟨update_of_ne hc _ _, update_of_ne hc _ _⟩
  · rwa [update_self]
  · intro i' call' hc
    rw [update_self] at hc
    cases hc
    rwa [update_self]

theorem OnVisits.step_same {evaluated : String → Bool} (h : OnVisits defs s) (c : Nat)
    (hrows : SameRows s.machines.storage storage)
    (hparts : HasParts s' storage (Function.update s.machines.calls c (some (i, call))) s.timers
      s.notes evaluated)
    (hcall : CallOnVisit defs s.machines.storage (s.notes c) i call) : OnVisits defs s' :=
  h.step_moved c (s.notes c) hrows (by rwa [update_eq_self]) (.inr rfl) hcall

/-- The steps that keep timeouts to their visits: a firing loads its machine on the visit
    it is due for or in another state, and a machine is created only where none is stored. -/
def onVisit (s : TimedMachines) : TimedOp → Bool
  | .create c =>
    match s.machines.calls c with
    | some (_, .starting p) => !s.machines.storage.machines.has p.id
    | _ => true
  | .load c =>
    match s.machines.calls c with
    | some (_, .locked (.timeout id fromState) _) =>
      match s.machines.storage.load id with
      | none => true
      | some m => m.current != fromState || m.revision == (s.notes c).revision
    | _ => true
  | .advance _ | .start _ _ _ | .armInitial _ | .send _ _ _ _ | .noteTimeout _ | .fire _ _ _
  | .checkTimeouts _ _ _ | .fireDue _ _ | .decide _ _ _ | .commit _ _ _ | .heartbeat _
  | .settle _ | .cancelAllTimeouts _ => true

private theorem loadedDue_of_onVisit {fromState : String} {lock : HeldMachineLock}
    (h : OnVisits defs s)
    (hcall : s.machines.calls c = some (i, .locked (.timeout id fromState) lock))
    (hload : s.machines.storage.load id = some m) (hcurrent : m.current = fromState)
    (hvisit : onVisit s (.load c) = true) :
    LoadedDue s.now (defs i) (.timeout id fromState) m := by
  have hrevision : m.revision = (s.notes c).revision := by
    simpa [onVisit, hcall, hload, hcurrent] using hvisit
  obtain ⟨m', hm', -, hdue⟩ := h.calls c i _ hcall
  have heq : m' = m := Option.some.inj (hm'.symm.trans hload)
  subst heq
  exact ⟨hcurrent, fun cfg hcfg => hdue hrevision cfg (hcurrent ▸ hcfg)⟩

variable {tx : TransitionContext}

private theorem decidedOn {guard : Except String Bool} {action : ActionResult}
    (h : decideRequest d request m guard action = .ok tx) :
    DecidedOn d tx request := by
  have hid := (decideRequest_ok h).1
  cases request with
  | send p => exact hid
  | timeout id fromState =>
    refine ⟨hid, ?_⟩
    cases hcfg : d.timeoutOf fromState with
    | none => simp [decideRequest, decideTimeout, hcfg] at h
    | some cfg => exact ⟨cfg, rfl⟩

private theorem rewritten_decidedOn (h : DecidedOn d tx request) (rewrite : MiddlewareRewrite) :
    DecidedOn d (rewritten d request tx rewrite) request := by
  cases request with
  | send p =>
    unfold rewritten
    simp only
    split <;> exact h
  | timeout id fromState => exact h

theorem DecidedOn.machineId (h : DecidedOn d tx request) : tx.machineId = request.id := by
  cases request with
  | send p => exact h
  | timeout id fromState => exact h.1

theorem CallOnVisit.noted
    (h : CallOnVisit defs storage notes i call) (hended : endedRequest call = some request) :
    NotedDue defs storage notes i request := by
  cases call with
  | decided request' lock m tx committed =>
    cases hended
    cases committed with
    | false | true => exact h.1
  | ending request' lock =>
    cases hended
    exact h
  | starting _ | due _ _ | locked _ _ | loaded _ _ _ => exact nomatch hended

private theorem settle_due (h : OnVisits defs s) (hcall : s.machines.calls c = some (i, call))
    (hended : endedRequest call = some request) {j : Nat} {timer : MachineTimer}
    (htimer : ((settleTimeout defs auto s c i request call).timers j).get id = some timer) :
    (s.timers j).get id = some timer ∨
      DueBy defs s.machines.storage j id timer.revision timer.dueAtMs := by
  have hknown := h.calls c i call hcall
  rcases settleTimeout_get defs auto s htimer with
    hold | ⟨rfl, rfl, ⟨cfg, hcommitted, hcfg, hdue⟩ | ⟨p, noted, rfl, hpending, -, hrevision, hle⟩⟩
  · exact .inl hold
  · right
    -- The visit the call itself began.
    obtain ⟨lock, m, tx, rfl, hto, hrev⟩ : ∃ lock m tx, call = .decided request lock m tx true ∧
        timer.stateName = tx.to ∧ timer.revision = m.revision + 1 := by
      cases call with
      | decided request' lock m tx committed =>
        cases hended
        cases committed with
        | false => exact nomatch hcommitted
        | true =>
          simp only [committedTo, Option.some.injEq, Prod.mk.injEq] at hcommitted
          exact ⟨lock, m, tx, rfl, hcommitted.1.symm, hcommitted.2.symm⟩
      | starting _ | due _ _ | locked _ _ | loaded _ _ _ | ending _ _ => exact nomatch hcommitted
    rw [hrev]
    refine AtVisit.imp hknown.2 fun m' hm' hcurrent cfg' hcfg' => ?_
    have hsame : cfg' = cfg := by
      rw [hcurrent, ← hto, hcfg] at hcfg'
      exact (Option.some.inj hcfg').symm
    have hclock := h.clocked.updated request.id m' hm'
    rw [hdue, hsame]
    show m'.updatedAt + cfg.ms ≤ s.machines.storage.now + cfg.ms
    omega
  · right
    have hnoted := hknown.noted hended noted hpending
    rw [hrevision]
    exact hnoted.later hle

theorem OnVisits.next (h : OnVisits defs s) {o : TimedOp} (hstep : TimedStep defs auto s o s')
    (hvisit : onVisit s o = true) : OnVisits defs s' := by
  have hsame : SameRows s.machines.storage s.machines.storage := ⟨rfl, rfl, rfl⟩
  cases hstep with
  | idle hparts => exact h.step_call 0 hsame hparts (.inr rfl) (h.calls 0) fun _ _ => ⟨rfl, rfl⟩
  | advanced hparts =>
    rename_i ms
    have hlater : s.now ≤ s.now + ms := by omega
    exact h.step_quiet 0 hparts rfl rfl hlater (fun _ _ _ htimer => .inl htimer) (.inr rfl)
      (h.calls 0) fun _ _ => ⟨rfl, rfl, rfl, rfl⟩
  | dropped c notes hfree hnotes hparts =>
    refine h.step_call c hsame hparts ?_ ?_ fun c' hc => ⟨rfl, update_of_ne hc _ _⟩
    · rw [update_self]
      exact .inl hnotes
    · intro i call hcall
      rw [free_calls hfree] at hcall
      cases hcall
  | started hfree hparts =>
    exact h.step_moved _ _ hsame hparts (.inl rfl) trivial
  | created hcall hparts =>
    rename_i c i p
    have hnone : s.machines.storage.load p.id = none := by
      simpa [onVisit, hcall, has, InMemoryStateMachineStorage.load] using hvisit
    obtain ⟨hstorage, hcalls, htimers, hnotes, -⟩ := hparts
    refine h.step c ?_ ?_ ?_ ?_ ?_ ?_ ?_
    · rw [hstorage]
      exact h.clocked.create
    · rw [hstorage]
      exact .create hnone
    · show s.machines.storage.now ≤ s'.machines.storage.now
      rw [hstorage]
      exact Int.le_refl _
    · exact fun i id timer htimer => .inl (htimers ▸ htimer)
    · intro i' id harm
      rw [hnotes, update_self] at harm
      cases harm
      right
      rw [hstorage]
      exact ⟨_, get_set_self _ _ _, Nat.le_refl _, fun _ => rfl⟩
    · intro i' call hc
      rw [hcalls, update_self] at hc
      cases hc
    · intro c' hc
      rw [hcalls, hnotes, update_of_ne hc, update_of_ne hc]
      exact ⟨rfl, rfl, rfl, rfl⟩
  | armed harming hparts =>
    rename_i c i id
    refine h.step_quiet c hparts rfl rfl (Int.le_refl _) ?_ ?_ ?_ ?_
    · intro j id' timer htimer
      rcases schedule_get defs auto s htimer with hold | ⟨rfl, rfl, cfg, hcfg, rfl⟩
      · exact .inl hold
      · -- As long as nothing was committed the machine is in the initial state.
        right
        refine AtVisit.imp (h.arming c j id' harming) fun m hm hcurrent cfg' hcfg' => ?_
        have hcfgs : cfg' = cfg := by
          rw [hcurrent, hcfg] at hcfg'
          exact (Option.some.inj hcfg').symm
        have hclock := h.clocked.updated id' m hm
        rw [hcfgs]
        show m.updatedAt + cfg.ms ≤ s.machines.storage.now + cfg.ms
        omega
    · rw [update_self]
      exact .inl rfl
    · intro i' call hc
      rw [update_self]
      exact (h.calls c i' call hc).grows (.of_machines rfl) (Int.le_refl _) rfl rfl
    · intro c' hc
      rw [update_of_ne hc]
      exact ⟨rfl, rfl, rfl, rfl⟩
  | sendLocked hfree hlock hparts =>
    rename_i c i p uuid token storage
    have hrows := tryLock_rows s.machines.storage p.id lockDurationMs uuid
    rw [hlock] at hrows
    exact h.step_moved c _ hrows hparts (.inl rfl) fun timer htimer => by cases htimer
  | noted hcall hparts =>
    rename_i c i p lock
    refine h.step_call c hsame hparts ?_ ?_ fun c' hc => ⟨rfl, update_of_ne hc _ _⟩
    · rw [update_self]
      exact .inr rfl
    · intro i' call hc
      rw [hcall] at hc
      cases hc
      rw [update_self]
      exact fun timer htimer => h.timers i p.id timer htimer
  | fired hfree htimer hdue hparts =>
    rename_i c i id timer
    have hvisited := h.timers i id timer htimer
    refine h.step_quiet c hparts rfl rfl (Int.le_refl _) ?_ ?_ ?_ ?_
    · exact fun j id' timer' htimer' => .inl (cancel_get htimer')
    · rw [update_self]
      exact .inl rfl
    · intro i' call hc
      rw [update_self] at hc
      cases hc
      rw [update_self]
      exact hvisited.later hdue
    · intro c' hc
      rw [update_of_ne hc, update_of_ne hc]
      exact ⟨rfl, rfl, rfl, rfl⟩
  | dueFound hfree hload hcfg hdue hparts =>
    rename_i c i id m cfg
    refine h.step_moved c _ hsame hparts (.inl rfl) ?_
    refine ⟨m, hload, Nat.le_refl _, fun _ cfg' hcfg' => ?_⟩
    rw [hcfg] at hcfg'
    exact Option.some.inj hcfg' ▸ hdue
  | fireLocked hcall hlock hparts =>
    rename_i c i id fromState uuid token storage
    have hrows := tryLock_rows s.machines.storage id lockDurationMs uuid
    rw [hlock] at hrows
    have hdue := h.calls c i _ hcall
    exact h.step_same c hrows hparts hdue
  | fireRefused hcall hrefused hparts =>
    rename_i c i id fromState uuid
    have hmarked : ∀ c', ((s.markRefused id).notes c').pending = (s.notes c').pending ∧
        ((s.markRefused id).notes c').revision = (s.notes c').revision ∧
        ((s.markRefused id).notes c').arming = (s.notes c').arming := by
      intro c'
      simp only [markRefused]
      split <;> exact ⟨rfl, rfl, rfl⟩
    refine h.step_quiet c hparts rfl rfl (Int.le_refl _) (fun _ _ _ htimer => .inl htimer)
      (.inr (hmarked c).2.2) ?_ fun c' hc => ⟨update_of_ne hc _ _, hmarked c'⟩
    intro i' call hc
    rw [update_self] at hc
    cases hc
  | sendFailed hcall hfrom hparts =>
    rename_i c i p lock fromState
    have hnoted : NotedDue defs s.machines.storage (s.notes c) i (.send p) := h.calls c i _ hcall
    exact h.step_moved c _ hsame hparts (.inr rfl) hnoted
  | sendLoaded hcall hload hparts =>
    rename_i c i p lock m
    have hnoted : NotedDue defs s.machines.storage (s.notes c) i (.send p) := h.calls c i _ hcall
    exact h.step_moved c _ hsame hparts (.inr rfl)
      ⟨hnoted, ⟨m, hload, Nat.le_refl _, fun _ => rfl⟩, trivial⟩
  | fireBailed hcall hmoved hparts =>
    rename_i c i id fromState lock
    exact h.step_same c hsame hparts trivial
  | fireLoaded hcall hload hcurrent hparts =>
    rename_i c i id fromState lock m
    have hloaded := loadedDue_of_onVisit h hcall hload hcurrent hvisit
    exact h.step_same c hsame hparts ⟨trivial, ⟨m, hload, Nat.le_refl _, fun _ => rfl⟩, hloaded⟩
  | decideFailed hcall hparts =>
    rename_i c i request lock m guard action
    have hnoted := (h.calls c i _ hcall).1
    exact h.step_same c hsame hparts hnoted
  | decided hcall htx hparts =>
    rename_i c i request lock m tx guard action
    obtain ⟨hnoted, hvisited, hloaded⟩ := h.calls c i _ hcall
    exact h.step_same c hsame hparts ⟨hnoted, hvisited, hloaded, decidedOn htx⟩
  | committed hcall htx hsaved hparts =>
    rename_i c i request lock m tx tx' rewrite uuid storage
    obtain ⟨hnoted, -, -, hdecided⟩ := h.calls c i _ hcall
    have hid : tx'.machineId = request.id := by
      rw [htx]
      exact (rewritten_decidedOn hdecided rewrite).machineId
    obtain ⟨m₀, hm₀, -, hstored, -⟩ := transition_ok hsaved
    obtain ⟨hrevision, hnow, -⟩ := transition_revision hsaved hm₀
    have hgrows := Grows.transition hsaved
    obtain ⟨hstorage, hcalls, htimers, hnotes, -⟩ := hparts
    refine h.step c ?_ ?_ ?_ ?_ ?_ ?_ ?_
    · rw [hstorage]
      exact h.clocked.transition hsaved
    · rw [hstorage]
      exact hgrows
    · show s.machines.storage.now ≤ s'.machines.storage.now
      rw [hstorage, hnow]
    · exact fun i id timer htimer => .inl (htimers ▸ htimer)
    · intro i' id' harm
      exact .inl (hnotes ▸ harm)
    · intro i' call hc
      rw [hcalls, update_self] at hc
      cases hc
      rw [hstorage, hnotes]
      refine ⟨hnoted.grows hgrows rfl, ?_⟩
      rw [← hid]
      refine ⟨_, hstored, ?_, fun _ => rfl⟩
      show m.revision + 1 ≤ m₀.revision + 1
      rw [hrevision]
      exact Nat.le_refl _
    · intro c' hc
      rw [hcalls, hnotes, update_of_ne hc]
      exact ⟨rfl, rfl, rfl, rfl⟩
  | beat hcall hlock hopen hlost hparts =>
    rename_i c i id call call' lock
    have hrows := extendLock_rows s.machines.storage id lock.token lockDurationMs
    have hknown := h.calls c i call hcall
    apply h.step_same c hrows hparts
    rcases hlost with rfl | rfl
    · exact hknown
    · exact hknown.losing
  | settled hcall hended hlock hopen hparts =>
    rename_i c i request call lock
    have hrows := releaseLock_rows s.machines.storage request.id lock.token
    refine h.step_quiet c hparts hrows.machines hrows.events (le_of_eq hrows.now.symm) ?_ ?_ ?_ ?_
    · exact fun j id timer htimer => settle_due h hcall hended htimer
    · rw [update_self]
      exact .inr rfl
    · intro i' call' hc
      rw [update_self]
      exact (h.calls c i' call' hc).grows (.of_machines rfl) (Int.le_refl _) rfl rfl
    · intro c' hc
      rw [update_of_ne hc]
      exact ⟨rfl, rfl, rfl, rfl⟩
  | cancelled hparts =>
    rename_i i
    refine h.step_quiet 0 hparts rfl rfl (Int.le_refl _) ?_ (.inr rfl) (h.calls 0)
      fun _ _ => ⟨rfl, rfl, rfl, rfl⟩
    intro j id timer htimer
    by_cases hj : j = i
    · subst hj
      rw [update_self] at htimer
      cases htimer
    · rw [update_of_ne hj] at htimer
      exact .inl htimer

theorem onVisits_new (defs : Nat → StateMachineDefinition) (now : Int) :
    OnVisits defs (.new now) where
  clocked :=
    { updated := fun _ _ hm => nomatch hm
      events := fun _ _ hm => (nomatch hm) }
  timers := fun _ _ _ htimer => nomatch htimer
  arming := fun _ _ _ harm => nomatch harm
  calls := fun _ _ _ hcall => nomatch hcall

def lasted (storage : InMemoryStateMachineStorage) (id stateName : String) (ms : Int) : Bool :=
  match storage.load id with
  | none => false
  | some m => m.current == stateName && decide (m.updatedAt ≤ storage.now - ms) &&
    (storage.eventsOf id).all fun e => decide (e.createdAt ≤ storage.now - ms)

/-- A fired timeout has lasted its time in the visit it fires in. -/
def firesInTime (defs : Nat → StateMachineDefinition) (auto : Nat → Bool) (s : TimedMachines) :
    TimedOp → Bool
  | .commit c rewrite uuid =>
    match s.machines.calls c, (timedMachines defs auto).out s (.commit c rewrite uuid) with
    | some (i, .decided (.timeout id fromState) _ _ _ false), .committed _ =>
      match (defs i).timeoutOf fromState with
      | none => false
      | some cfg => lasted s.machines.storage id fromState cfg.ms
    | _, _ => true
  | .advance _ | .start _ _ _ | .create _ | .armInitial _ | .send _ _ _ _ | .noteTimeout _
  | .fire _ _ _ | .checkTimeouts _ _ _ | .fireDue _ _ | .load _ | .decide _ _ _ | .heartbeat _
  | .settle _ | .cancelAllTimeouts _ => true

private theorem OnVisits.commit {rewrite : MiddlewareRewrite} {answered : String}
    {fromState : String} {lock : HeldMachineLock} (h : OnVisits defs s)
    (hcall : s.machines.calls c = some (i, .decided (.timeout id fromState) lock m tx false))
    (hout : (timedMachines defs auto).out s (.commit c rewrite uuid) = .committed answered) :
    ∃ cfg, (defs i).timeoutOf fromState = some cfg ∧
      lasted s.machines.storage id fromState cfg.ms = true := by
  obtain ⟨-, hvisit, ⟨hcurrent, hdue⟩, hid, cfg, hcfg⟩ := h.calls c i _ hcall
  obtain ⟨m₀, hm₀, -, hsame⟩ := hvisit
  refine ⟨cfg, hcfg, ?_⟩
  -- The compare-and-set found the machine the firing had loaded.
  have hrevision : m₀.revision = m.revision := by
    simp only [Machine.out, timedMachines, TimedMachines.commit, StateMachineSystem.commit,
      hcall] at hout
    split at hout
    · cases hout
    · split at hout
      · cases hout
      · rename_i storage hsaved
        have hm : s.machines.storage.load tx.machineId = some m₀ := by
          rw [hid]
          exact hm₀
        exact (transition_revision hsaved hm).1
  have heq : m₀ = m := hsame hrevision
  subst heq
  have hupdated : m₀.updatedAt + cfg.ms ≤ s.machines.storage.now := hdue cfg hcfg
  have hevents := h.clocked.events id m₀ hm₀
  have hload : s.machines.storage.load id = some m₀ := hm₀
  simp only [lasted, hload, Bool.and_eq_true, beq_iff_eq, decide_eq_true_eq, List.all_eq_true]
  refine ⟨⟨hcurrent, by omega⟩, fun e he => ?_⟩
  have hcreated := hevents e he
  omega

/-- In a run that keeps timeouts to their visits, a firing commits only when its state has
    lasted for the timeout. -/
theorem timeouts_fire_in_time (defs : Nat → StateMachineDefinition) (auto : Nat → Bool) (now : Int)
    (ops : List TimedOp)
    (h : (timedMachines defs auto).Always (fun s o => onVisit s o = true) (.new now) ops) :
    (timedMachines defs auto).Always (fun s o => firesInTime defs auto s o = true)
      (.new now) ops := by
  refine Machine.always_of_invariant_always (I := OnVisits defs) ?_ ?_ (onVisits_new defs now) h
  · exact fun s o hvisit hs => hs.next (step_timed defs auto s o) hvisit
  · intro s o _ hs
    cases o with
    | commit c rewrite uuid =>
      simp only [firesInTime]
      split
      · rename_i i id fromState lock m tx answered hcall hout
        obtain ⟨cfg, hcfg, hlasted⟩ := hs.commit hcall hout
        rw [hcfg]
        exact hlasted
      · rfl
    | advance _ | start _ _ _ | create _ | armInitial _ | send _ _ _ _ | noteTimeout _
    | fire _ _ _ | checkTimeouts _ _ _ | fireDue _ _ | load _ | decide _ _ _ | heartbeat _
    | settle _ | cancelAllTimeouts _ => rfl

/-- A machine that times out of `open` after 100 ms, and may also stay there. -/
def doorDefinition : StateMachineDefinition where
  name := "door"
  states := (empty.set "open" { timeout := some { ms := 100, target := "closed" } }).set
    "closed" {}
  transitions := [{ event := "hold", «from» := ["open"], «to» := some "open" }]
  initialState := "open"

def doorStarted : List TimedOp :=
  [.start 1 0 { id := "d", context := .null }, .create 1, .armInitial 1]

def doorFires (c : Nat) : List TimedOp :=
  [.fire c 0 "d", .fireDue c "fire", .load c, .decide c (.ok true) (.returned .null),
    .commit c { «to» := "", context := .null, metadata := .undefined } "fired"]

/-- Instance 1 sends `hold`. -/
def doorHeld (c : Nat) : List TimedOp :=
  [.send c 1 { id := "d", event := "hold" } "hold", .noteTimeout c, .load c,
    .decide c (.ok true) (.returned .null),
    .commit c { «to» := "", context := .null, metadata := .undefined } "held", .settle c]

theorem timeouts_fire_in_time_door :
    (timedMachines (fun _ => doorDefinition) fun _ => true).Always
      (fun s o => firesInTime (fun _ => doorDefinition) (fun _ => true) s o = true) (.new 0)
      (doorStarted ++ [.advance 100] ++ doorFires 2) ∧
    (((timedMachines (fun _ => doorDefinition) fun _ => true).run (.new 0)
      (doorStarted ++ [.advance 100] ++ doorFires 2)).machines.storage.load "d").map (·.current) =
        some "closed" :=
  ⟨timeouts_fire_in_time _ _ 0 _ (by decide +kernel), by decide +kernel⟩

/-- The timer of instance 0 does not see that instance 1 held the door open at 60 ms: it
    closes the door at 100 ms. -/
theorem timeouts_counterexample :
    ¬ ∀ (defs : Nat → StateMachineDefinition) (auto : Nat → Bool) (now : Int) (ops : List TimedOp),
      (timedMachines defs auto).Always (fun s o => firesInTime defs auto s o = true) (.new now)
        ops := by
  intro h
  have hrun := h (fun _ => doorDefinition) (fun _ => true) 0
    (doorStarted ++ [.advance 60] ++ doorHeld 2 ++ [.advance 40] ++ doorFires 3)
  revert hrun
  decide +kernel

end Promin.Durable
