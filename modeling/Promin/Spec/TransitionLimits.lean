import Promin.Spec.StateMachineChain

/-!
# Limits and middleware of state machines

A send checks the machine it loads against `maxTransitions` and saves what
middleware left in its transition when it called `next`.
-/

namespace Promin.Durable

open StateMachineSystem

def atNext (d : StateMachineDefinition) (tx : TransitionContext) (rewrite : MiddlewareRewrite) :
    TransitionContext :=
  if d.hasMiddleware then
    { tx with «to» := rewrite.to, context := rewrite.context, metadata := rewrite.metadata }
  else tx

/-- The steps of firings that do what a send would: none loads its machine at the limit, and
    middleware leaves their transitions as they are. -/
def likeSend (d : StateMachineDefinition) (s : StateMachineSystem) : StateMachineOp → Bool
  | .load c =>
    match s.calls c with
    | some (_, .locked (.timeout id fromState) _) =>
      match s.storage.load id, d.limits.maxTransitions with
      | some m, some limit => m.current != fromState || decide (m.revision < limit)
      | _, _ => true
    | _ => true
  | .commit c rewrite _ =>
    match s.calls c with
    | some (_, .decided (.timeout _ _) _ _ tx false) => atNext d tx rewrite == tx
    | _ => true
  | .advance _ | .start _ _ _ | .create _ | .send _ _ _ _ | .fireTimeout _ _ _ _ _
  | .checkTimeouts _ _ _ | .fireDue _ _ | .decide _ _ _ | .heartbeat _ | .releaseLock _ => true

variable {d : StateMachineDefinition} {s : StateMachineSystem}

/-! ## The limit -/

def BelowLimit (limit : Nat) : MachineCall → Prop
  | .loaded _ _ m => m.revision < limit
  | .decided _ _ m _ false => m.revision < limit
  | .decided _ _ _ _ true => True
  | .starting _ | .due _ _ | .locked _ _ | .ending _ _ => True

structure WithinLimit (limit : Nat) (s : StateMachineSystem) : Prop where
  stored : ∀ id m, s.storage.load id = some m → m.revision ≤ limit
  calls : ∀ c i call, s.calls c = some (i, call) → BelowLimit limit call

variable {c limit : Nat} {m : MachineState}

theorem checkMachine_below {id : String}
    (hlimit : d.limits.maxTransitions = some limit) (hpos : 0 < limit)
    (h : d.checkMachine id m = .ok ()) : m.revision < limit := by
  unfold StateMachineDefinition.checkMachine at h
  simp only [hlimit, Option.getD_some] at h
  split at h
  · split at h
    · exact nomatch h
    · split at h
      · exact nomatch h
      · omega
  · split at h
    · exact nomatch h
    · omega

private theorem loaded_below {i : Nat} {request : MachineRequest} {lock : HeldMachineLock}
    (hlimit : d.limits.maxTransitions = some limit) (hpos : 0 < limit)
    (hcall : s.calls c = some (i, .locked request lock))
    (hload : s.storage.load request.id = some m) (hchecked : LoadChecked d m request)
    (hlike : likeSend d s (.load c) = true) : m.revision < limit := by
  cases request with
  | send p => exact checkMachine_below hlimit hpos hchecked
  | timeout id fromState =>
    have hload' : s.storage.load id = some m := hload
    have hcurrent : m.current = fromState := hchecked
    simpa [likeSend, hcall, hload', hlimit, hcurrent] using hlike

private theorem WithinLimit.calls_next {o : StateMachineOp}
    (h : WithinLimit limit s) (hlimit : d.limits.maxTransitions = some limit) (hpos : 0 < limit)
    (hlike : likeSend d s o = true) :
    ∀ c i call, ((stateMachineSystem fun _ => d).next s o).calls c = some (i, call) →
      BelowLimit limit call := by
  intro c i call hc
  cases call_moved (fun _ => d) s o hc with
  | kept hcall => exact h.calls c i call hcall
  | begun hbegins => cases call <;> trivial
  | ended => trivial
  | loaded hcall hload hchecked => exact loaded_below hlimit hpos hcall hload hchecked hlike
  | decided hcall htx =>
    have hloaded := h.calls c i _ hcall
    exact hloaded
  | committed hcall => trivial
  | @losing _ _ _ call' hcall =>
    have hbefore := h.calls c i call' hcall
    cases call' with
    | decided request lock m tx committed => cases committed <;> exact hbefore
    | starting _ | due _ _ | locked _ _ | loaded _ _ _ | ending _ _ => exact hbefore

theorem WithinLimit.next {o : StateMachineOp} (h : WithinLimit limit s)
    (hlimit : d.limits.maxTransitions = some limit) (hpos : 0 < limit)
    (hlike : likeSend d s o = true) :
    WithinLimit limit ((stateMachineSystem fun _ => d).next s o) := by
  refine ⟨?_, h.calls_next hlimit hpos hlike⟩
  intro id m hm
  cases step_cases (fun _ => d) s o with
  | inl hquiet =>
    have hmachines : ((stateMachineSystem fun _ => d).next s o).storage.machines =
        s.storage.machines := hquiet.1.1
    exact h.stored id m ((congrArg (·.get id) hmachines).symm.trans hm)
  | inr hwrites =>
    cases hwrites with
    | @create c i p hcall =>
      simp only [Machine.next, stateMachineSystem, StateMachineSystem.create, hcall] at hm
      by_cases hid : p.id = id
      · subst hid
        have hrow : m = s.storage.newMachine (createParams d p) := by
          simpa [InMemoryStateMachineStorage.load, InMemoryStateMachineStorage.create,
            createParams] using hm.symm
        rw [hrow]
        exact Nat.zero_le _
      · exact h.stored id m ((JsMap.get_set_ne _ _ hid).symm.trans hm)
    | @commit c i request lock m₁ tx rewrite uuid storage hcall hsaved hnext =>
      have hs' : ((stateMachineSystem fun _ => d).next s (.commit c rewrite uuid)).storage =
          storage := by
        rw [Machine.next, hnext]
        rfl
      rw [hs'] at hm
      obtain ⟨m₀, hm₀, -, hload, -, hother⟩ := transition_ok hsaved
      have hrevision := (transition_revision hsaved hm₀).1
      by_cases hid : (transitionParams m₁ (rewritten d request tx rewrite)).id = id
      · subst hid
        rw [hload] at hm
        cases hm
        -- The machine the call had loaded was below the limit, and is the one it moved.
        have hbelow : m₁.revision < limit := h.calls c i _ hcall
        show m₀.revision + 1 ≤ limit
        rw [hrevision]
        exact hbelow
      · exact h.stored id m ((hother id hid).1.symm.trans hm)

/-! ## What middleware left -/

end Promin.Durable
