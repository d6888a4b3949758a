import Promin.Shared.PollLoop

/-!
# Wakes and stops of the poll loop

Only the run whose promise the loop holds is not over, and `sleepResolve` is set
exactly while that run sleeps.
-/

namespace Promin.Shared

open PollLoop Machine JsMap

variable {config : PollLoopConfig} {l : PollLoop}

def PollLoop.phase (l : PollLoop) (r : Nat) : Option LoopPhase := (l.runs.get r).map (·.phase)

variable {r : Nat} {p : LoopPhase} {l' : PollLoop}

theorem phase_eq_some :
    l.phase r = some p ↔ ∃ failures, l.runs.get r = some ⟨failures, p⟩ := by
  unfold PollLoop.phase
  rw [Option.map_eq_some_iff]
  constructor
  · rintro ⟨⟨failures, _⟩, hget, rfl⟩
    exact ⟨failures, hget⟩
  · rintro ⟨failures, hget⟩
    exact ⟨_, hget, rfl⟩

/-! ## What a step does -/

def Iterating : LoopPhase → Prop
  | .ticking _ | .reporting _ => True
  | .sleeping | .woken | .over => False

/-- A run goes on from a phase in which it neither sleeps nor is over. -/
inductive RunMove (l : PollLoop) (r : Nat) : LoopPhase → PollLoop → Prop
  | ends {p : LoopPhase} (failures : Nat) : RunMove l r p (l.setRun r failures .over)
  | ticks {p : LoopPhase} (failures delayMs : Nat) (hstopping : l.stopping = false) :
    RunMove l r p { l.setRun r failures (.ticking delayMs) with ticks := l.ticks + 1 }
  | reports (delayMs failures delayMs' : Nat) :
    RunMove l r (.ticking delayMs) (l.setRun r failures (.reporting delayMs'))
  | hurries {p : LoopPhase} (failures : Nat) (hp : Iterating p) (hwake : l.wakeRequested = true) :
    RunMove l r p { l.setRun r failures .woken with wakeRequested := false }
  | sleeps {p : LoopPhase} (failures ms : Nat) (hp : Iterating p)
    (hwake : l.wakeRequested = false) :
    RunMove l r p
      { l.setRun r failures .sleeping with
        sleepResolve := some r
        sleepTimer := some l.nextTimer
        timers := l.timers.set l.nextTimer (l.now + ms)
        nextTimer := l.nextTimer + 1 }

structure SameLoop (l l' : PollLoop) : Prop where
  runs : l'.runs = l.runs
  loopPromise : l'.loopPromise = l.loopPromise
  sleepResolve : l'.sleepResolve = l.sleepResolve
  settled : l'.settled = l.settled
  nextRun : l'.nextRun = l.nextRun
  ticks : l'.ticks = l.ticks

/-- What one step does to the loop. -/
inductive LoopStep (config : PollLoopConfig) (l : PollLoop) : PollLoopOp → PollLoop → Prop
  | quiet {o : PollLoopOp} {l' : PollLoop} (hsame : SameLoop l l')
    (hwake : l.wakeRequested = true → l'.wakeRequested = true)
    (hstopping : l'.stopping = l.stopping) : LoopStep config l o l'
  | cancels {o : PollLoopOp} {l' : PollLoop} (hsame : SameLoop l.cancelSleep l')
    (hwake : l'.wakeRequested = l.wakeRequested)
    (hstopping : l.stopping = true → l'.stopping = true) : LoopStep config l o l'
  | moves {o : PollLoopOp} {l' : PollLoop} (r : Nat) (p : LoopPhase)
    (hphase : l.phase r = some p) (hlive : p ≠ .over) (hawake : p ≠ .sleeping)
    (hmove : RunMove l r p l') : LoopStep config l o l'
  | begins (draw : Nat) (hnone : l.loopPromise = none) :
    LoopStep config l (.start draw) (l.start config draw)
  | settles {o : PollLoopOp} (r : Nat) (hphase : l.phase r = some .over) :
    LoopStep config l o
      { l with
        settled := r :: l.settled
        loopPromise := if l.loopPromise = some r then none else l.loopPromise }

theorem SameLoop.refl (l : PollLoop) : SameLoop l l := ⟨rfl, rfl, rfl, rfl, rfl, rfl⟩

private theorem LoopStep.ignored (o : PollLoopOp) : LoopStep config l o l :=
  .quiet (SameLoop.refl l) (fun hwake => hwake) rfl

private theorem loopHead_moves (r failures draw : Nat) :
    RunMove l r p (l.loopHead config r failures draw) := by
  unfold loopHead
  split
  · exact .ends failures
  · rename_i hstopping
    exact .ticks failures _ (by simpa using hstopping)

private theorem afterTick_moves (r failures delayMs : Nat) (hp : Iterating p) :
    RunMove l r p (l.afterTick r failures delayMs) := by
  unfold afterTick
  split
  · exact .ends failures
  · unfold PollLoop.sleep
    split
    · rename_i hwake
      exact .hurries failures hp hwake
    · rename_i hwake
      exact .sleeps failures delayMs hp (by simpa using hwake)

/-- What a step can do to the loop and its wakes. -/
theorem step_loop (config : PollLoopConfig) (l : PollLoop) (o : PollLoopOp) :
    LoopStep config l o ((pollLoop config).next l o) := by
  cases o with
  | start draw =>
    cases hpromise : l.loopPromise with
    | none => exact .begins draw hpromise
    | some r =>
      have hsame : (pollLoop config).next l (.start draw) = l := by
        simp [Machine.next, pollLoop, PollLoop.start, hpromise]
      rw [hsame]
      exact .ignored _
  | stop call =>
    simp only [Machine.next, pollLoop, PollLoop.stop]
    split
    · exact .ignored _
    · exact .cancels ⟨rfl, rfl, rfl, rfl, rfl, rfl⟩ rfl fun _ => rfl
  | wake =>
    simp only [Machine.next, pollLoop, PollLoop.wake]
    split
    · exact .cancels (SameLoop.refl _) rfl fun hstopping => hstopping
    · exact .quiet ⟨rfl, rfl, rfl, rfl, rfl, rfl⟩ (fun _ => rfl) rfl
  | setIntervalMs ms | advance ms =>
    exact .quiet ⟨rfl, rfl, rfl, rfl, rfl, rfl⟩ (fun hwake => hwake) rfl
  | stopReturns call =>
    simp only [Machine.next, pollLoop, PollLoop.stopReturns]
    split
    · exact .ignored _
    · split
      · exact .quiet ⟨rfl, rfl, rfl, rfl, rfl, rfl⟩ (fun hwake => hwake) rfl
      · exact .ignored _
  | tickEnds r result draw =>
    simp only [Machine.next, pollLoop, PollLoop.tickEnds]
    split
    · rename_i failures delayMs hget
      have hphase := phase_eq_some.mpr ⟨failures, hget⟩
      split
      · exact .moves r _ hphase (by simp) (by simp) (.ends 0)
      · exact .moves r _ hphase (by simp) (by simp) (loopHead_moves r 0 draw)
      · exact .moves r _ hphase (by simp) (by simp) (afterTick_moves r 0 delayMs trivial)
    · exact .ignored _
  | tickThrows r =>
    simp only [Machine.next, pollLoop, PollLoop.tickThrows]
    split
    · rename_i failures delayMs hget
      exact .moves r _ (phase_eq_some.mpr ⟨failures, hget⟩) (by simp) (by simp) (.reports _ _ _)
    · exact .ignored _
  | reported r =>
    simp only [Machine.next, pollLoop, PollLoop.reported]
    split
    · rename_i failures delayMs hget
      exact .moves r _ (phase_eq_some.mpr ⟨failures, hget⟩) (by simp) (by simp)
        (afterTick_moves r failures delayMs trivial)
    · exact .ignored _
  | resume r draw =>
    simp only [Machine.next, pollLoop, PollLoop.resume]
    split
    · rename_i failures hget
      exact .moves r _ (phase_eq_some.mpr ⟨failures, hget⟩) (by simp) (by simp)
        (loopHead_moves r failures draw)
    · exact .ignored _
  | settle r =>
    simp only [Machine.next, pollLoop, PollLoop.settle]
    split
    · rename_i failures hget
      split
      · exact .ignored _
      · exact .settles r (phase_eq_some.mpr ⟨failures, hget⟩)
    · exact .ignored _
  | fire t =>
    simp only [Machine.next, pollLoop, PollLoop.fire]
    split
    · exact .ignored _
    · split
      · exact .cancels ⟨rfl, rfl, rfl, rfl, rfl, rfl⟩ rfl fun hstopping => hstopping
      · exact .ignored _

/-! ## One loop -/

structure OneLoop (l : PollLoop) : Prop where
  live : ∀ r p, l.phase r = some p → p ≠ .over → l.loopPromise = some r
  sleeper : ∀ r, l.sleepResolve = some r ↔ l.phase r = some .sleeping
  settled : ∀ r ∈ l.settled, l.phase r = some .over
  known : ∀ r, l.loopPromise = some r → (l.phase r).isSome
  fresh : ∀ r, (l.phase r).isSome → r < l.nextRun

theorem phase_setRun (r failures : Nat) (p : LoopPhase) (r' : Nat) :
    (l.setRun r failures p).phase r' = if r = r' then some p else l.phase r' := by
  simp only [PollLoop.phase, setRun, get_set]
  split <;> rfl

theorem phase_cancelSleep (r : Nat) :
    l.cancelSleep.phase r =
      if l.sleepResolve = some r ∧ l.phase r = some .sleeping then some .woken else l.phase r := by
  unfold PollLoop.phase cancelSleep
  cases hsleep : l.sleepResolve with
  | none => simp
  | some r' =>
    simp only [get_mapValues]
    cases hget : l.runs.get r with
    | none => simp
    | some run =>
      by_cases hboth : r = r' ∧ run.phase = .sleeping
      · simp [hboth.1, hboth.2]
      · rw [not_and] at hboth
        by_cases hr : r = r'
        · simp [hr, hboth hr]
        · simp [hr, Ne.symm hr]

private theorem phase_of_runs (h : l'.runs = l.runs) (r : Nat) :
    l'.phase r = l.phase r := by
  unfold PollLoop.phase
  rw [h]

private theorem OneLoop.same (h : OneLoop l) (hsame : SameLoop l l') :
    OneLoop l' := by
  have hphase := phase_of_runs hsame.runs
  constructor
  · intro r p hp
    rw [hphase] at hp
    rw [hsame.loopPromise]
    exact h.live r p hp
  · intro r
    rw [hphase, hsame.sleepResolve]
    exact h.sleeper r
  · intro r hr
    rw [hsame.settled] at hr
    rw [hphase]
    exact h.settled r hr
  · intro r hr
    rw [hsame.loopPromise] at hr
    rw [hphase]
    exact h.known r hr
  · intro r hr
    rw [hphase] at hr
    rw [hsame.nextRun]
    exact h.fresh r hr

private theorem OneLoop.cancelSleep (h : OneLoop l) : OneLoop l.cancelSleep := by
  have hsome : ∀ r, (l.cancelSleep.phase r).isSome = (l.phase r).isSome := by
    intro r
    rw [phase_cancelSleep]
    split
    · rename_i hboth
      rw [hboth.2]
      rfl
    · rfl
  constructor
  · intro r p hp hover
    rw [phase_cancelSleep] at hp
    split at hp
    · rename_i hboth
      exact h.live r _ hboth.2 nofun
    · exact h.live r p hp hover
  · intro r
    -- Whoever slept is woken.
    constructor
    · exact nofun
    · intro hp
      rw [phase_cancelSleep] at hp
      split at hp
      · exact nomatch hp
      · rename_i hnot
        exact absurd ⟨(h.sleeper r).mpr hp, hp⟩ hnot
  · intro r hr
    rw [phase_cancelSleep, if_neg]
    · exact h.settled r hr
    · rintro ⟨-, hsleeping⟩
      rw [h.settled r hr] at hsleeping
      exact nomatch hsleeping
  · intro r hr
    rw [hsome]
    exact h.known r hr
  · intro r hr
    rw [hsome] at hr
    exact h.fresh r hr

private theorem OneLoop.setRun (h : OneLoop l) {before : LoopPhase}
    (hphase : l.phase r = some before) (hlive : before ≠ .over) (hawake : before ≠ .sleeping)
    (failures : Nat) {after : LoopPhase}
    (hruns : l'.runs = (l.setRun r failures after).runs) (hpromise : l'.loopPromise = l.loopPromise)
    (hsettled : l'.settled = l.settled) (hnext : l'.nextRun = l.nextRun)
    (hsleep : l'.sleepResolve = if after = .sleeping then some r else l.sleepResolve) :
    OneLoop l' := by
  have hphases : ∀ r', l'.phase r' = if r = r' then some after else l.phase r' := by
    intro r'
    rw [phase_of_runs hruns, phase_setRun]
  have hmine : l.loopPromise = some r := h.live r before hphase hlive
  constructor
  · intro r' p hp hover
    rw [hphases] at hp
    rw [hpromise]
    split at hp
    · rename_i heq
      rw [← heq]
      exact hmine
    · exact h.live r' p hp hover
  · intro r'
    rw [hsleep, hphases]
    by_cases hr : r = r'
    · subst hr
      rw [if_pos rfl]
      by_cases hafter : after = .sleeping
      · rw [if_pos hafter, hafter]
        exact ⟨fun _ => rfl, fun _ => rfl⟩
      · rw [if_neg hafter, h.sleeper, hphase]
        constructor
        · intro heq
          exact absurd (Option.some.inj heq) hawake
        · intro heq
          exact absurd (Option.some.inj heq) hafter
    · rw [if_neg hr]
      by_cases hafter : after = .sleeping
      · -- No other run sleeps, since it would be the loop's.
        rw [if_pos hafter]
        constructor
        · intro heq
          exact absurd (Option.some.inj heq) hr
        · intro hp
          have hother := h.live r' _ hp nofun
          rw [hmine] at hother
          exact absurd (Option.some.inj hother) hr
      · rw [if_neg hafter]
        exact h.sleeper r'
  · intro r' hr'
    rw [hsettled] at hr'
    have hover := h.settled r' hr'
    rw [hphases, if_neg]
    · exact hover
    · rintro rfl
      rw [hphase] at hover
      exact hlive (Option.some.inj hover)
  · intro r' hr'
    rw [hpromise] at hr'
    rw [hphases]
    split
    · rfl
    · exact h.known r' hr'
  · intro r' hr'
    rw [hnext]
    rw [hphases] at hr'
    split at hr'
    · rename_i heq
      rw [← heq]
      exact h.fresh r (by rw [hphase]; rfl)
    · exact h.fresh r' hr'

private theorem RunMove.oneLoop (hmove : RunMove l r p l')
    (h : OneLoop l) (hphase : l.phase r = some p) (hlive : p ≠ .over) (hawake : p ≠ .sleeping) :
    OneLoop l' := by
  cases hmove with
  | ends failures | ticks failures delayMs | hurries failures | sleeps failures
  | reports delayMs failures delayMs' =>
    exact h.setRun hphase hlive hawake failures rfl rfl rfl rfl rfl

private theorem start_begins (config : PollLoopConfig) (hnone : l.loopPromise = none) (draw : Nat) :
    let l' := l.start config draw
    (∃ delayMs, ∀ r, l'.phase r = if l.nextRun = r then some (.ticking delayMs) else l.phase r) ∧
    l'.loopPromise = some l.nextRun ∧ l'.sleepResolve = l.sleepResolve ∧ l'.settled = l.settled ∧
    l'.nextRun = l.nextRun + 1 ∧ l'.ticks = l.ticks + 1 ∧ l'.stopping = false := by
  let fresh : PollLoop := { l with stopping := false, wakeRequested := false }
  have heq : l.start config draw =
      { fresh.setRun l.nextRun 0 (.ticking (idleDelayMs config fresh draw)) with
        ticks := l.ticks + 1
        loopPromise := some l.nextRun
        nextRun := l.nextRun + 1 } := by
    unfold PollLoop.start
    split
    · rename_i hsome
      rw [hnone] at hsome
      exact nomatch hsome
    · rfl
  rw [heq]
  exact ⟨⟨_, fun r => phase_setRun (l := fresh) _ _ _ r⟩, rfl, rfl, rfl, rfl, rfl, rfl⟩

private theorem OneLoop.begins (h : OneLoop l) (hnone : l.loopPromise = none) (draw : Nat) :
    OneLoop (l.start config draw) := by
  obtain ⟨⟨delayMs, hphases⟩, hpromise, hsleep, hsettled, hnext, -, -⟩ :=
    start_begins config hnone draw
  have hover : ∀ r p, l.phase r = some p → p = .over := by
    intro r p hp
    by_contra hne
    have hlive := h.live r p hp hne
    rw [hnone] at hlive
    exact nomatch hlive
  have hnew : l.phase l.nextRun = none := by
    cases hp : l.phase l.nextRun with
    | none => rfl
    | some p => exact absurd (h.fresh l.nextRun (by rw [hp]; rfl)) (Nat.lt_irrefl _)
  constructor
  · intro r p hp hne
    rw [hphases] at hp
    rw [hpromise]
    split at hp
    · rename_i heq
      rw [heq]
    · exact absurd (hover r p hp) hne
  · intro r
    rw [hsleep, hphases]
    split
    · rename_i heq
      rw [h.sleeper, ← heq, hnew]
      exact ⟨nofun, nofun⟩
    · exact h.sleeper r
  · intro r hr
    rw [hsettled] at hr
    have hr' := h.settled r hr
    rw [hphases, if_neg]
    · exact hr'
    · rintro rfl
      rw [hnew] at hr'
      exact nomatch hr'
  · intro r hr
    rw [hpromise] at hr
    rw [hphases, if_pos (Option.some.inj hr)]
    rfl
  · intro r hr
    rw [hphases] at hr
    rw [hnext]
    split at hr
    · omega
    · exact Nat.lt_succ_of_lt (h.fresh r hr)

theorem OneLoop.next (h : OneLoop l) (o : PollLoopOp) :
    OneLoop ((pollLoop config).next l o) := by
  have hstep := step_loop config l o
  generalize (pollLoop config).next l o = l' at hstep ⊢
  cases hstep with
  | quiet hsame => exact h.same hsame
  | cancels hsame => exact h.cancelSleep.same hsame
  | moves r p hphase hlive hawake hmove => exact hmove.oneLoop h hphase hlive hawake
  | begins draw hnone => exact h.begins hnone draw
  | settles r hphase =>
    constructor
    · intro r' p hp hne
      have hlive := h.live r' p hp hne
      show (if l.loopPromise = some r then none else l.loopPromise) = some r'
      rw [if_neg, hlive]
      rintro hmine
      rw [hmine] at hlive
      obtain rfl := Option.some.inj hlive
      have hover : some p = some LoopPhase.over := hp.symm.trans hphase
      exact hne (Option.some.inj hover)
    · exact h.sleeper
    · intro r' hr'
      rcases List.mem_cons.mp hr' with rfl | hr'
      · exact hphase
      · exact h.settled r' hr'
    · intro r' hr'
      have hpromise : (if l.loopPromise = some r then none else l.loopPromise) = some r' := hr'
      split at hpromise
      · exact nomatch hpromise
      · exact h.known r' hpromise
    · exact h.fresh

/-- The run goes on without a wait. -/
def Hurried (l : PollLoop) (r : Nat) : Prop :=
  match l.phase r with
  | some (.ticking _) | some (.reporting _) => l.wakeRequested = true
  | some .woken => True
  | some .sleeping | some .over | none => False

/-- How many moves a hurried run makes at most until its next tick. -/
def movesToTick : Option LoopPhase → Nat
  | some (.ticking _) => 3
  | some (.reporting _) => 2
  | some .woken => 1
  | some .sleeping | some .over | none => 0

/-- The step takes the run to another phase. -/
def moves (config : PollLoopConfig) (r : Nat) (l : PollLoop) (o : PollLoopOp) : Bool :=
  ((pollLoop config).next l o).phase r != l.phase r

section

variable (h : OneLoop l)
include h

end

private theorem Hurried.moves (h : Hurried l r) :
    l.phase r ≠ some .sleeping ∧ 1 ≤ movesToTick (l.phase r) := by
  unfold Hurried at h
  split at h
  · rename_i hp
    rw [hp]
    exact ⟨nofun, Nat.succ_pos _⟩
  · rename_i hp
    rw [hp]
    exact ⟨nofun, Nat.succ_pos _⟩
  · rename_i hp
    rw [hp]
    exact ⟨nofun, Nat.succ_pos _⟩
  · exact h.elim
  · exact h.elim
  · exact h.elim

end Promin.Shared
