import Promin.Shared.EngineScheduler

/-!
# Drains and flushes of the engine's scheduler

A queue that holds tasks is always scheduled, and what is scheduled has a drain
among the microtasks, a yield that was not served, or a flush on the call stack
that goes on until the queue is empty.
-/

namespace Promin.Shared

open EngineScheduler List Machine

variable {config : EngineSchedulerConfig} {s : EngineScheduler}

/-! ## Tasks -/

/-- Every task is called, waits in a batch or in the queue, or was dropped, and once only;
    the called ones have returned or run. -/
structure AccountsForCalls (s : EngineScheduler) : Prop where
  tasks : (s.called ++ (s.frames.flatMap (·.rest) ++ (s.queue ++ s.dropped))).Perm
    (List.range s.nextTask)
  calls : s.called.Perm (s.returned ++ s.frames.map (·.task))

variable {s' : EngineScheduler}

section

variable (h : AccountsForCalls s)
include h

private theorem AccountsForCalls.same (hqueue : s'.queue = s.queue) (hframes : s'.frames = s.frames)
    (hnext : s'.nextTask = s.nextTask) (hcalled : s'.called = s.called)
    (hreturned : s'.returned = s.returned) (hdropped : s'.dropped = s.dropped) :
    AccountsForCalls s' := by
  constructor
  · rw [hqueue, hframes, hnext, hcalled, hdropped]
    exact h.tasks
  · rw [hframes, hcalled, hreturned]
    exact h.calls

private theorem request_accounts : AccountsForCalls (request config s) := by
  unfold request
  split <;> exact h.same rfl rfl rfl rfl rfl rfl

private theorem cancelYield_accounts :
    AccountsForCalls (cancelYield config s) := by
  unfold cancelYield
  split <;> exact h.same rfl rfl rfl rfl rfl rfl

private theorem runBatch_accounts {caller : BatchCaller}
    (hrun : s.runBatch caller = some s') : AccountsForCalls s' := by
  unfold runBatch at hrun
  cases hqueue : s.queue with
  | nil =>
    rw [hqueue] at hrun
    exact nomatch hrun
  | cons task rest =>
    rw [hqueue] at hrun
    cases hrun
    have htasks := h.tasks
    rw [hqueue] at htasks
    constructor
    · apply List.Perm.trans _ htasks
      rw [perm_iff_count]
      intro t
      simp only [count_append, count_cons, flatMap_cons, count_nil]
      omega
    · apply (h.calls.append_right [task]).trans
      rw [perm_iff_count]
      intro t
      simp only [count_append, map_cons, count_cons, count_nil]
      omega

private theorem afterDrain_accounts :
    AccountsForCalls (afterDrain config s) := by
  unfold afterDrain
  split
  · apply request_accounts
    exact h.same rfl rfl rfl rfl rfl rfl
  · exact h

private theorem drain_accounts : AccountsForCalls (drain config s) := by
  have hsame : AccountsForCalls { s with scheduled := false } := h.same rfl rfl rfl rfl rfl rfl
  simp only [drain]
  split
  · exact afterDrain_accounts hsame
  · rename_i hrun
    exact runBatch_accounts hsame hrun

private theorem flushLoop_accounts : AccountsForCalls s.flushLoop.1 := by
  unfold flushLoop
  split
  · exact h.same rfl rfl rfl rfl rfl rfl
  · rename_i hrun
    exact runBatch_accounts h hrun

private theorem schedule_accounts :
    AccountsForCalls (schedule config s) := by
  have hnew : AccountsForCalls
      { s with queue := s.queue ++ [s.nextTask], nextTask := s.nextTask + 1 } := by
    constructor
    · show (_ ++ (_ ++ ((s.queue ++ [s.nextTask]) ++ s.dropped))).Perm (List.range (s.nextTask + 1))
      rw [range_succ]
      refine List.Perm.trans ?_ (h.tasks.append_right [s.nextTask])
      rw [perm_iff_count]
      intro t
      simp only [count_append]
      omega
    · exact h.calls
  simp only [schedule]
  split
  · exact hnew
  · apply request_accounts
    exact hnew.same rfl rfl rfl rfl rfl rfl

private theorem shutdown_accounts :
    AccountsForCalls (shutdown config s) := by
  have hcancel : AccountsForCalls (cancelYield config s) := cancelYield_accounts h
  constructor
  · apply List.Perm.trans _ hcancel.tasks
    rw [perm_iff_count]
    intro t
    simp only [shutdown, count_append, count_nil]
    omega
  · exact hcancel.calls

private theorem taskReturns_accounts :
    AccountsForCalls (taskReturns config s).1 := by
  unfold taskReturns
  split
  · exact h
  · rename_i frame frames hframes
    have htasks := h.tasks
    have hcalls := h.calls
    rw [hframes] at htasks hcalls
    simp only
    split
    · -- The next task of the batch.
      rename_i task rest hrest
      rw [flatMap_cons, hrest] at htasks
      constructor
      · apply List.Perm.trans _ htasks
        rw [perm_iff_count]
        intro t
        simp only [count_append, flatMap_cons, count_cons, count_nil]
        omega
      · apply (hcalls.append_right [task]).trans
        rw [perm_iff_count]
        intro t
        simp only [count_append, map_cons, count_cons, count_nil]
        omega
    · -- The batch is over.
      rename_i hrest
      have hover : AccountsForCalls
          { s with returned := s.returned ++ [frame.task], frames := frames } := by
        rw [flatMap_cons, hrest, nil_append] at htasks
        refine ⟨htasks, hcalls.trans ?_⟩
        rw [map_cons, append_assoc, singleton_append]
      split
      · exact afterDrain_accounts hover
      · exact flushLoop_accounts hover

private theorem macrotask_accounts (y source : Nat) :
    AccountsForCalls (macrotask config s y source) := by
  have hset : ∀ yielded, AccountsForCalls { s with yields := s.yields.set y yielded } :=
    fun _ => h.same rfl rfl rfl rfl rfl rfl
  unfold macrotask
  split
  · exact h
  · simp only
    split
    · split
      · exact hset _
      · refine drain_accounts ((cancelYield_accounts (hset _)).same rfl rfl rfl rfl rfl rfl)
    · exact h

theorem AccountsForCalls.next (o : EngineSchedulerOp) :
    AccountsForCalls ((engineScheduler config).next s o) := by
  cases o with
  | schedule => exact schedule_accounts h
  | flush => exact flushLoop_accounts (cancelYield_accounts h)
  | shutdown => exact shutdown_accounts h
  | microtask =>
    simp only [Machine.next, engineScheduler, microtask]
    split
    · apply drain_accounts
      exact h.same rfl rfl rfl rfl rfl rfl
    · exact h
  | macrotask y source => exact macrotask_accounts h y source
  | taskReturns => exact taskReturns_accounts h

end

/-! ## What is to come -/

/-- A drain is among the microtasks, or a yield was not served. -/
def Wakeful (s : EngineScheduler) : Prop :=
  0 < s.microtasks ∨ ∃ y yielded, s.yields.get y = some yielded ∧ yielded.served = false

/-- What is scheduled will drain. -/
structure Awake (config : EngineSchedulerConfig) (s : EngineScheduler) : Prop where
  queued : s.queue ≠ [] → s.scheduled = true
  /-- All the callbacks of a yield that was not served are to come. -/
  unserved : ∀ y yielded, s.yields.get y = some yielded → yielded.served = false →
    yielded.callbacks = List.range config.macrotaskHops.length
  woken : s.scheduled = true → Wakeful s ∨ ∃ f ∈ s.frames, f.caller = .flush

def Complete (config : EngineSchedulerConfig) (yields : JsMap Nat EngineYield) : Prop :=
  ∀ y yielded, yields.get y = some yielded → yielded.served = false →
    yielded.callbacks = List.range config.macrotaskHops.length

private theorem Complete.set {yields : JsMap Nat EngineYield} (h : Complete config yields)
    (y : Nat) {yielded : EngineYield} (hnew : yielded.served = false →
      yielded.callbacks = List.range config.macrotaskHops.length) :
    Complete config (yields.set y yielded) := by
  intro y' yielded' hget hserved
  rw [JsMap.get_set] at hget
  split at hget
  · cases hget
    exact hnew hserved
  · exact h y' yielded' hget hserved

private theorem cancelYield_complete (h : Complete config s.yields) :
    Complete config (cancelYield config s).yields := by
  unfold cancelYield
  split
  · exact h
  · intro y' yielded' hget hserved
    simp only [JsMap.get_mapValues, Option.map_eq_some_iff] at hget
    obtain ⟨before, hbefore, rfl⟩ := hget
    split at hserved
    · cases hserved
    · rename_i hne
      rw [if_neg hne]
      exact h y' before hbefore hserved

private theorem request_complete (h : Complete config s.yields) :
    Complete config (request config s).yields := by
  unfold request
  split
  · exact h
  · exact h.set _ fun _ => rfl

private theorem request_wakeful : Wakeful (request config s) := by
  unfold request
  split
  · exact .inl (Nat.succ_pos _)
  · exact .inr ⟨s.nextYield, _, JsMap.get_set_self _ _ _, rfl⟩

section

variable (h : Complete config s.yields)
include h

private theorem request_awake (hscheduled : s.scheduled = true) :
    Awake config (request config s) where
  queued := by
    intro _
    unfold request
    split <;> exact hscheduled
  unserved := request_complete h
  woken := fun _ => .inl request_wakeful

private theorem awake_of_idle (hqueue : s.queue = [])
    (hscheduled : s.scheduled = false) : Awake config s where
  queued := fun hne => absurd hqueue hne
  unserved := h
  woken := by
    intro hyes
    rw [hscheduled] at hyes
    exact nomatch hyes

private theorem drain_awake : Awake config (drain config s) := by
  simp only [drain, runBatch]
  cases s.queue with
  | nil =>
    simp only [afterDrain, length_nil, Nat.lt_irrefl, decide_false, Bool.false_and,
      Bool.false_eq_true, ↓reduceIte]
    exact awake_of_idle h rfl rfl
  | cons task rest => exact awake_of_idle h rfl rfl

private theorem flushLoop_awake : Awake config s.flushLoop.1 := by
  simp only [flushLoop, runBatch]
  cases s.queue with
  | nil => exact awake_of_idle h rfl rfl
  | cons task rest =>
    constructor
    · exact fun hne => absurd rfl hne
    · exact h
    · exact fun _ => .inr ⟨_, mem_cons_self, rfl⟩

end

section

variable (h : Awake config s)
include h

private theorem Awake.same (hqueue : s'.queue = s.queue) (hscheduled : s'.scheduled = s.scheduled)
    (hmicrotasks : s'.microtasks = s.microtasks) (hcomplete : Complete config s'.yields)
    (hyields : ∀ y yielded, s.yields.get y = some yielded → yielded.served = false →
      ∃ yielded', s'.yields.get y = some yielded' ∧ yielded'.served = false)
    (hframes : ∀ f ∈ s.frames, f.caller = .flush → ∃ f' ∈ s'.frames, f'.caller = .flush) :
    Awake config s' where
  queued := by
    rw [hqueue, hscheduled]
    exact h.queued
  unserved := hcomplete
  woken := by
    intro hyes
    rw [hscheduled] at hyes
    rcases h.woken hyes with (hmicro | ⟨y, yielded, hget, hserved⟩) | ⟨f, hf, hflush⟩
    · exact .inl (.inl (by rwa [hmicrotasks]))
    · obtain ⟨yielded', hget', hserved'⟩ := hyields y yielded hget hserved
      exact .inl (.inr ⟨y, yielded', hget', hserved'⟩)
    · exact .inr (hframes f hf hflush)

private theorem schedule_awake : Awake config (schedule config s) := by
  simp only [schedule]
  split
  · rename_i hscheduled
    constructor
    · exact fun _ => hscheduled
    · exact h.unserved
    · exact h.woken
  · exact request_awake h.unserved rfl

private theorem afterDrain_awake : Awake config (afterDrain config s) := by
  unfold afterDrain
  split
  · exact request_awake h.unserved rfl
  · exact h

private theorem taskReturns_awake : Awake config (taskReturns config s).1 := by
  unfold taskReturns
  split
  · exact h
  · rename_i frame frames hframes
    simp only
    split
    · refine h.same rfl rfl rfl h.unserved
        (fun _ yielded hget hserved => ⟨yielded, hget, hserved⟩) ?_
      intro f hf hflush
      rw [hframes] at hf
      rcases mem_cons.mp hf with rfl | hf
      · exact ⟨_, mem_cons_self, hflush⟩
      · exact ⟨f, mem_cons_of_mem _ hf, hflush⟩
    · split
      · -- The frame that ends is a drain's, so no flush ends.
        rename_i hcaller
        apply afterDrain_awake
        refine h.same rfl rfl rfl h.unserved
          (fun _ yielded hget hserved => ⟨yielded, hget, hserved⟩)
          ?_
        intro f hf hflush
        rw [hframes] at hf
        rcases mem_cons.mp hf with rfl | hf
        · rw [hcaller] at hflush
          exact nomatch hflush
        · exact ⟨f, hf, hflush⟩
      · exact flushLoop_awake h.unserved

private theorem macrotask_awake (y source : Nat) :
    Awake config (macrotask config s y source) := by
  unfold macrotask
  split
  · exact h
  · rename_i yielded hget
    simp only
    split
    · split
      · -- A served yield stays served, so a stale callback changes nothing.
        rename_i hserved
        refine h.same rfl rfl rfl (Complete.set h.unserved y ?_) ?_ ?_
        · intro hno
          rw [hserved] at hno
          cases hno
        · intro y' yielded' hget' hserved'
          rw [JsMap.get_set]
          split
          · rename_i heq
            rw [← heq, hget] at hget'
            cases hget'
            rw [hserved] at hserved'
            cases hserved'
          · exact ⟨yielded', hget', hserved'⟩
        · exact fun f hf hflush => ⟨f, hf, hflush⟩
      · apply drain_awake
        exact cancelYield_complete (Complete.set h.unserved y fun hno => by cases hno)
    · exact h

theorem Awake.next (o : EngineSchedulerOp) :
    Awake config ((engineScheduler config).next s o) := by
  cases o with
  | schedule => exact schedule_awake h
  | flush => exact flushLoop_awake (cancelYield_complete h.unserved)
  | shutdown => exact awake_of_idle (cancelYield_complete h.unserved) rfl rfl
  | microtask =>
    simp only [Machine.next, engineScheduler, microtask]
    split
    · exact drain_awake h.unserved
    · exact h
  | macrotask y source => exact macrotask_awake h y source
  | taskReturns => exact taskReturns_awake h

end

def Due (s : EngineScheduler) : EngineSchedulerOp → Prop
  | .microtask => 0 < s.microtasks
  | .macrotask y source =>
    ∃ yielded, s.yields.get y = some yielded ∧ yielded.served = false ∧ source ∈ yielded.callbacks
  | .schedule | .flush | .shutdown | .taskReturns => False

def StartsQueue (config : EngineSchedulerConfig) (s : EngineScheduler) (o : EngineSchedulerOp) :
    Prop :=
  let s' := (engineScheduler config).next s o
  s'.queue = [] ∧ ∃ f, s'.frames = f :: s.frames ∧ f.task :: f.rest = s.queue

private theorem drain_starts (hqueue : s'.queue = s.queue)
    (hframes : s'.frames = s.frames) (hne : s.queue ≠ []) :
    (drain config s').queue = [] ∧
      ∃ f, (drain config s').frames = f :: s.frames ∧ f.task :: f.rest = s.queue := by
  obtain ⟨task, rest, hcons⟩ := exists_cons_of_ne_nil hne
  simp only [drain, runBatch, hqueue, hcons, true_and]
  exact ⟨_, by rw [hframes], rfl⟩

@[simp] theorem cancelYield_queue : (cancelYield config s).queue = s.queue := by
  unfold cancelYield
  split <;> rfl

@[simp] theorem cancelYield_frames : (cancelYield config s).frames = s.frames := by
  unfold cancelYield
  split <;> rfl

private theorem Awake.due (h : Awake config s) (hhops : config.macrotaskHops ≠ [])
    (hframes : s.frames = []) (hne : s.queue ≠ []) : ∃ o, Due s o ∧ StartsQueue config s o := by
  rcases h.woken (h.queued hne) with (hmicro | ⟨y, yielded, hget, hserved⟩) | ⟨f, hf, -⟩
  · refine ⟨.microtask, hmicro, ?_⟩
    simp only [StartsQueue, Machine.next, engineScheduler, microtask, hmicro, ↓reduceIte]
    exact drain_starts rfl rfl hne
  · have hsource : 0 ∈ yielded.callbacks := by
      rw [h.unserved y yielded hget hserved, mem_range]
      exact length_pos_iff.mpr hhops
    refine ⟨.macrotask y 0, ⟨yielded, hget, hserved, hsource⟩, ?_⟩
    simp only [StartsQueue, Machine.next, engineScheduler, macrotask, hget, hsource, ↓reduceIte,
      hserved, Bool.false_eq_true]
    apply drain_starts _ _ hne
    · exact cancelYield_queue
    · exact cancelYield_frames
  · rw [hframes] at hf
    cases hf

private theorem AccountsForCalls.place (h : AccountsForCalls s) (hqueue : s.queue = []) {task : Nat}
    (htask : task < s.nextTask) :
    task ∈ s.returned ∨ (∃ f ∈ s.frames, task = f.task ∨ task ∈ f.rest) ∨ task ∈ s.dropped := by
  have hmem := h.tasks.mem_iff.mpr (mem_range.mpr htask)
  rw [hqueue, nil_append] at hmem
  rcases mem_append.mp hmem with hcalled | hmem
  · rcases mem_append.mp (h.calls.mem_iff.mp hcalled) with hreturned | hruns
    · exact .inl hreturned
    · obtain ⟨f, hf, rfl⟩ := mem_map.mp hruns
      exact .inr (.inl ⟨f, hf, .inl rfl⟩)
  · rcases mem_append.mp hmem with hwaits | hdropped
    · obtain ⟨f, hf, hrest⟩ := mem_flatMap.mp hwaits
      exact .inr (.inl ⟨f, hf, .inr hrest⟩)
    · exact .inr (.inr hdropped)

@[simp] theorem request_dropped : (request config s).dropped = s.dropped := by
  unfold request
  split <;> rfl

end Promin.Shared
