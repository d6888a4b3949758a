import Promin.Distributed.StepQueue
import Promin.ForStd.Text

/-!
# What one operation does to a queued task

`step_task` says once what any operation of the step queue can do to the row
stored under one id: leave it, create it, claim it, put it back, beat, settle,
consume or purge it.
-/

namespace Promin.Distributed

open InMemoryStepQueue JsMap List

/-! ## Numbered ids -/

theorem taskIdOf_inj {m n : Nat} (h : taskIdOf m = taskIdOf n) : m = n :=
  Nat.append_toString_inj "task-" h

theorem claimTokenOf_inj {m n : Nat} (h : claimTokenOf m = claimTokenOf n) : m = n :=
  Nat.append_toString_inj "claim-" h

/-! ## Task changes -/

def SameTask (t t' : MutableTask) : Prop :=
  t'.id = t.id ∧ t'.workflowId = t.workflowId ∧ t'.stepName = t.stepName

/-- What one operation, moving the counter from `before` to `after`, can do to the
    row stored under `id`. -/
inductive TaskChange (before after : Nat) (id : String) :
    Option MutableTask → Option MutableTask → Prop where
  | same (t : Option MutableTask) : TaskChange before after id t t
  | created {t : MutableTask} (hid : id = taskIdOf after) (hafter : after = before + 1)
      (htid : t.id = id) (hpending : t.status = .pending) (hfresh : t.consumedAt = none) :
      TaskChange before after id none (some t)
  | claimed {t t' : MutableTask} {n : Nat} (hpending : t.status = .pending)
      (hrunning : t'.status = .running) (htoken : t'.claimToken = some (claimTokenOf n))
      (hlo : before < n) (hhi : n ≤ after)
      (hsame : SameTask t t') (hcons : t'.consumedAt = t.consumedAt) :
      TaskChange before after id (some t) (some t')
  | putBack {t t' : MutableTask} (hrunning : t.status = .running) (hpending : t'.status = .pending)
      (hsame : SameTask t t') (hcons : t'.consumedAt = t.consumedAt) :
      TaskChange before after id (some t) (some t')
  | beat {t t' : MutableTask} (hrunning : t.status = .running) (hrunning' : t'.status = .running)
      (hsame : SameTask t t') (hcons : t'.consumedAt = t.consumedAt) :
      TaskChange before after id (some t) (some t')
  | settled {t t' : MutableTask} (hrunning : t.status = .running)
      (hsettled : t'.status.settled = true)
      (hsame : SameTask t t') (hcons : t'.consumedAt = t.consumedAt) :
      TaskChange before after id (some t) (some t')
  | consumed {t t' : MutableTask} (hsettled : t.status.settled = true) (hopen : t.consumedAt = none)
      (hstatus : t'.status = t.status) (hsame : SameTask t t')
      (hcons : t'.consumedAt.isSome) :
      TaskChange before after id (some t) (some t')
  | purged {t : MutableTask} (hsettled : t.status.settled = true) :
      TaskChange before after id (some t) none

theorem SameTask.refl (t : MutableTask) : SameTask t t := ⟨rfl, rfl, rfl⟩

variable (q : InMemoryStepQueue) (taskId : String)

theorem onCurrentClaim_cases (token : Option String) (f : MutableTask → MutableTask) :
    q.onCurrentClaim taskId token f = (q, false) ∨
    ∃ t, q.tasks.get taskId = some t ∧ t.status = .running ∧
      (∀ tok, token = some tok → t.claimToken = some tok) ∧
      q.onCurrentClaim taskId token f =
        ({ q with tasks := q.tasks.set taskId (f t) }, true) := by
  unfold onCurrentClaim currentClaim
  cases hget : q.tasks.get taskId with
  | none => exact .inl rfl
  | some t =>
    by_cases hrun : t.status = .running
    · cases token with
      | none => exact .inr ⟨t, rfl, hrun, by simp, by simp [hrun]⟩
      | some tok =>
        by_cases htok : t.claimToken = some tok
        · exact .inr ⟨t, rfl, hrun, by simp [htok], by simp [hrun, htok]⟩
        · exact .inl (by simp [hrun, htok])
    · exact .inl (by simp [hrun])

private theorem onCurrentClaim_task
    (token : Option String) (f : MutableTask → MutableTask) (id : String)
    (hf : ∀ t, t.status = .running → TaskChange q.counter q.counter id (some t) (some (f t))) :
    TaskChange q.counter q.counter id (q.tasks.get id)
      ((q.onCurrentClaim taskId token f).1.tasks.get id) := by
  rcases onCurrentClaim_cases q taskId token f with h | ⟨t, hget, hrun, -, h⟩
  · rw [h]
    exact .same _
  · rw [h]
    by_cases hid : taskId = id
    · subst hid
      rw [hget, get_set_self]
      exact hf t hrun
    · rw [get_set_ne _ _ hid]
      exact .same _

private theorem onCurrentClaim_counter (token : Option String) (f : MutableTask → MutableTask) :
    (q.onCurrentClaim taskId token f).1.counter = q.counter := by
  rcases onCurrentClaim_cases q taskId token f with h | ⟨t, -, -, -, h⟩ <;> rw [h]

variable (p : StepQueueClaimParams)

private theorem claimLoop_spec (l : List (String × MutableTask))
    (counts : JsMap String Int) (claimed : Nat) (q : InMemoryStepQueue)
    (hnd : (l.map Prod.fst).Nodup) :
    ∃ k, (claimLoop p l counts claimed q).1.counter = q.counter + k ∧
      (claimLoop p l counts claimed q).1.activeByKey = q.activeByKey ∧
      (claimLoop p l counts claimed q).2.map (·.claimToken) =
        (List.range k).map (fun i => some (claimTokenOf (q.counter + 1 + i))) ∧
      ∀ id, (claimLoop p l counts claimed q).1.tasks.get id = q.tasks.get id ∨
        ∃ t n, (id, t) ∈ l ∧ q.counter < n ∧ n ≤ q.counter + k ∧
          (claimLoop p l counts claimed q).1.tasks.get id =
            some (q.claimedTask p.workerId n t) := by
  induction l generalizing counts claimed q with
  | nil => exact ⟨0, rfl, rfl, rfl, fun _ => .inl rfl⟩
  | cons e rest ih =>
    obtain ⟨id₀, task⟩ := e
    simp only [map_cons, nodup_cons] at hnd
    simp only [claimLoop]
    split
    · exact ⟨0, rfl, rfl, rfl, fun _ => .inl rfl⟩
    · split
      · -- The task's concurrency cap is exhausted: it is skipped.
        obtain ⟨k, hcounter, hactive, htokens, htasks⟩ := ih counts claimed q hnd.2
        refine ⟨k, hcounter, hactive, htokens, fun id => ?_⟩
        rcases htasks id with h | ⟨t, n, hmem, hn⟩
        · exact .inl h
        · exact .inr ⟨t, n, mem_cons_of_mem _ hmem, hn⟩
      · rename_i counts' _
        obtain ⟨k, hcounter, hactive, htokens, htasks⟩ := ih counts' (claimed + 1)
          { q with
            tasks := q.tasks.set id₀ (q.claimedTask p.workerId (q.counter + 1) task)
            counter := q.counter + 1 } hnd.2
        refine ⟨k + 1, ?_, hactive, ?_, fun id => ?_⟩
        · simp only at hcounter ⊢
          omega
        · rw [map_cons, htokens, range_succ_eq_map, map_cons, map_map]
          congr 1
          apply map_congr_left
          intro i _
          simp only [Function.comp_apply, Option.some.injEq]
          congr 1
          omega
        · rcases htasks id with h | ⟨t, n, hmem, hlo, hhi, h⟩
          · simp only [get_set] at h
            by_cases hid : id₀ = id
            · subst hid
              rw [if_pos rfl] at h
              exact .inr ⟨task, q.counter + 1, mem_cons_self, by omega, by omega, h⟩
            · rw [if_neg hid] at h
              exact .inl h
          · simp only at hlo hhi
            exact .inr ⟨t, n, mem_cons_of_mem _ hmem, by omega, by omega, h⟩

theorem claimOrder_spec :
    ((q.claimOrder p).map Prod.fst).Nodup ∧
      ∀ e ∈ q.claimOrder p, q.tasks.get e.1 = some e.2 ∧ claimable p e.2 = true := by
  have hperm : (q.claimOrder p).Perm (q.tasks.entries.filter fun e => claimable p e.2) :=
    perm_insertionSort _ _
  constructor
  · rw [(hperm.map Prod.fst).nodup_iff]
    exact (filter_sublist.map Prod.fst).nodup q.tasks.nodup
  · intro e he
    have hmem := mem_filter.mp (hperm.mem_iff.mp he)
    exact ⟨(mem_entries_iff q.tasks e.1 e.2).mp hmem.1, hmem.2⟩

theorem claim_spec :
    ∃ k, (q.claim p).1.counter = q.counter + k ∧
      (q.claim p).1.activeByKey = q.activeByKey ∧
      (q.claim p).2.map (·.claimToken) =
        (List.range k).map (fun i => some (claimTokenOf (q.counter + 1 + i))) ∧
      ∀ id, (q.claim p).1.tasks.get id = q.tasks.get id ∨
        ∃ t n, q.tasks.get id = some t ∧ claimable p t = true ∧ q.counter < n ∧
          n ≤ q.counter + k ∧
          (q.claim p).1.tasks.get id = some (q.claimedTask p.workerId n t) := by
  obtain ⟨hnd, hpend⟩ := claimOrder_spec q p
  obtain ⟨k, hcounter, hactive, htokens, htasks⟩ :=
    claimLoop_spec p (q.claimOrder p) q.runningPerKey 0 q hnd
  refine ⟨k, hcounter, hactive, htokens, fun id => ?_⟩
  rcases htasks id with h | ⟨t, n, hmem, hlo, hhi, h⟩
  · exact .inl h
  · obtain ⟨hget, hclaim⟩ := hpend _ hmem
    exact .inr ⟨t, n, hget, hclaim, hlo, hhi, h⟩

private theorem claimLoop_handed (l : List (String × MutableTask))
    (counts : JsMap String Int) (claimed : Nat) (q : InMemoryStepQueue) :
    ((claimLoop p l counts claimed q).2.length : Int) ≤ max 0 (p.limit - claimed) ∧
      ((claimLoop p l counts claimed q).2.map (·.id)).Sublist (l.map (·.2.id)) := by
  induction l generalizing counts claimed q with
  | nil => simp [claimLoop]
  | cons e rest ih =>
    obtain ⟨id₀, task⟩ := e
    simp only [claimLoop]
    split
    · simp
    · cases hreserve : reserve counts task with
      | none =>
        have hrest := ih counts claimed q
        exact ⟨hrest.1, hrest.2.trans (sublist_cons_self _ _)⟩
      | some counts' =>
        have hrest := ih counts' (claimed + 1)
          { q with
            tasks := q.tasks.set id₀ (q.claimedTask p.workerId (q.counter + 1) task)
            counter := q.counter + 1 }
        have hlen := hrest.1
        constructor
        · simp only [length_cons, Nat.cast_add, Nat.cast_one]
          omega
        · simpa [claimedTask] using hrest.2

theorem claim_length :
    ((q.claim p).2.length : Int) ≤ max 0 p.limit := by
  simpa [claim] using (claimLoop_handed p (q.claimOrder p) q.runningPerKey 0 q).1

theorem pending_of_claimable {p : StepQueueClaimParams} {t : MutableTask}
    (h : claimable p t = true) : t.status = .pending := by
  simp only [claimable, Bool.and_eq_true, beq_iff_eq] at h
  exact h.1.1.1

theorem enqueue_cases (p : StepQueueEnqueueParams) :
    (∃ existing, q.activeByKey.get (activeKey p.workflowId p.stepName) = some existing ∧
      q.enqueue p = (q, existing)) ∨
    (q.activeByKey.get (activeKey p.workflowId p.stepName) = none ∧
      q.enqueue p =
        ({ q with
            counter := q.counter + 1
            tasks := q.tasks.set (taskIdOf (q.counter + 1))
              (q.newTask (taskIdOf (q.counter + 1)) p)
            activeByKey := q.activeByKey.set (activeKey p.workflowId p.stepName)
              (taskIdOf (q.counter + 1)) }, taskIdOf (q.counter + 1))) := by
  cases hact : q.activeByKey.get (activeKey p.workflowId p.stepName) with
  | some existing => exact .inl ⟨existing, rfl, by simp [enqueue, hact]⟩
  | none => exact .inr ⟨rfl, by simp [enqueue, hact]⟩

/-- Every stored task has an id the counter has handed out. -/
def Issued (q : InMemoryStepQueue) : Prop :=
  ∀ id, (q.tasks.get id).isSome → ∃ n, n ≤ q.counter ∧ id = taskIdOf n

theorem Issued.next_free {q : InMemoryStepQueue} (h : Issued q) :
    q.tasks.get (taskIdOf (q.counter + 1)) = none := by
  cases hget : q.tasks.get (taskIdOf (q.counter + 1)) with
  | none => rfl
  | some t =>
    obtain ⟨n, hn, hid⟩ := h _ (by rw [hget]; rfl)
    have := taskIdOf_inj hid
    omega

private theorem enqueue_task {q : InMemoryStepQueue} (hq : Issued q) (p : StepQueueEnqueueParams)
    (id : String) :
    TaskChange q.counter (q.enqueue p).1.counter id (q.tasks.get id)
      ((q.enqueue p).1.tasks.get id) := by
  rcases enqueue_cases q p with ⟨existing, -, h⟩ | ⟨-, h⟩
  · rw [h]
    exact .same _
  · rw [h]
    by_cases hid : taskIdOf (q.counter + 1) = id
    · subst hid
      rw [hq.next_free, get_set_self]
      exact .created rfl rfl rfl rfl rfl
    · rw [get_set_ne _ _ hid]
      exact .same _

private theorem sweptTask_change (mode : StepQueueRequeueMode) (t : MutableTask) (id : String) :
    TaskChange q.counter q.counter id (some t) (some (q.sweptTask mode t)) := by
  unfold sweptTask
  split
  · rename_i hstuck
    have hrunning : t.status = .running := by
      simp only [stuck, Bool.and_eq_true, beq_iff_eq] at hstuck
      exact hstuck.1
    split
    · exact .settled hrunning rfl ⟨rfl, rfl, rfl⟩ rfl
    · exact .putBack hrunning rfl ⟨rfl, rfl, rfl⟩ rfl
  · exact .same _

theorem requeueStuck_cases (p : StepQueueRequeueParams) :
    (q.requeueStuck p).1 = q ∨
    (q.requeueStuck p).1 =
      { q with tasks := q.tasks.mapValues fun _ task => q.sweptTask p.mode task } := by
  unfold requeueStuck
  simp only
  split
  · exact .inl rfl
  · exact .inr rfl

private theorem requeueStuck_task (p : StepQueueRequeueParams) (id : String) :
    TaskChange q.counter q.counter id (q.tasks.get id)
      ((q.requeueStuck p).1.tasks.get id) := by
  rcases requeueStuck_cases q p with h | h
  · rw [h]
    exact .same _
  · rw [h]
    simp only [get_mapValues]
    cases hget : q.tasks.get id with
    | none => exact .same _
    | some t => exact sweptTask_change q p.mode t id

private theorem requeueStuck_counter (p : StepQueueRequeueParams) :
    (q.requeueStuck p).1.counter = q.counter := by
  rcases requeueStuck_cases q p with h | h <;> rw [h]

private theorem purge_task (completedBefore : Int) (id : String) :
    TaskChange q.counter q.counter id (q.tasks.get id)
      ((q.purge completedBefore).1.tasks.get id) := by
  simp only [purge, get_filter]
  cases hget : q.tasks.get id with
  | none => exact .same _
  | some t =>
    by_cases hp : purgeable completedBefore t = true
    · rw [Option.filter_some_neg (by simp [hp])]
      simp only [purgeable, Bool.and_eq_true] at hp
      exact .purged hp.1
    · rw [Option.filter_some_pos (by simp [hp])]
      exact .same _

theorem consume_cases :
    q.consume taskId = (q, false) ∨
    ∃ t, q.tasks.get taskId = some t ∧ t.consumedAt = none ∧ t.status.settled = true ∧
      q.consume taskId =
        ({ q with
            tasks := q.tasks.set taskId { t with consumedAt := some q.now }
            activeByKey := freeSlot q.activeByKey t }, true) := by
  unfold consume
  cases hget : q.tasks.get taskId with
  | none => exact .inl rfl
  | some t =>
    cases hcons : t.consumedAt with
    | some at_ => exact .inl (by simp [hcons])
    | none =>
      by_cases hset : t.status.settled = true
      · exact .inr ⟨t, rfl, hcons, hset, by simp [hcons, hset]⟩
      · exact .inl (by simp [hcons, hset])

def OnlyConsumed (q q' : InMemoryStepQueue) : Prop :=
  q'.counter = q.counter ∧
  ∀ id, q'.tasks.get id = q.tasks.get id ∨
    ∃ t t', q.tasks.get id = some t ∧ q'.tasks.get id = some t' ∧
      t.consumedAt = none ∧ t.status.settled = true ∧ t'.status = t.status ∧ SameTask t t' ∧
      t'.consumedAt.isSome

private theorem consume_onlyConsumed :
    OnlyConsumed q (q.consume taskId).1 := by
  rcases consume_cases q taskId with h | ⟨t, hget, hopen, hset, h⟩
  · rw [h]
    exact ⟨rfl, fun _ => .inl rfl⟩
  · rw [h]
    refine ⟨rfl, fun id => ?_⟩
    by_cases hid : taskId = id
    · subst hid
      exact .inr ⟨t, _, hget, get_set_self _ _ _, hopen, hset, rfl, ⟨rfl, rfl, rfl⟩, rfl⟩
    · exact .inl (get_set_ne _ _ hid)

private theorem OnlyConsumed.trans {q q' q'' : InMemoryStepQueue} (h : OnlyConsumed q q')
    (h' : OnlyConsumed q' q'') : OnlyConsumed q q'' := by
  refine ⟨h'.1.trans h.1, fun id => ?_⟩
  rcases h'.2 id with he' | ⟨t, t', hget, hget', hopen, hset, hrest⟩
  · rw [he']
    exact h.2 id
  · rcases h.2 id with he | ⟨t₀, t₁, -, hget₁, -, -, -, -, hcons⟩
    · exact .inr ⟨t, t', he ▸ hget, hget', hopen, hset, hrest⟩
    · rw [hget₁] at hget
      cases hget
      rw [hopen] at hcons
      exact nomatch hcons

private theorem consumeSettled_onlyConsumed (workflowId : String)
    (stepNames : List String) : OnlyConsumed q (q.consumeSettled workflowId stepNames).1 := by
  induction stepNames generalizing q with
  | nil => exact ⟨rfl, fun _ => .inl rfl⟩
  | cons stepName rest ih =>
    have hstep : OnlyConsumed q (q.consumeSettledStep workflowId stepName).1 := by
      unfold consumeSettledStep
      split
      · exact ⟨rfl, fun _ => .inl rfl⟩
      · exact consume_onlyConsumed q _
    exact hstep.trans (ih _)

private theorem OnlyConsumed.task {q q' : InMemoryStepQueue} (h : OnlyConsumed q q')
    (id : String) : TaskChange q.counter q'.counter id (q.tasks.get id) (q'.tasks.get id) := by
  rcases h.2 id with he | ⟨t, t', hget, hget', hopen, hset, hstatus, hsame, hcons⟩
  · rw [he]
    exact .same _
  · rw [hget, hget']
    exact .consumed hset hopen hstatus hsame hcons

/-! ## Any operation -/

/-- **What one operation of the queue can do to the row stored under one id.** -/
theorem step_task {q : InMemoryStepQueue} (hq : Issued q) (o : StepQueueOp) (id : String) :
    TaskChange q.counter (stepQueue.next q o).counter id (q.tasks.get id)
      ((stepQueue.next q o).tasks.get id) := by
  cases o with
  | advance ms | leaderLeases leases => exact .same _
  | enqueue p => exact enqueue_task hq p id
  | claim p =>
    obtain ⟨k, hcounter, -, -, htasks⟩ := claim_spec q p
    show TaskChange q.counter (q.claim p).1.counter id _ ((q.claim p).1.tasks.get id)
    rw [hcounter]
    rcases htasks id with h | ⟨t, n, hget, hclaim, hlo, hhi, h⟩
    · rw [h]
      exact .same _
    · rw [h, hget]
      exact .claimed (pending_of_claimable hclaim) rfl rfl hlo hhi ⟨rfl, rfl, rfl⟩ rfl
  | release taskId token =>
    show TaskChange _ (q.release taskId token).1.counter id _ _
    rw [release, onCurrentClaim_counter]
    exact onCurrentClaim_task q _ _ _ id fun t ht => .putBack ht rfl ⟨rfl, rfl, rfl⟩ rfl
  | heartbeat taskId token =>
    show TaskChange _ (q.heartbeat taskId token).1.counter id _ _
    rw [heartbeat, onCurrentClaim_counter]
    exact onCurrentClaim_task q _ _ _ id fun t ht => .beat ht ht ⟨rfl, rfl, rfl⟩ rfl
  | complete p =>
    show TaskChange _ (q.complete p).1.counter id _ _
    rw [complete, onCurrentClaim_counter]
    exact onCurrentClaim_task q _ _ _ id fun t ht => .settled ht rfl ⟨rfl, rfl, rfl⟩ rfl
  | fail p =>
    show TaskChange _ (q.fail p).1.counter id _ _
    rw [fail, onCurrentClaim_counter]
    exact onCurrentClaim_task q _ _ _ id fun t ht => .settled ht rfl ⟨rfl, rfl, rfl⟩ rfl
  | requeueStuck p =>
    show TaskChange _ (q.requeueStuck p).1.counter id _ _
    rw [requeueStuck_counter q p]
    exact requeueStuck_task q p id
  | consume taskId => exact (consume_onlyConsumed q taskId).task id
  | consumeSettled workflowId stepNames =>
    exact (consumeSettled_onlyConsumed q workflowId stepNames).task id
  | purge completedBefore => exact purge_task q completedBefore id

theorem step_counter (o : StepQueueOp) :
    q.counter ≤ (stepQueue.next q o).counter := by
  cases o with
  | advance ms | leaderLeases leases | purge completedBefore => exact Nat.le_refl _
  | enqueue p =>
    show q.counter ≤ (q.enqueue p).1.counter
    rcases enqueue_cases q p with ⟨existing, -, h⟩ | ⟨-, h⟩ <;> rw [h]
    exact Nat.le_succ _
  | claim p =>
    obtain ⟨k, hcounter, -, -, -⟩ := claim_spec q p
    show q.counter ≤ (q.claim p).1.counter
    omega
  | release taskId token | heartbeat taskId token | complete p | fail p =>
    exact Nat.le_of_eq (onCurrentClaim_counter q _ _ _).symm
  | requeueStuck p => exact Nat.le_of_eq (requeueStuck_counter q p).symm
  | consume taskId => exact Nat.le_of_eq (consume_onlyConsumed q taskId).1.symm
  | consumeSettled workflowId stepNames =>
    exact Nat.le_of_eq (consumeSettled_onlyConsumed q workflowId stepNames).1.symm

theorem issued_new (config : InMemoryStepQueueConfig) : Issued (InMemoryStepQueue.new config) := by
  intro id hid
  simp [InMemoryStepQueue.new] at hid

theorem step_issued {q : InMemoryStepQueue} (hq : Issued q) (o : StepQueueOp) :
    Issued (stepQueue.next q o) := by
  intro id hid
  have hle := step_counter q o
  have hold : (q.tasks.get id).isSome →
      ∃ n, n ≤ (stepQueue.next q o).counter ∧ id = taskIdOf n := by
    intro h
    obtain ⟨n, hn, he⟩ := hq id h
    exact ⟨n, by omega, he⟩
  generalize hbefore : q.tasks.get id = before at hold
  generalize hafter : (stepQueue.next q o).tasks.get id = after at hid
  have hchange := step_task hq o id
  rw [hbefore, hafter] at hchange
  cases hchange with
  | same => exact hold hid
  | created he hcounter => exact ⟨_, Nat.le_refl _, he⟩
  | claimed | putBack | beat | settled | consumed => exact hold rfl
  | purged => exact nomatch hid

theorem run_issued (config : InMemoryStepQueueConfig) (ops : List StepQueueOp) :
    Issued (stepQueue.run (.new config) ops) :=
  Machine.run_induction (P := Issued) (fun _ o h => step_issued h o) ops (issued_new config)

/-! ## Rows keep their ids -/

/-- Every row is stored under its own id. -/
def Keyed (q : InMemoryStepQueue) : Prop :=
  ∀ id t, q.tasks.get id = some t → t.id = id

theorem step_keyed {q : InMemoryStepQueue} (hq : Issued q) (hk : Keyed q) (o : StepQueueOp) :
    Keyed (stepQueue.next q o) := by
  intro id t' hget
  have hold := hk id
  generalize hbefore : q.tasks.get id = before at hold
  have hchange := step_task hq o id
  rw [hbefore, hget] at hchange
  cases hchange with
  | same => exact hold t' rfl
  | created _ _ htid => exact htid
  | claimed _ _ _ _ _ hsame | putBack _ _ hsame | beat _ _ hsame | settled _ _ hsame
  | consumed _ _ _ hsame => exact hsame.1.trans (hold _ rfl)

theorem claim_ids_nodup {q : InMemoryStepQueue} (hk : Keyed q) (p : StepQueueClaimParams) :
    ((q.claim p).2.map (·.id)).Nodup := by
  obtain ⟨hnd, hstored⟩ := claimOrder_spec q p
  have hids : (q.claimOrder p).map (·.2.id) = (q.claimOrder p).map Prod.fst := by
    apply map_congr_left
    intro e he
    exact hk e.1 e.2 (hstored e he).1
  have hsub := (claimLoop_handed p (q.claimOrder p) q.runningPerKey 0 q).2
  rw [hids] at hsub
  exact hsub.nodup hnd

end Promin.Distributed

/-!
## Claim safety of the step queue

Over every run of the queue from an empty one, by any workers.
-/

namespace Promin.Distributed

open InMemoryStepQueue

/-! ## Events of a run -/

def StepQueueAnswer.claimTokens : StepQueueAnswer → List String
  | .claimed tasks => tasks.filterMap (·.claimToken)
  | .none => []
  | .taskId _ => []
  | .done _ => []
  | .swept _ => []
  | .count _ => []

/-- The operation stores a task under an id that held none. -/
def creates (id : String) (q : InMemoryStepQueue) (o : StepQueueOp) : Bool :=
  (q.tasks.get id).isNone && ((stepQueue.next q o).tasks.get id).isSome

/-- The operation takes the task from running to completed or failed. -/
def settles (id : String) (q : InMemoryStepQueue) (o : StepQueueOp) : Bool :=
  match q.tasks.get id, (stepQueue.next q o).tasks.get id with
  | some t, some t' => t.status == .running && t'.status.settled
  | _, _ => false

/-- The call acts on the task under this token. -/
inductive ActsUnder (taskId token : String) : StepQueueOp → Prop where
  | complete {p : StepQueueCompleteParams} (hid : p.taskId = taskId)
      (htok : p.claimToken = some token) : ActsUnder taskId token (.complete p)
  | fail {p : StepQueueFailParams} (hid : p.taskId = taskId)
      (htok : p.claimToken = some token) : ActsUnder taskId token (.fail p)
  | release : ActsUnder taskId token (.release taskId token)
  | heartbeat : ActsUnder taskId token (.heartbeat taskId (some token))

/-! ## Tokens -/

def Minted (q : InMemoryStepQueue) (token : String) : Prop :=
  ∃ n, n ≤ q.counter ∧ token = claimTokenOf n

private theorem claimTokens_claim (q : InMemoryStepQueue) (p : StepQueueClaimParams) :
    ∃ k, (stepQueue.next q (.claim p)).counter = q.counter + k ∧
      (stepQueue.out q (.claim p)).claimTokens =
        (List.range k).map (fun i => claimTokenOf (q.counter + 1 + i)) := by
  obtain ⟨k, hcounter, -, htokens, -⟩ := claim_spec q p
  refine ⟨k, hcounter, ?_⟩
  show (q.claim p).2.filterMap (·.claimToken) = _
  have hid : (q.claim p).2.filterMap (·.claimToken) =
      ((q.claim p).2.map (·.claimToken)).filterMap id := by
    simp [List.filterMap_map]
  rw [hid, htokens]
  simp [List.filterMap_map]

private theorem step_mints (q : InMemoryStepQueue) (o : StepQueueOp) (token : String)
    (h : token ∈ (stepQueue.out q o).claimTokens) :
    ¬ Minted q token ∧ Minted (stepQueue.next q o) token := by
  cases o with
  | claim p =>
    obtain ⟨k, hcounter, htokens⟩ := claimTokens_claim q p
    rw [htokens] at h
    obtain ⟨i, hi, rfl⟩ := List.mem_map.mp h
    rw [List.mem_range] at hi
    constructor
    · rintro ⟨n, hn, he⟩
      have := claimTokenOf_inj he
      omega
    · exact ⟨_, by omega, rfl⟩
  | advance | leaderLeases | enqueue | release | heartbeat | complete | fail | requeueStuck
  | consume | consumeSettled | purge => exact nomatch h

private theorem step_tokens_nodup (q : InMemoryStepQueue) (o : StepQueueOp) :
    (stepQueue.out q o).claimTokens.Nodup := by
  cases o with
  | claim p =>
    obtain ⟨k, -, htokens⟩ := claimTokens_claim q p
    rw [htokens]
    apply List.nodup_range.map
    intro i j hij
    have := claimTokenOf_inj hij
    omega
  | advance | leaderLeases | enqueue | release | heartbeat | complete | fail | requeueStuck
  | consume | consumeSettled | purge => exact List.nodup_nil

theorem run_tokens_nodup (q : InMemoryStepQueue) (ops : List StepQueueOp) :
    ((stepQueue.outs q ops).flatMap StepQueueAnswer.claimTokens).Nodup := by
  refine (Machine.nodup_outs_of_fresh ?_ step_mints step_tokens_nodup q ops).1
  rintro q o token ⟨n, hn, he⟩
  have := step_counter q o
  exact ⟨n, by omega, he⟩

/-! ## Creating and settling once -/

/-- The counter has handed the id out. -/
def IdIssued (id : String) (q : InMemoryStepQueue) : Prop :=
  ∃ n, n ≤ q.counter ∧ id = taskIdOf n

variable {q : InMemoryStepQueue}

theorem step_idIssued {id : String} (o : StepQueueOp)
    (h : IdIssued id q) : IdIssued id (stepQueue.next q o) := by
  obtain ⟨n, hn, he⟩ := h
  have := step_counter q o
  exact ⟨n, by omega, he⟩

private theorem not_creates_of_issued {id : String} (o : StepQueueOp)
    (hq : Issued q) (h : IdIssued id q) : creates id q o = false := by
  have hchange := step_task hq o id
  unfold creates
  generalize q.tasks.get id = before at hchange
  generalize (stepQueue.next q o).tasks.get id = after at hchange
  cases hchange with
  | created he hcounter =>
    obtain ⟨n, hn, hid⟩ := h
    have := taskIdOf_inj (he.symm.trans hid)
    omega
  | same => cases before <;> rfl
  | claimed | putBack | beat | settled | consumed | purged => rfl

theorem run_creates_le_one (config : InMemoryStepQueueConfig) (ops : List StepQueueOp)
    (id : String) : stepQueue.count (creates id) (.new config) ops ≤ 1 := by
  refine Machine.count_le_one_of_absorbing (I := Issued) (P := IdIssued id)
    (fun q o h => step_issued h o) (fun q o h => step_idIssued o h.2)
    (fun q o h => not_creates_of_issued o h.1 h.2) ?_ ops (issued_new config)
  intro q o hq hcreates
  simp only [creates, Bool.and_eq_true] at hcreates
  exact step_issued hq o id hcreates.2

/-- The id was handed out, and its task, if it is still stored, has an outcome. -/
def SettledFor (id : String) (q : InMemoryStepQueue) : Prop :=
  IdIssued id q ∧ ∀ t, q.tasks.get id = some t → t.status.settled = true

theorem settled_ne_running {t : MutableTask} (h : t.status.settled = true) :
    t.status ≠ .running ∧ t.status ≠ .pending := by
  constructor <;> intro he <;> rw [he] at h <;> exact nomatch h

private theorem step_settledFor {id : String} (o : StepQueueOp)
    (hq : Issued q) (h : SettledFor id q) : SettledFor id (stepQueue.next q o) := by
  refine ⟨step_idIssued o h.1, ?_⟩
  have hset := h.2
  have hno := not_creates_of_issued o hq h.1
  have hchange := step_task hq o id
  unfold creates at hno
  generalize q.tasks.get id = before at hchange hset hno
  generalize (stepQueue.next q o).tasks.get id = after at hchange hno
  intro t' ht'
  cases hchange with
  | same => exact hset t' ht'
  | created => exact nomatch hno
  | claimed hpending => exact absurd hpending (settled_ne_running (hset _ rfl)).2
  | putBack hrunning | beat hrunning | settled hrunning =>
    exact absurd hrunning (settled_ne_running (hset _ rfl)).1
  | consumed hset' hopen hstatus =>
    cases ht'
    rw [hstatus]
    exact hset'
  | purged => exact nomatch ht'

private theorem not_settles_of_settled {id : String} (o : StepQueueOp)
    (h : SettledFor id q) : settles id q o = false := by
  unfold settles
  split
  · rename_i t t' hget _
    have hne := (settled_ne_running (h.2 t hget)).1
    simp [hne]
  · rfl

theorem run_settles_le_one (config : InMemoryStepQueueConfig) (ops : List StepQueueOp)
    (id : String) : stepQueue.count (settles id) (.new config) ops ≤ 1 := by
  refine Machine.count_le_one_of_absorbing (I := Issued) (P := SettledFor id)
    (fun q o h => step_issued h o) (fun q o h => step_settledFor o h.1 h.2)
    (fun q o h => not_settles_of_settled o h.2) ?_ ops (issued_new config)
  intro q o hq hsettles
  unfold settles at hsettles
  split at hsettles
  · rename_i t t' hget hget'
    simp only [Bool.and_eq_true] at hsettles
    refine ⟨step_idIssued o (hq id (by rw [hget]; rfl)), fun t'' ht'' => ?_⟩
    rw [hget'] at ht''
    cases ht''
    exact hsettles.2
  · exact nomatch hsettles

/-! ## Stale tokens -/

private theorem currentClaim_stale {taskId token : String}
    (h : (q.tasks.get taskId).bind (·.claimToken) ≠ some token) :
    q.currentClaim taskId (some token) = none := by
  unfold currentClaim
  cases hget : q.tasks.get taskId with
  | none => rfl
  | some t =>
    rw [hget] at h
    have hne : ¬ t.claimToken = some token := h
    simp [hne]

theorem stale_token_noop {taskId token : String} {o : StepQueueOp} (ho : ActsUnder taskId token o)
    (h : (q.tasks.get taskId).bind (·.claimToken) ≠ some token) :
    stepQueue.step q o = (q, .done false) := by
  have hclaim := currentClaim_stale h
  cases ho with
  | complete hid htok => simp [stepQueue, complete, onCurrentClaim, hid, htok, hclaim]
  | fail hid htok => simp [stepQueue, fail, onCurrentClaim, hid, htok, hclaim]
  | release => simp [stepQueue, release, onCurrentClaim, hclaim]
  | heartbeat => simp [stepQueue, heartbeat, onCurrentClaim, hclaim]

/-- **Claim safety.** Over every run from an empty queue: claim tokens are pairwise
    distinct, every task is created once and settles at most once, and an operation
    under a stale token changes nothing and answers `false`. -/
theorem stepQueue_claim_safety (config : InMemoryStepQueueConfig) (ops : List StepQueueOp) :
    ((stepQueue.outs (.new config) ops).flatMap StepQueueAnswer.claimTokens).Nodup ∧
    (∀ id, stepQueue.count (creates id) (.new config) ops ≤ 1 ∧
      stepQueue.count (settles id) (.new config) ops ≤ 1) ∧
    (∀ taskId token o, ActsUnder taskId token o →
      ((stepQueue.run (.new config) ops).tasks.get taskId).bind (·.claimToken) ≠ some token →
      stepQueue.step (stepQueue.run (.new config) ops) o =
        (stepQueue.run (.new config) ops, .done false)) :=
  ⟨run_tokens_nodup _ ops,
    fun id => ⟨run_creates_le_one config ops id, run_settles_le_one config ops id⟩,
    fun _ _ _ ho h => stale_token_noop ho h⟩

end Promin.Distributed
