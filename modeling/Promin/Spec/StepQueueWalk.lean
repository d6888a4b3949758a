import Promin.Spec.StepQueueSteps

/-!
# The walk of a claim, and deliveries

A claim walks through the claimable tasks in order, chooses those that find room
under their concurrency cap (`chosen`) and hands the first `limit` of them out
(`handOut`).
-/

namespace Promin.Distributed

open InMemoryStepQueue List JsMap

namespace InMemoryStepQueue

/-! ## Choosing and handing out -/

/-- The tasks of the walk that find room under their cap. -/
def chosen : JsMap String Int → List (String × MutableTask) → List (String × MutableTask)
  | _, [] => []
  | counts, e :: rest =>
    match reserve counts e.2 with
    | none => chosen counts rest
    | some counts' => e :: chosen counts' rest

def handOut (workerId : String) :
    List (String × MutableTask) → InMemoryStepQueue → InMemoryStepQueue × List StepTask
  | [], q => (q, [])
  | (id, task) :: rest, q =>
    let task' := q.claimedTask workerId (q.counter + 1) task
    let q' := { q with tasks := q.tasks.set id task', counter := q.counter + 1 }
    ((handOut workerId rest q').1, task'.toStepTask :: (handOut workerId rest q').2)

def picked (q : InMemoryStepQueue) (p : StepQueueClaimParams) : List (String × MutableTask) :=
  (chosen q.runningPerKey (q.claimOrder p)).take p.limit.toNat

end InMemoryStepQueue

variable {q : InMemoryStepQueue} {p : StepQueueClaimParams}

theorem chosen_sublist (counts : JsMap String Int) (l : List (String × MutableTask)) :
    (chosen counts l).Sublist l := by
  induction l generalizing counts with
  | nil => exact List.Sublist.refl []
  | cons e rest ih =>
    simp only [chosen]
    split
    · exact (ih counts).cons e
    · exact (ih _).cons_cons e

theorem claimLoop_eq (l : List (String × MutableTask)) (counts : JsMap String Int)
    (claimed : Nat) (q : InMemoryStepQueue) :
    claimLoop p l counts claimed q =
      handOut p.workerId ((chosen counts l).take (p.limit - claimed).toNat) q := by
  induction l generalizing counts claimed q with
  | nil => simp [claimLoop, chosen, handOut]
  | cons e rest ih =>
    obtain ⟨id, task⟩ := e
    simp only [claimLoop, chosen]
    split
    · rename_i hfull
      have hzero : (p.limit - claimed).toNat = 0 := by omega
      rw [hzero, take_zero, handOut]
    · rename_i hroom
      cases hreserve : reserve counts task with
      | none => exact ih counts claimed q
      | some counts' =>
        have hleft : (p.limit - claimed).toNat = (p.limit - (claimed + 1 : Nat)).toNat + 1 := by
          omega
        simp only [hleft, take_succ_cons, handOut, ih]

theorem claim_eq_handOut (q : InMemoryStepQueue) (p : StepQueueClaimParams) :
    q.claim p = handOut p.workerId (q.picked p) q := by
  rw [claim, claimLoop_eq]
  simp [picked]

theorem picked_sublist (q : InMemoryStepQueue) (p : StepQueueClaimParams) :
    (q.picked p).Sublist (q.claimOrder p) :=
  (take_sublist _ _).trans (chosen_sublist _ _)

theorem picked_spec (q : InMemoryStepQueue) (p : StepQueueClaimParams) :
    ((q.picked p).map Prod.fst).Nodup ∧
      ∀ e ∈ q.picked p, q.tasks.get e.1 = some e.2 ∧ claimable p e.2 = true := by
  obtain ⟨hnd, hstored⟩ := claimOrder_spec q p
  constructor
  · exact ((picked_sublist q p).map Prod.fst).nodup hnd
  · intro e he
    exact hstored e ((picked_sublist q p).subset he)

theorem handOut_tasks (workerId : String) {l : List (String × MutableTask)}
    (hnd : (l.map Prod.fst).Nodup) (q : InMemoryStepQueue) (id : String) :
    (id ∉ l.map Prod.fst ∧ (handOut workerId l q).1.tasks.get id = q.tasks.get id) ∨
      ∃ t n, (id, t) ∈ l ∧
        (handOut workerId l q).1.tasks.get id = some (q.claimedTask workerId n t) := by
  induction l generalizing q with
  | nil => exact .inl ⟨not_mem_nil, rfl⟩
  | cons e rest ih =>
    obtain ⟨id₀, task⟩ := e
    obtain ⟨hfresh, hrest⟩ := nodup_cons.mp hnd
    simp only [handOut]
    rcases ih hrest { q with
        tasks := q.tasks.set id₀ (q.claimedTask workerId (q.counter + 1) task)
        counter := q.counter + 1 } with ⟨hnot, hget⟩ | ⟨t, n, hmem, hget⟩
    · by_cases hid : id₀ = id
      · subst hid
        rw [get_set_self] at hget
        exact .inr ⟨task, q.counter + 1, mem_cons_self, hget⟩
      · rw [get_set_ne _ _ hid] at hget
        left
        refine ⟨?_, hget⟩
        rw [map_cons, mem_cons]
        rintro (rfl | hmem)
        · exact hid rfl
        · exact hnot hmem
    · exact .inr ⟨t, n, mem_cons_of_mem _ hmem, hget⟩

theorem handOut_ids (workerId : String) (l : List (String × MutableTask))
    (q : InMemoryStepQueue) : (handOut workerId l q).2.map (·.id) = l.map (·.2.id) := by
  induction l generalizing q with
  | nil => rfl
  | cons e rest ih =>
    simp only [handOut, map_cons, ih]
    rfl

theorem handOut_frame (workerId : String) (l : List (String × MutableTask))
    (q : InMemoryStepQueue) :
    (handOut workerId l q).1.now = q.now ∧
      (handOut workerId l q).1.maxDeliveries = q.maxDeliveries := by
  induction l generalizing q with
  | nil => exact ⟨rfl, rfl⟩
  | cons e rest ih => exact ih _

theorem claim_ids (hk : Keyed q) (p : StepQueueClaimParams) :
    (q.claim p).2.map (·.id) = (q.picked p).map Prod.fst := by
  rw [claim_eq_handOut, handOut_ids]
  apply map_congr_left
  intro e he
  exact hk e.1 e.2 ((picked_spec q p).2 e he).1

/-! ## Rows, as far as claiming is concerned -/

structure SameRequest (t t' : MutableTask) : Prop where
  priority : t'.priority = t.priority
  createdAt : t'.createdAt = t.createdAt
  scope : t'.concurrencyScope = t.concurrencyScope
  key : t'.concurrencyKey = t.concurrencyKey
  limit : t'.concurrencyLimit = t.concurrencyLimit

theorem SameRequest.refl (t : MutableTask) : SameRequest t t := ⟨rfl, rfl, rfl, rfl, rfl⟩

theorem SameRequest.trans {t t' t'' : MutableTask} (h : SameRequest t t')
    (h' : SameRequest t' t'') : SameRequest t t'' :=
  ⟨h'.priority.trans h.priority, h'.createdAt.trans h.createdAt, h'.scope.trans h.scope,
    h'.key.trans h.key, h'.limit.trans h.limit⟩

/-- The row is there as before, in the same status and after as many deliveries. -/
inductive RowKept : Option MutableTask → Option MutableTask → Prop where
  | none : RowKept .none .none
  | some {t t' : MutableTask} (hrequest : SameRequest t t') (hstatus : t'.status = t.status)
      (hdeliveries : t'.deliveries = t.deliveries) : RowKept (.some t) (.some t')

theorem RowKept.refl (row : Option MutableTask) : RowKept row row := by
  cases row with
  | none => exact .none
  | some t => exact .some (.refl t) rfl rfl

theorem RowKept.trans {row row' row'' : Option MutableTask} (h : RowKept row row')
    (h' : RowKept row' row'') : RowKept row row'' := by
  cases h with
  | none => exact h'
  | some hrequest hstatus hdeliveries =>
    cases h' with
    | some hrequest' hstatus' hdeliveries' =>
      exact .some (hrequest.trans hrequest') (hstatus'.trans hstatus)
        (hdeliveries'.trans hdeliveries)

/-- The call hands out the task. -/
def handsOut (id : String) (q : InMemoryStepQueue) (o : StepQueueOp) : Bool :=
  match stepQueue.out q o with
  | .claimed tasks => tasks.any fun t => t.id == id
  | _ => false

/-- The operation takes the task back from its worker, who asked for that. -/
def releases (id : String) (q : InMemoryStepQueue) (o : StepQueueOp) : Bool :=
  match o with
  | .release taskId token => taskId == id && (q.release taskId token).2
  | _ => false

/-- What an operation of `q` does to the row under `id`, which it `handed` out or took back
    as `released`. -/
inductive RowStep (q : InMemoryStepQueue) (id : String) :
    Bool → Bool → Option MutableTask → Option MutableTask → Prop where
  | kept {row row' : Option MutableTask} (h : RowKept row row') : RowStep q id false false row row'
  | created {t : MutableTask} (hid : id = taskIdOf (q.counter + 1)) (hpending : t.status = .pending)
      (hdeliveries : t.deliveries = 0) (hnow : t.createdAt = q.now) :
      RowStep q id false false none (some t)
  | handedOut {t t' : MutableTask} (hpending : t.status = .pending)
      (hrunning : t'.status = .running) (hrequest : SameRequest t t')
      (hdeliveries : t'.deliveries = t.deliveries + 1) : RowStep q id true false (some t) (some t')
  | released {t t' : MutableTask} (hrunning : t.status = .running)
      (hpending : t'.status = .pending) (hrequest : SameRequest t t')
      (hdeliveries : t'.deliveries = max 0 (t.deliveries - 1)) :
      RowStep q id false true (some t) (some t')
  | requeued {t t' : MutableTask} (hrunning : t.status = .running)
      (hpending : t'.status = .pending) (hrequest : SameRequest t t')
      (hdeliveries : t'.deliveries = t.deliveries) (hleft : t.deliveries < q.maxDeliveries) :
      RowStep q id false false (some t) (some t')
  | ended {t t' : MutableTask} (hrunning : t.status = .running)
      (hsettled : t'.status.settled = true) (hrequest : SameRequest t t')
      (hdeliveries : t'.deliveries = t.deliveries) : RowStep q id false false (some t) (some t')
  | purged {t : MutableTask} (hsettled : t.status.settled = true) :
      RowStep q id false false (some t) none

private theorem claim_row (hk : Keyed q) (p : StepQueueClaimParams) (id : String) :
    RowStep q id (handsOut id q (.claim p)) false (q.tasks.get id)
      ((q.claim p).1.tasks.get id) := by
  obtain ⟨hnd, hstored⟩ := picked_spec q p
  have hhands : handsOut id q (.claim p) = true ↔ id ∈ (q.picked p).map Prod.fst := by
    rw [← claim_ids hk p]
    show ((q.claim p).2.any fun t => t.id == id) = true ↔ _
    simp
  rw [claim_eq_handOut]
  rcases handOut_tasks p.workerId hnd q id with ⟨hnot, hget⟩ | ⟨t, n, hmem, hget⟩
  · have hno : handsOut id q (.claim p) = false := by
      rw [← Bool.not_eq_true, hhands]
      exact hnot
    rw [hget, hno]
    exact .kept (.refl _)
  · obtain ⟨hstore, hclaimable⟩ := hstored _ hmem
    have hyes : handsOut id q (.claim p) = true :=
      hhands.mpr (mem_map.mpr ⟨_, hmem, rfl⟩)
    rw [hget, hstore, hyes]
    exact .handedOut (pending_of_claimable hclaimable) rfl ⟨rfl, rfl, rfl, rfl, rfl⟩ rfl

private theorem onCurrentClaim_row (q : InMemoryStepQueue) (taskId : String)
    (token : Option String) (f : MutableTask → MutableTask) (id : String)
    (hf : ∀ t, t.status = .running → RowStep q id false false (some t) (some (f t))) :
    RowStep q id false false (q.tasks.get id)
      ((q.onCurrentClaim taskId token f).1.tasks.get id) := by
  rcases onCurrentClaim_cases q taskId token f with h | ⟨t, hget, hrun, -, h⟩
  · rw [h]
    exact .kept (.refl _)
  · rw [h]
    by_cases hid : taskId = id
    · subst hid
      rw [hget, get_set_self]
      exact hf t hrun
    · rw [get_set_ne _ _ hid]
      exact .kept (.refl _)

private theorem release_row (q : InMemoryStepQueue) (taskId token id : String) :
    RowStep q id false (releases id q (.release taskId token)) (q.tasks.get id)
      ((q.release taskId token).1.tasks.get id) := by
  unfold releases release
  rcases onCurrentClaim_cases q taskId (some token) (fun task =>
      { backToPending task with deliveries := max 0 (task.deliveries - 1) })
    with h | ⟨t, hget, hrun, -, h⟩
  · simp only [h, Bool.and_false]
    exact .kept (.refl _)
  · simp only [h, Bool.and_true]
    by_cases hid : taskId = id
    · subst hid
      rw [hget, get_set_self, beq_self_eq_true]
      exact .released hrun rfl ⟨rfl, rfl, rfl, rfl, rfl⟩ rfl
    · rw [get_set_ne _ _ hid, beq_false_of_ne hid]
      exact .kept (.refl _)

private theorem enqueue_row (hq : Issued q) (p : StepQueueEnqueueParams) (id : String) :
    RowStep q id false false (q.tasks.get id) ((q.enqueue p).1.tasks.get id) := by
  rcases enqueue_cases q p with ⟨existing, -, h⟩ | ⟨-, h⟩
  · rw [h]
    exact .kept (.refl _)
  · rw [h]
    by_cases hid : taskIdOf (q.counter + 1) = id
    · subst hid
      rw [hq.next_free, get_set_self]
      exact .created rfl rfl rfl rfl
    · rw [get_set_ne _ _ hid]
      exact .kept (.refl _)

private theorem requeueStuck_row (q : InMemoryStepQueue) (p : StepQueueRequeueParams)
    (id : String) :
    RowStep q id false false (q.tasks.get id) ((q.requeueStuck p).1.tasks.get id) := by
  rcases requeueStuck_cases q p with h | h
  · rw [h]
    exact .kept (.refl _)
  · rw [h]
    simp only [get_mapValues]
    cases hget : q.tasks.get id with
    | none => exact .kept .none
    | some t =>
      simp only [Option.map_some, sweptTask]
      split
      · rename_i hstuck
        have hrunning : t.status = .running := by
          simp only [stuck, Bool.and_eq_true, beq_iff_eq] at hstuck
          exact hstuck.1
        split
        · exact .ended hrunning rfl ⟨rfl, rfl, rfl, rfl, rfl⟩ rfl
        · rename_i hleft
          have hlt : t.deliveries < q.maxDeliveries := by
            simpa [deadLettered] using hleft
          exact .requeued hrunning rfl ⟨rfl, rfl, rfl, rfl, rfl⟩ rfl hlt
      · exact .kept (.refl _)

private theorem purge_row (q : InMemoryStepQueue) (completedBefore : Int) (id : String) :
    RowStep q id false false (q.tasks.get id) ((q.purge completedBefore).1.tasks.get id) := by
  simp only [purge, get_filter]
  cases hget : q.tasks.get id with
  | none => exact .kept .none
  | some t =>
    by_cases hp : purgeable completedBefore t = true
    · rw [Option.filter_some_neg (by simp [hp])]
      simp only [purgeable, Bool.and_eq_true] at hp
      exact .purged hp.1
    · rw [Option.filter_some_pos (by simp [hp])]
      exact .kept (.refl _)

private theorem consume_row (q : InMemoryStepQueue) (taskId id : String) :
    RowKept (q.tasks.get id) ((q.consume taskId).1.tasks.get id) := by
  rcases consume_cases q taskId with h | ⟨t, hget, -, -, h⟩
  · rw [h]
    exact .refl _
  · rw [h]
    by_cases hid : taskId = id
    · subst hid
      rw [hget, get_set_self]
      exact .some ⟨rfl, rfl, rfl, rfl, rfl⟩ rfl rfl
    · rw [get_set_ne _ _ hid]
      exact .refl _

private theorem consumeSettled_row (workflowId : String) (stepNames : List String)
    (q : InMemoryStepQueue) (id : String) :
    RowKept (q.tasks.get id) ((q.consumeSettled workflowId stepNames).1.tasks.get id) := by
  induction stepNames generalizing q with
  | nil => exact .refl _
  | cons stepName rest ih =>
    have hstep : RowKept (q.tasks.get id)
        ((q.consumeSettledStep workflowId stepName).1.tasks.get id) := by
      unfold consumeSettledStep
      split
      · exact .refl _
      · exact consume_row q _ id
    exact hstep.trans (ih _)

theorem step_row (hq : Issued q) (hk : Keyed q) (o : StepQueueOp) (id : String) :
    RowStep q id (handsOut id q o) (releases id q o) (q.tasks.get id)
      ((stepQueue.next q o).tasks.get id) := by
  cases o with
  | advance ms | leaderLeases leases => exact .kept (.refl _)
  | enqueue p => exact enqueue_row hq p id
  | claim p => exact claim_row hk p id
  | release taskId token => exact release_row q taskId token id
  | heartbeat taskId token =>
    exact onCurrentClaim_row q _ _ _ id fun t _ => .kept (.some ⟨rfl, rfl, rfl, rfl, rfl⟩ rfl rfl)
  | complete p | fail p =>
    exact onCurrentClaim_row q _ _ _ id fun t ht => .ended ht rfl ⟨rfl, rfl, rfl, rfl, rfl⟩ rfl
  | requeueStuck p => exact requeueStuck_row q p id
  | consume taskId => exact .kept (consume_row q taskId id)
  | consumeSettled workflowId stepNames =>
    exact .kept (consumeSettled_row workflowId stepNames q id)
  | purge completedBefore => exact purge_row q completedBefore id

end Promin.Distributed
