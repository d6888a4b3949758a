import Promin.ForStd.StableSort
import Promin.Spec.StepQueueCaps

/-!
# Claim order and deliveries

A claim answers the first `limit` tasks that find room under their caps
(`admitted`), in the order of priority and then of enqueueing (`TurnBefore`).
-/

namespace Promin.Distributed

open InMemoryStepQueue List JsMap Option

/-! ## What a claim should answer -/

/-- There is room under the cap of the task beside the running tasks of its group and the
    ones picked earlier. -/
def roomUnderCap (q : InMemoryStepQueue) (earlier : List MutableTask) (t : MutableTask) : Bool :=
  match t.group, t.concurrencyLimit with
  | some group, some L =>
    decide ((runningOf q group + earlier.countP fun u => decide (u.group = some group) : Int) < L)
  | _, _ => true

/-- The tasks of a walk with room under their caps, `earlier` being picked before it. -/
def admitted (q : InMemoryStepQueue) :
    List MutableTask → List (String × MutableTask) → List (String × MutableTask)
  | _, [] => []
  | earlier, e :: rest =>
    if roomUnderCap q earlier e.2 then e :: admitted q (earlier ++ [e.2]) rest
    else admitted q earlier rest

def EnqueuedBefore (id id' : String) : Prop :=
  ∃ m n, id = taskIdOf m ∧ id' = taskIdOf n ∧ m < n

/-- It is the turn of the first task before the second: its priority is higher, or it is the
    same and the first was enqueued earlier. -/
def TurnBefore (a b : String × MutableTask) : Prop :=
  b.2.priority < a.2.priority ∨ (a.2.priority = b.2.priority ∧ EnqueuedBefore a.1 b.1)

/-- Of the claimable tasks of a group either all carry a cap or none does. -/
def CappedAlike (q : InMemoryStepQueue) (p : StepQueueClaimParams) : Prop :=
  ∀ t ∈ q.tasks.values, claimable p t = true → t.capped = true →
    ∀ u ∈ q.tasks.values, claimable p u = true → u.group = t.group → u.capped = true

instance (q : InMemoryStepQueue) (p : StepQueueClaimParams) : Decidable (CappedAlike q p) :=
  inferInstanceAs (Decidable (∀ t ∈ q.tasks.values, _ → _ → ∀ u ∈ q.tasks.values, _ → _ → _))

variable {q : InMemoryStepQueue} {p : StepQueueClaimParams}

/-! ## The order of the walk -/

/-- Ids are in the order of creation, and so are the creation times, none of them in the
    future. -/
structure Chronological (q : InMemoryStepQueue) : Prop where
  keys : q.tasks.keys.Pairwise EnqueuedBefore
  created : ∀ {id id' t t'}, q.tasks.get id = some t → q.tasks.get id' = some t' →
    EnqueuedBefore id id' → t.createdAt ≤ t'.createdAt
  past : ∀ {id t}, q.tasks.get id = some t → t.createdAt ≤ q.now

variable {id : String} {t : MutableTask} {counts : JsMap String Int}

theorem enqueuedBefore_total (hq : Issued q) {id' : String} (h : (q.tasks.get id).isSome)
    (h' : (q.tasks.get id').isSome) :
    EnqueuedBefore id id' ∨ id = id' ∨ EnqueuedBefore id' id := by
  obtain ⟨m, -, rfl⟩ := hq id h
  obtain ⟨n, -, rfl⟩ := hq id' h'
  rcases Nat.lt_trichotomy m n with hlt | rfl | hlt
  · exact .inl ⟨m, n, rfl, rfl, hlt⟩
  · exact .inr (.inl rfl)
  · exact .inr (.inr ⟨n, m, rfl, rfl, hlt⟩)

theorem claimsBefore_total (a b : String × MutableTask) :
    claimsBefore a b = true ∨ claimsBefore b a = true := by
  simp only [claimsBefore, Bool.or_eq_true, Bool.and_eq_true, decide_eq_true_eq]
  omega

theorem claimsBefore_trans (a b c : String × MutableTask) (hab : claimsBefore a b = true)
    (hbc : claimsBefore b c = true) : claimsBefore a c = true := by
  simp only [claimsBefore, Bool.or_eq_true, Bool.and_eq_true, decide_eq_true_eq] at hab hbc ⊢
  omega

theorem claimOrder_turns (hq : Issued q) (hc : Chronological q) (p : StepQueueClaimParams) :
    (q.claimOrder p).Pairwise TurnBefore := by
  have hentries : (q.tasks.entries.filter fun e => claimable p e.2).Pairwise
      fun a b => EnqueuedBefore a.1 b.1 :=
    (pairwise_map.mp hc.keys).sublist filter_sublist
  have hsorted := StableSort.pairwise_insertionSort
    (r := fun a b => claimsBefore a b = true) claimsBefore_total claimsBefore_trans hentries
  apply List.Pairwise.imp_of_mem _ hsorted
  intro a b ha hb hab
  have hget : q.tasks.get a.1 = some a.2 := ((claimOrder_spec q p).2 a ha).1
  have hget' : q.tasks.get b.1 = some b.2 := ((claimOrder_spec q p).2 b hb).1
  obtain ⟨hbefore, hequal⟩ := hab
  simp only [claimsBefore, Bool.or_eq_true, Bool.and_eq_true, decide_eq_true_eq] at hbefore hequal
  rcases hbefore with hpriority | ⟨hpriority, hcreated⟩
  · exact .inl hpriority
  · right
    refine ⟨hpriority.symm, ?_⟩
    -- An earlier task has no later creation time; equal times leave the order of creation.
    rcases enqueuedBefore_total hq (isSome_of_mem hget) (isSome_of_mem hget')
      with h | hsame | h
    · exact h
    · rw [hsame, hget'] at hget
      have htask : b.2 = a.2 := Option.some.inj hget
      exact hequal (.inr ⟨by rw [htask], by rw [htask]⟩)
    · have hle := hc.created hget' hget h
      exact hequal (.inr ⟨hpriority.symm, hle⟩)

theorem createdAt_step (hq : Issued q) (hk : Keyed q) {o : StepQueueOp}
    {t' : MutableTask} (hget : (stepQueue.next q o).tasks.get id = some t') :
    (id = taskIdOf (q.counter + 1) ∧ t'.createdAt = q.now) ∨
      ∃ t, q.tasks.get id = some t ∧ t'.createdAt = t.createdAt := by
  have hrow := step_row hq hk o id
  rw [hget] at hrow
  generalize handsOut id q o = isHanded at hrow
  generalize releases id q o = isReleased at hrow
  generalize hbefore : q.tasks.get id = before at hrow
  cases hrow with
  | kept hkept =>
    cases hkept with
    | some hrequest => exact .inr ⟨_, rfl, hrequest.createdAt⟩
  | created hid _ _ hnow => exact .inl ⟨hid, hnow⟩
  | handedOut _ _ hrequest | released _ _ hrequest | requeued _ _ hrequest | ended _ _ hrequest =>
    exact .inr ⟨_, rfl, hrequest.createdAt⟩

private theorem onCurrentClaim_frame (q : InMemoryStepQueue) (taskId : String)
    (token : Option String) (f : MutableTask → MutableTask) :
    (q.onCurrentClaim taskId token f).1.tasks.keys = q.tasks.keys ∧
      (q.onCurrentClaim taskId token f).1.now = q.now ∧
      (q.onCurrentClaim taskId token f).1.maxDeliveries = q.maxDeliveries := by
  rcases onCurrentClaim_cases q taskId token f with h | ⟨t, hget, -, -, h⟩
  · rw [h]
    exact ⟨rfl, rfl, rfl⟩
  · rw [h]
    exact ⟨keys_set_of_get hget _, rfl, rfl⟩

private theorem handOut_keys (workerId : String) {l : List (String × MutableTask)}
    {q : InMemoryStepQueue} (hl : ∀ e ∈ l, (q.tasks.get e.1).isSome) :
    (handOut workerId l q).1.tasks.keys = q.tasks.keys := by
  induction l generalizing q with
  | nil => rfl
  | cons e rest ih =>
    obtain ⟨id, task⟩ := e
    obtain ⟨old, hget⟩ := isSome_iff_exists.mp (hl _ mem_cons_self)
    simp only [handOut]
    rw [ih]
    · exact keys_set_of_get hget _
    · intro e he
      have hstored := hl e (mem_cons_of_mem _ he)
      simp only [get_set]
      split
      · rfl
      · exact hstored

private theorem consume_frame (q : InMemoryStepQueue) (taskId : String) :
    (q.consume taskId).1.tasks.keys = q.tasks.keys ∧ (q.consume taskId).1.now = q.now ∧
      (q.consume taskId).1.maxDeliveries = q.maxDeliveries := by
  rcases consume_cases q taskId with h | ⟨t, hget, -, -, h⟩
  · rw [h]
    exact ⟨rfl, rfl, rfl⟩
  · rw [h]
    exact ⟨keys_set_of_get hget _, rfl, rfl⟩

private theorem consumeSettled_frame (workflowId : String) (stepNames : List String)
    (q : InMemoryStepQueue) :
    (q.consumeSettled workflowId stepNames).1.tasks.keys = q.tasks.keys ∧
      (q.consumeSettled workflowId stepNames).1.now = q.now ∧
      (q.consumeSettled workflowId stepNames).1.maxDeliveries = q.maxDeliveries := by
  induction stepNames generalizing q with
  | nil => exact ⟨rfl, rfl, rfl⟩
  | cons stepName rest ih =>
    have hstep : (q.consumeSettledStep workflowId stepName).1.tasks.keys = q.tasks.keys ∧
        (q.consumeSettledStep workflowId stepName).1.now = q.now ∧
        (q.consumeSettledStep workflowId stepName).1.maxDeliveries = q.maxDeliveries := by
      unfold consumeSettledStep
      split
      · exact ⟨rfl, rfl, rfl⟩
      · exact consume_frame q _
    obtain ⟨hkeys, hnow, hmax⟩ := ih (q.consumeSettledStep workflowId stepName).1
    exact ⟨hkeys.trans hstep.1, hnow.trans hstep.2.1, hmax.trans hstep.2.2⟩

/-- An operation adds at most the next id to the keys, does not turn the clock back, and keeps
    the configured bound. -/
theorem step_frame (hq : Issued q) (o : StepQueueOp) :
    (stepQueue.next q o).tasks.keys.Sublist (q.tasks.keys ++ [taskIdOf (q.counter + 1)]) ∧
      q.now ≤ (stepQueue.next q o).now ∧
      (stepQueue.next q o).maxDeliveries = q.maxDeliveries := by
  have hkept : ∀ q' : InMemoryStepQueue,
      q'.tasks.keys = q.tasks.keys ∧ q'.now = q.now ∧ q'.maxDeliveries = q.maxDeliveries →
      q'.tasks.keys.Sublist (q.tasks.keys ++ [taskIdOf (q.counter + 1)]) ∧ q.now ≤ q'.now ∧
        q'.maxDeliveries = q.maxDeliveries := by
    rintro q' ⟨hkeys, hnow, hmax⟩
    exact ⟨hkeys ▸ sublist_append_left _ _, Int.le_of_eq hnow.symm, hmax⟩
  cases o with
  | advance ms =>
    refine ⟨sublist_append_left _ _, ?_, rfl⟩
    show q.now ≤ q.now + ms
    omega
  | leaderLeases leases => exact hkept _ ⟨rfl, rfl, rfl⟩
  | enqueue p =>
    show ((q.enqueue p).1.tasks.keys.Sublist _) ∧ q.now ≤ (q.enqueue p).1.now ∧
      (q.enqueue p).1.maxDeliveries = _
    rcases enqueue_cases q p with ⟨existing, -, h⟩ | ⟨-, h⟩
    · rw [h]
      exact hkept _ ⟨rfl, rfl, rfl⟩
    · rw [h]
      refine ⟨?_, Int.le_refl _, rfl⟩
      rw [keys_set_of_none hq.next_free]
  | claim p =>
    show ((q.claim p).1.tasks.keys.Sublist _) ∧ q.now ≤ (q.claim p).1.now ∧
      (q.claim p).1.maxDeliveries = _
    rw [claim_eq_handOut]
    obtain ⟨hnow, hmax⟩ := handOut_frame p.workerId (q.picked p) q
    apply hkept _ ⟨handOut_keys _ fun e he => ?_, hnow, hmax⟩
    exact isSome_of_mem ((picked_spec q p).2 e he).1
  | release taskId token | heartbeat taskId token | complete p | fail p =>
    exact hkept _ (onCurrentClaim_frame q _ _ _)
  | requeueStuck p =>
    apply hkept
    show (q.requeueStuck p).1.tasks.keys = _ ∧ (q.requeueStuck p).1.now = _ ∧
      (q.requeueStuck p).1.maxDeliveries = _
    rcases requeueStuck_cases q p with h | h
    · rw [h]
      exact ⟨rfl, rfl, rfl⟩
    · rw [h]
      exact ⟨keys_mapValues _ _, rfl, rfl⟩
  | consume taskId => exact hkept _ (consume_frame q taskId)
  | consumeSettled workflowId stepNames =>
    exact hkept _ (consumeSettled_frame workflowId stepNames q)
  | purge completedBefore =>
    refine ⟨?_, Int.le_refl _, rfl⟩
    exact (filter_sublist.map Prod.fst).trans (sublist_append_left _ _)

variable (config : InMemoryStepQueueConfig)

theorem chronological_new : Chronological (.new config) where
  keys := List.Pairwise.nil
  created := fun hget => nomatch hget
  past := fun hget => nomatch hget

theorem step_chronological (hq : Issued q) (hk : Keyed q) (hc : Chronological q)
    (o : StepQueueOp) : Chronological (stepQueue.next q o) := by
  obtain ⟨hkeys, hnow, -⟩ := step_frame hq o
  constructor
  · apply List.Pairwise.sublist hkeys
    rw [pairwise_append]
    refine ⟨hc.keys, pairwise_singleton _ _, ?_⟩
    intro id hid id' hid'
    obtain ⟨m, hm, rfl⟩ := hq id ((mem_keys_iff _ _).mp hid)
    exact ⟨m, q.counter + 1, rfl, mem_singleton.mp hid', by omega⟩
  · intro id id' t t' hget hget' hbefore
    rcases createdAt_step hq hk hget with ⟨rfl, hcreated⟩ | ⟨u, hu, hcreated⟩
    · -- The task just created is the last one.
      exfalso
      obtain ⟨m, n, hm, rfl, hlt⟩ := hbefore
      have heq := taskIdOf_inj hm
      rcases createdAt_step hq hk hget' with ⟨hid, -⟩ | ⟨u', hu', -⟩
      · have := taskIdOf_inj hid
        omega
      · obtain ⟨n', hn', hid⟩ := hq _ (isSome_of_mem hu')
        have := taskIdOf_inj hid
        omega
    · rw [hcreated]
      rcases createdAt_step hq hk hget' with ⟨-, hcreated'⟩ | ⟨u', hu', hcreated'⟩
      · rw [hcreated']
        exact hc.past hu
      · rw [hcreated']
        exact hc.created hu hu' hbefore
  · intro id t hget
    rcases createdAt_step hq hk hget with ⟨-, hcreated⟩ | ⟨u, hu, hcreated⟩
    · omega
    · have := hc.past hu
      omega

/-! ## The tasks with room -/

def CountersMatch (q : InMemoryStepQueue) (p : StepQueueClaimParams) (counts : JsMap String Int)
    (earlier : List MutableTask) : Prop :=
  ∀ t ∈ q.tasks.values, claimable p t = true → t.capped = true →
    ∀ group k, t.group = some group → concurrencyCounterKey t = some k →
      counterOf counts k =
        runningOf q group + (earlier.countP fun u => decide (u.group = some group) : Nat)

theorem countersMatch_runningPerKey (hapart : GroupsApart q p) :
    CountersMatch q p q.runningPerKey [] := by
  intro t ht hclaimable hcapped group k hgroup hk
  have hcount : (q.tasks.values.countP fun u =>
      decide (u.status = .running) && decide (concurrencyCounterKey u = some k)) =
      runningOf q group := by
    apply countP_congr
    intro u hu
    simp only [Bool.and_eq_true, decide_eq_true_eq]
    apply and_congr_right
    intro hrunning
    constructor
    · intro hku
      rw [← hgroup]
      exact (hapart t ht hclaimable hcapped).2 u hu (by simp [countedBy, hrunning])
        (hku.trans hk.symm)
    · intro hgu
      rw [← hk]
      exact counterKey_congr (hgu.trans hgroup.symm) (by simp [hgroup])
  rw [counterOf_runningPerKey, hcount, countP_nil]
  omega

variable {earlier : List MutableTask}

theorem CountersMatch.reserve {counts' : JsMap String Int}
    (h : CountersMatch q p counts earlier) (hapart : GroupsApart q p)
    (halike : CappedAlike q p) (ht : t ∈ q.tasks.values) (hclaimable : claimable p t = true)
    (hreserve : reserve counts t = some counts') :
    CountersMatch q p counts' (earlier ++ [t]) := by
  intro u hu hclaimable' hcapped group k hgroup hk
  have hadds := (reserve_eq_some hreserve).1 k
  have hmatch := h u hu hclaimable' hcapped group k hgroup hk
  have hmoves : addsTo k t = decide (t.group = some group) := by
    rw [Bool.eq_iff_iff]
    simp only [addsTo, Bool.and_eq_true, decide_eq_true_eq]
    constructor
    · rintro ⟨hkt, hlimit⟩
      obtain ⟨scope, key, hgt, -⟩ := group_of_counterKey hkt
      have hcounted : countedBy p t = true := by
        simp [countedBy, hclaimable, MutableTask.capped, hgt, hlimit]
      rw [← hgroup]
      exact (hapart u hu hclaimable' hcapped).2 t ht hcounted (hkt.trans hk.symm)
    · intro hgt
      have hsame : t.group = u.group := hgt.trans hgroup.symm
      have hcapped' := halike u hu hclaimable' hcapped t ht hclaimable hsame
      simp only [MutableTask.capped, Bool.and_eq_true] at hcapped'
      refine ⟨?_, hcapped'.2⟩
      rw [← hk]
      exact counterKey_congr hsame (by simp [hgroup])
  rw [hadds, hmatch, countP_append, countP_singleton, hmoves]
  cases decide (t.group = some group) <;> simp only [Bool.false_eq_true, ↓reduceIte] <;> omega

theorem reserve_isSome (h : CountersMatch q p counts earlier) (hapart : GroupsApart q p)
    (ht : t ∈ q.tasks.values) (hclaimable : claimable p t = true) :
    (reserve counts t).isSome = roomUnderCap q earlier t := by
  cases hgroup : t.group with
  | none =>
    have hno : concurrencyCounterKey t = none := by
      cases hk : concurrencyCounterKey t with
      | none => rfl
      | some k =>
        obtain ⟨scope, key, hgt, -⟩ := group_of_counterKey hk
        rw [hgroup] at hgt
        exact nomatch hgt
    simp [reserve, hno, roomUnderCap, hgroup]
  | some group =>
    cases hlimit : t.concurrencyLimit with
    | none => simp [reserve, hlimit, roomUnderCap, hgroup]
    | some L =>
      have hcapped : t.capped = true := by simp [MutableTask.capped, hgroup, hlimit]
      obtain ⟨k, hk⟩ := isSome_iff_exists.mp (hapart t ht hclaimable hcapped).1
      have hmatch := h t ht hclaimable hcapped group k hgroup hk
      cases hreserve : reserve counts t with
      | none =>
        obtain ⟨k', L', hk', hL', hfull⟩ := reserve_eq_none hreserve
        rw [hk] at hk'
        rw [hlimit] at hL'
        cases hk'
        cases hL'
        simp only [roomUnderCap, hgroup, hlimit, isSome_none]
        symm
        apply decide_eq_false
        omega
      | some counts' =>
        have hroom := (reserve_eq_some hreserve).2 k L hk hlimit
        simp only [roomUnderCap, hgroup, hlimit, isSome_some]
        symm
        apply decide_eq_true
        omega

theorem chosen_eq_admitted (hapart : GroupsApart q p) (halike : CappedAlike q p)
    {l : List (String × MutableTask)} (hl : ∀ e ∈ l, e.2 ∈ q.tasks.values ∧ claimable p e.2 = true)
    (h : CountersMatch q p counts earlier) : chosen counts l = admitted q earlier l := by
  induction l generalizing counts earlier with
  | nil => rfl
  | cons e rest ih =>
    obtain ⟨hmem, hclaimable⟩ := hl e mem_cons_self
    have hrest : ∀ e ∈ rest, e.2 ∈ q.tasks.values ∧ claimable p e.2 = true :=
      fun e he => hl e (mem_cons_of_mem _ he)
    have hroom := reserve_isSome h hapart hmem hclaimable
    simp only [chosen, admitted]
    cases hreserve : reserve counts e.2 with
    | none =>
      rw [hreserve] at hroom
      simp only [← hroom, isSome_none, Bool.false_eq_true, ↓reduceIte]
      exact ih hrest h
    | some counts' =>
      rw [hreserve] at hroom
      simp only [← hroom, isSome_some, ↓reduceIte]
      rw [ih hrest (h.reserve hapart halike hmem hclaimable hreserve)]

/-! ## Deliveries -/

/-- The account of one task's deliveries under a bound: it was `handed` out as often as it was
    delivered and `released`, and is pending only with deliveries left. -/
def Accounted (bound : Int) (id : String) (q : InMemoryStepQueue) (handed released : Nat) : Prop :=
  match q.tasks.get id with
  | some t => (handed : Int) = t.deliveries + released ∧ 0 ≤ t.deliveries ∧
      t.deliveries ≤ bound ∧ (t.status = .running → 1 ≤ t.deliveries) ∧
      (t.status = .pending → t.deliveries < bound)
  | none => (handed : Int) ≤ bound + released ∧
      (IdIssued id q ∨ (handed = 0 ∧ released = 0))

theorem Accounted.le {bound : Int} {handed released : Nat}
    (h : Accounted bound id q handed released) : (handed : Int) ≤ bound + released := by
  unfold Accounted at h
  split at h
  · omega
  · exact h.1

theorem step_accounted (hq : Issued q) (hk : Keyed q) {bound : Int} (hpos : 1 ≤ bound)
    (hbound : q.maxDeliveries ≤ bound) {handed released : Nat}
    (h : Accounted bound id q handed released) (o : StepQueueOp) :
    Accounted bound id (stepQueue.next q o) (handed + if handsOut id q o then 1 else 0)
      (released + if releases id q o then 1 else 0) := by
  have hrow := step_row hq hk o id
  have hissued : IdIssued id q → IdIssued id (stepQueue.next q o) := step_idIssued o
  have hstored : (q.tasks.get id).isSome → IdIssued id q := hq id
  unfold Accounted at h ⊢
  generalize handsOut id q o = isHanded at hrow ⊢
  generalize releases id q o = isReleased at hrow ⊢
  generalize (stepQueue.next q o).tasks.get id = after at hrow ⊢
  generalize q.tasks.get id = before at hrow h hstored
  cases hrow with
  | kept hkept =>
    cases hkept with
    | none => exact ⟨h.1, h.2.imp hissued fun hzero => hzero⟩
    | some hrequest hstatus hdeliveries =>
      simp only [hstatus, hdeliveries, Bool.false_eq_true, ↓reduceIte, Nat.add_zero]
      exact h
  | created hid hpending hdeliveries =>
    -- The id is new: nothing was handed out under it.
    have hzero : handed = 0 ∧ released = 0 := by
      rcases h.2 with ⟨n, hn, hissue⟩ | hzero
      · have := taskIdOf_inj (hid.symm.trans hissue)
        omega
      · exact hzero
    simp only [hpending, hdeliveries, hzero.1, hzero.2]
    simp only [Bool.false_eq_true, ↓reduceIte, reduceCtorEq, false_implies, true_implies, true_and]
    omega
  | handedOut hpending hrunning hrequest hdeliveries =>
    obtain ⟨hcount, hlo, -, -, hleft⟩ := h
    have hlt := hleft hpending
    simp only [hrunning, hdeliveries, ↓reduceIte, Bool.false_eq_true, reduceCtorEq, false_implies,
      true_implies, and_true]
    omega
  | released hrunning hpending hrequest hdeliveries =>
    obtain ⟨hcount, hlo, hhi, hdelivered, -⟩ := h
    have hone := hdelivered hrunning
    simp only [hpending, hdeliveries, ↓reduceIte, Bool.false_eq_true, reduceCtorEq, false_implies,
      true_implies, true_and]
    omega
  | requeued hrunning hpending hrequest hdeliveries hleft =>
    obtain ⟨hcount, hlo, hhi, -, -⟩ := h
    simp only [hpending, hdeliveries, ↓reduceIte, Bool.false_eq_true, reduceCtorEq, false_implies,
      true_implies, true_and]
    omega
  | ended hrunning hsettled hrequest hdeliveries =>
    obtain ⟨hcount, hlo, hhi, -, -⟩ := h
    have hne := settled_ne_running hsettled
    simp only [hdeliveries, hne.1, hne.2, ↓reduceIte, Bool.false_eq_true, false_implies, and_true]
    omega
  | purged hsettled =>
    obtain ⟨hcount, hlo, hhi, -, -⟩ := h
    refine ⟨?_, .inl (hissued (hstored rfl))⟩
    simp only [Bool.false_eq_true, ↓reduceIte, Nat.add_zero]
    omega

/-- What every run keeps of the ids, the order and the configured bound. -/
structure WellOrdered (config : InMemoryStepQueueConfig) (q : InMemoryStepQueue) : Prop where
  issued : Issued q
  keyed : Keyed q
  chronological : Chronological q
  bound : q.maxDeliveries = (InMemoryStepQueue.new config).maxDeliveries

theorem run_wellOrdered (ops : List StepQueueOp) :
    WellOrdered config (stepQueue.run (.new config) ops) := by
  apply Machine.run_induction (P := WellOrdered config) _ ops
  · exact ⟨issued_new config, keyed_new config, chronological_new config, rfl⟩
  · intro q o h
    exact ⟨step_issued h.issued o, step_keyed h.issued h.keyed o,
      step_chronological h.issued h.keyed h.chronological o,
      (step_frame h.issued o).2.2.trans h.bound⟩

theorem run_accounted (ops : List StepQueueOp) (id : String) :
    Accounted (max 1 (InMemoryStepQueue.new config).maxDeliveries) id
      (stepQueue.run (.new config) ops) (stepQueue.count (handsOut id) (.new config) ops)
      (stepQueue.count (releases id) (.new config) ops) := by
  induction ops using List.reverseRecOn with
  | nil =>
    refine ⟨?_, .inr ⟨rfl, rfl⟩⟩
    show ((0 : Nat) : Int) ≤ max 1 _ + ((0 : Nat) : Int)
    omega
  | append_singleton ops o ih =>
    have h := run_wellOrdered config ops
    rw [Machine.run_snoc, Machine.count_snoc, Machine.count_snoc]
    exact step_accounted h.issued h.keyed (by omega) (by rw [h.bound]; omega) ih o

theorem requeueStuck_ok {q : InMemoryStepQueue} {p : StepQueueRequeueParams} {swept : Nat × Nat}
    (h : (q.requeueStuck p).2 = .ok swept) :
    (q.requeueStuck p).1 =
      { q with tasks := q.tasks.mapValues fun _ task => q.sweptTask p.mode task } := by
  unfold requeueStuck at h ⊢
  simp only at h ⊢
  split at h
  · exact nomatch h
  · rfl

theorem requeueStuck_deadLetters (ops : List StepQueueOp)
    {p : StepQueueRequeueParams} {swept : Nat × Nat}
    (hget : (stepQueue.run (.new config) ops).tasks.get id = some t)
    (hstuck : (stepQueue.run (.new config) ops).stuck p.mode t = true)
    (hok : ((stepQueue.run (.new config) ops).requeueStuck p).2 = .ok swept) :
    ∃ t', ((stepQueue.run (.new config) ops).requeueStuck p).1.tasks.get id = some t' ∧
      if (InMemoryStepQueue.new config).maxDeliveries +
          stepQueue.count (releases id) (.new config) ops ≤
          stepQueue.count (handsOut id) (.new config) ops
      then t'.status = .failed ∧
        t'.error = some (deadLetterError (InMemoryStepQueue.new config).maxDeliveries)
      else t'.status = .pending := by
  have haccount := run_accounted config ops id
  have hbound := (run_wellOrdered config ops).bound
  generalize stepQueue.run (.new config) ops = q at hget hstuck hok haccount hbound ⊢
  simp only [Accounted, hget] at haccount
  refine ⟨q.sweptTask p.mode t, ?_, ?_⟩
  · rw [requeueStuck_ok hok, get_mapValues, hget]
    rfl
  · rw [sweptTask, if_pos hstuck, ← hbound]
    by_cases hdead : q.maxDeliveries ≤ t.deliveries
    · have hletter : q.deadLettered t = true := decide_eq_true hdead
      rw [if_pos (by omega), if_pos hletter]
      exact ⟨rfl, rfl⟩
    · have hback : ¬ q.deadLettered t = true := fun h => hdead (of_decide_eq_true h)
      rw [if_neg (by omega), if_neg hback]
      rfl

/-- **Claim order and deliveries.** In every reachable state a claim that tells the groups apart
    answers the first `limit` tasks with room under their caps, in the order of priority and
    then of enqueueing.  Over every run a task is handed out at most `maxDeliveries` times (and
    at least once) beside its releases, and a sweep fails it where it was handed out as often. -/
theorem stepQueue_claims_in_order (config : InMemoryStepQueueConfig) (ops : List StepQueueOp) :
    (∀ p, GroupsApart (stepQueue.run (.new config) ops) p →
      CappedAlike (stepQueue.run (.new config) ops) p →
      ∃ order : List (String × MutableTask),
        order.Perm ((stepQueue.run (.new config) ops).tasks.entries.filter
          fun e => claimable p e.2) ∧
        order.Pairwise TurnBefore ∧
        claimedIds (stepQueue.run (.new config) ops) p =
          ((admitted (stepQueue.run (.new config) ops) [] order).take p.limit.toNat).map
            Prod.fst) ∧
    ∀ id,
      (stepQueue.count (handsOut id) (.new config) ops : Int) ≤
        max 1 (InMemoryStepQueue.new config).maxDeliveries +
          stepQueue.count (releases id) (.new config) ops ∧
      ∀ p t swept, (stepQueue.run (.new config) ops).tasks.get id = some t →
        (stepQueue.run (.new config) ops).stuck p.mode t = true →
        ((stepQueue.run (.new config) ops).requeueStuck p).2 = .ok swept →
        ∃ t', ((stepQueue.run (.new config) ops).requeueStuck p).1.tasks.get id = some t' ∧
          if (InMemoryStepQueue.new config).maxDeliveries +
              stepQueue.count (releases id) (.new config) ops ≤
              stepQueue.count (handsOut id) (.new config) ops
          then t'.status = .failed ∧
            t'.error = some (deadLetterError (InMemoryStepQueue.new config).maxDeliveries)
          else t'.status = .pending := by
  constructor
  · intro p hapart halike
    have h := run_wellOrdered config ops
    generalize stepQueue.run (.new config) ops = q at h hapart halike ⊢
    refine ⟨q.claimOrder p, perm_insertionSort _ _,
      claimOrder_turns h.issued h.chronological p, ?_⟩
    have hwalk : ∀ e ∈ q.claimOrder p, e.2 ∈ q.tasks.values ∧ claimable p e.2 = true := by
      intro e he
      obtain ⟨hget, hclaimable⟩ := (claimOrder_spec q p).2 e he
      exact ⟨(mem_values_iff _ _).mpr ⟨e.1, hget⟩, hclaimable⟩
    show (q.claim p).2.map (·.id) = _
    rw [claim_ids h.keyed, picked,
      chosen_eq_admitted hapart halike hwalk (countersMatch_runningPerKey hapart)]
  · intro id
    constructor
    · exact (run_accounted config ops id).le
    · intro p t swept hget hstuck hok
      exact requeueStuck_deadLetters config ops hget hstuck hok

/-- Two groups, one with a task more than its cap. -/
theorem stepQueue_claims_in_order_twoGroups :
    ∃ order : List (String × MutableTask),
      order.Perm ((stepQueue.run (.new {}) (cappedRun.take 3)).tasks.entries.filter
        fun e => claimable { workerId := "v", limit := 5 } e.2) ∧
      order.Pairwise TurnBefore ∧
      claimedIds (stepQueue.run (.new {}) (cappedRun.take 3)) { workerId := "v", limit := 5 } =
        ((admitted (stepQueue.run (.new {}) (cappedRun.take 3)) [] order).take 5).map Prod.fst :=
  (stepQueue_claims_in_order {} (cappedRun.take 3)).1 { workerId := "v", limit := 5 } (by decide)
    (by decide)

/-- A queue that allows no delivery hands a task out once. -/
theorem first_delivery_counterexample :
    ¬ ∀ (config : InMemoryStepQueueConfig) (ops : List StepQueueOp) (id : String),
      (stepQueue.count (handsOut id) (.new config) ops : Int) ≤
        (InMemoryStepQueue.new config).maxDeliveries +
          stepQueue.count (releases id) (.new config) ops := by
  intro h
  have hone := h { maxDeliveries := some 0 }
    [enqueueCapped "a" "n" "k", .claim { workerId := "v", limit := 1 }] "task-1"
  exact absurd hone (by decide)

end Promin.Distributed
