import Promin.Spec.StepQueueWalk

/-!
# Concurrency caps

Tasks with a concurrency scope and key form a group, and no more tasks of a
group run than their common limit allows.
-/

namespace Promin.Distributed

open InMemoryStepQueue List JsMap MutableTask

def MutableTask.group (t : MutableTask) : Option (String × String) :=
  match t.concurrencyScope, t.concurrencyKey with
  | some scope, some key => some (scope, key)
  | _, _ => none

def MutableTask.capped (t : MutableTask) : Bool := t.group.isSome && t.concurrencyLimit.isSome

def runningOf (q : InMemoryStepQueue) (group : String × String) : Nat :=
  q.tasks.values.countP fun t => decide (t.status = .running) && decide (t.group = some group)

/-- No group whose tasks all carry one limit has more tasks running. -/
def CapsHold (q : InMemoryStepQueue) : Prop :=
  ∀ scope key L,
    (∀ t ∈ q.tasks.values, t.group = some (scope, key) → t.concurrencyLimit = some L) →
      (runningOf q (scope, key) : Int) ≤ max 0 L

/-- The tasks a claim hands out. -/
def claimedIds (q : InMemoryStepQueue) (p : StepQueueClaimParams) : List String :=
  (q.claim p).2.map (·.id)

/-- A claim passes over a task of its walk only where running tasks of the task's own group
    exhaust its cap, or where it has its `limit` tasks already. -/
def CountsOwnGroup (q : InMemoryStepQueue) (p : StepQueueClaimParams) : Prop :=
  ∀ before e after, q.claimOrder p = before ++ e :: after →
    e.1 ∈ claimedIds q p ∨
    (p.limit ≤ (claimedIds q p).length ∧ ∀ id ∈ claimedIds q p, id ∈ before.map Prod.fst) ∨
    ∃ group, ∃ L : Int, e.2.group = some group ∧ e.2.concurrencyLimit = some L ∧
      L ≤ runningOf (q.claim p).1 group

def countedBy (p : StepQueueClaimParams) (t : MutableTask) : Bool :=
  t.status == .running || (claimable p t && t.capped)

/-- A claim tells the groups apart: every capped task it may hand out has a counter, which it
    shares with tasks of its own group only. -/
def GroupsApart (q : InMemoryStepQueue) (p : StepQueueClaimParams) : Prop :=
  ∀ t ∈ q.tasks.values, claimable p t = true → t.capped = true →
    (concurrencyCounterKey t).isSome = true ∧
      ∀ u ∈ q.tasks.values, countedBy p u = true →
        concurrencyCounterKey u = concurrencyCounterKey t → u.group = t.group

instance (q : InMemoryStepQueue) (p : StepQueueClaimParams) : Decidable (GroupsApart q p) :=
  inferInstanceAs (Decidable (∀ t ∈ q.tasks.values, _ → _ → _ ∧ ∀ u ∈ q.tasks.values, _ → _ → _))

/-- If the call is a claim, it tells the groups apart. -/
def TellsGroupsApart (q : InMemoryStepQueue) : StepQueueOp → Prop
  | .claim p => GroupsApart q p
  | _ => True

instance (q : InMemoryStepQueue) (o : StepQueueOp) : Decidable (TellsGroupsApart q o) :=
  match o with
  | .claim p => inferInstanceAs (Decidable (GroupsApart q p))
  | .advance _ | .leaderLeases _ | .enqueue _ | .release _ _ | .heartbeat _ _ | .complete _
  | .fail _ | .requeueStuck _ | .consume _ | .consumeSettled _ _ | .purge _ => isTrue trivial

/-! ## The counters of the walk -/

variable {q : InMemoryStepQueue} {p : StepQueueClaimParams} {t t' : MutableTask}

theorem group_of_counterKey {k : String} (h : concurrencyCounterKey t = some k) :
    ∃ scope key, t.group = some (scope, key) ∧ k = scope ++ "::" ++ key := by
  unfold concurrencyCounterKey at h
  split at h
  · rename_i htruthy
    rw [Bool.and_eq_true] at htruthy
    cases hkey : t.concurrencyKey with
    | none => simp [hkey, truthy] at htruthy
    | some key =>
      cases hscope : t.concurrencyScope with
      | none => simp [hscope, truthy] at htruthy
      | some scope =>
        rw [hkey, hscope] at h
        exact ⟨scope, key, by simp [group, hkey, hscope], by simpa using h.symm⟩
  · exact nomatch h

theorem counterKey_congr {u : MutableTask} (h : u.group = t.group) (hgroup : t.group.isSome) :
    concurrencyCounterKey u = concurrencyCounterKey t := by
  unfold group at h hgroup
  unfold concurrencyCounterKey
  split at hgroup
  · rename_i scope key hscope hkey
    rw [hscope, hkey] at h
    split at h
    · rename_i scope' key' hscope' hkey'
      simp only [Option.some.injEq, Prod.mk.injEq] at h
      rw [hscope, hkey, hscope', hkey', h.1, h.2]
    · exact nomatch h
  · exact nomatch hgroup

def addsTo (k : String) (t : MutableTask) : Bool :=
  decide (concurrencyCounterKey t = some k) && t.concurrencyLimit.isSome

def counterOf (counts : JsMap String Int) (k : String) : Int := (counts.get k).getD 0

variable (counts : JsMap String Int)

theorem counterOf_set (k k' : String) (n : Int) :
    counterOf (counts.set k n) k' = if k = k' then n else counterOf counts k' := by
  unfold counterOf
  rw [get_set]
  split <;> rfl

theorem reserve_eq_none {counts : JsMap String Int} (h : reserve counts t = none) :
    ∃ k L, concurrencyCounterKey t = some k ∧ t.concurrencyLimit = some L ∧
      L ≤ counterOf counts k := by
  unfold reserve at h
  split at h
  · rename_i k L hk hL
    simp only at h
    split at h
    · rename_i hfull
      exact ⟨k, L, hk, hL, hfull⟩
    · cases h
  · cases h

theorem reserve_eq_some {counts counts' : JsMap String Int} (h : reserve counts t = some counts') :
    (∀ k, counterOf counts' k = counterOf counts k + if addsTo k t then 1 else 0) ∧
      ∀ k L, concurrencyCounterKey t = some k → t.concurrencyLimit = some L →
        counterOf counts k < L := by
  unfold reserve at h
  split at h
  · rename_i k L hk hL
    simp only at h
    split at h
    · cases h
    · rename_i hroom
      cases h
      constructor
      · intro k'
        rw [counterOf_set, addsTo, hk, hL]
        by_cases hkk : k = k'
        · subst hkk
          simp [counterOf]
        · simp [hkk]
      · intro k' L' hk' hL'
        rw [hk] at hk'
        rw [hL] at hL'
        cases hk'
        cases hL'
        exact Int.not_le.mp hroom
  · rename_i hnone
    cases h
    constructor
    · intro k
      have hno : addsTo k t = false := by
        rw [addsTo, Bool.and_eq_false_iff]
        cases hL : t.concurrencyLimit with
        | none => exact .inr rfl
        | some L =>
          left
          apply decide_eq_false
          intro hk
          exact hnone k L hk hL
      simp [hno]
    · intro k L hk hL
      exact absurd hL (hnone k L hk)

theorem counterOf_foldl_running (k : String) (l : List MutableTask) :
    ∀ counts : JsMap String Int, counterOf (l.foldl (fun counts t =>
        if t.status = .running then
          match concurrencyCounterKey t with
          | some k => counts.set k ((counts.get k).getD 0 + 1)
          | none => counts
        else counts) counts) k =
      counterOf counts k + (l.countP fun t =>
        decide (t.status = .running) && decide (concurrencyCounterKey t = some k) : Nat) := by
  induction l with
  | nil => exact fun counts => (Int.add_zero _).symm
  | cons t rest ih =>
    intro counts
    rw [foldl_cons, ih, countP_cons]
    by_cases hrun : t.status = .running
    · cases hk : concurrencyCounterKey t with
      | none => simp [hrun]
      | some k' =>
        simp only [hrun, ↓reduceIte, counterOf_set, decide_true, Bool.true_and,
          Option.some.injEq]
        by_cases hkk : k' = k
        · subst hkk
          simp only [↓reduceIte, decide_true, counterOf]
          omega
        · simp [hkk]
    · simp [hrun]

theorem counterOf_runningPerKey (q : InMemoryStepQueue) (k : String) :
    counterOf q.runningPerKey k =
      (q.tasks.values.countP fun t =>
        decide (t.status = .running) && decide (concurrencyCounterKey t = some k) : Nat) := by
  have h := counterOf_foldl_running k q.tasks.values empty
  rw [show counterOf empty k = 0 from rfl, Int.zero_add] at h
  exact h

def countsAfter : JsMap String Int → List (String × MutableTask) → JsMap String Int
  | counts, [] => counts
  | counts, e :: rest =>
    match reserve counts e.2 with
    | none => countsAfter counts rest
    | some counts' => countsAfter counts' rest

theorem chosen_append (l l' : List (String × MutableTask)) :
    chosen counts (l ++ l') = chosen counts l ++ chosen (countsAfter counts l) l' := by
  induction l generalizing counts with
  | nil => rfl
  | cons e rest ih =>
    simp only [cons_append, chosen, countsAfter]
    cases reserve counts e.2 with
    | none => exact ih counts
    | some counts' => simp only [ih, cons_append]

theorem counterOf_countsAfter (l : List (String × MutableTask)) (k : String) :
    counterOf (countsAfter counts l) k =
      counterOf counts k + ((chosen counts l).countP fun e => addsTo k e.2 : Nat) := by
  induction l generalizing counts with
  | nil => exact (Int.add_zero _).symm
  | cons e rest ih =>
    simp only [countsAfter, chosen]
    cases hreserve : reserve counts e.2 with
    | none => exact ih counts
    | some counts' =>
      have hadds := (reserve_eq_some hreserve).1 k
      simp only [countP_cons, ih, hadds]
      split <;> omega

theorem chosen_within (l : List (String × MutableTask)) (n : Nat) (k : String) (L : Int) :
    counterOf counts k + (((chosen counts l).take n).countP fun e =>
        decide (concurrencyCounterKey e.2 = some k) &&
          decide (e.2.concurrencyLimit = some L) : Nat) ≤
      max (counterOf counts k) L := by
  induction l generalizing counts n with
  | nil =>
    simp only [chosen, take_nil, countP_nil]
    omega
  | cons e rest ih =>
    simp only [chosen]
    cases hreserve : reserve counts e.2 with
    | none => exact ih counts n
    | some counts' =>
      obtain ⟨hadds, hroom⟩ := reserve_eq_some hreserve
      cases n with
      | zero =>
        simp only [take_zero, countP_nil]
        omega
      | succ n =>
        have hrest := ih counts' n
        rw [hadds k, addsTo] at hrest
        simp only [take_succ_cons, countP_cons]
        by_cases hk : concurrencyCounterKey e.2 = some k
        · by_cases hL : e.2.concurrencyLimit = some L
          · have hlt := hroom k L hk hL
            simp only [hk, hL, decide_true, Option.isSome_some, Bool.and_self,
              ↓reduceIte] at hrest ⊢
            omega
          · simp only [hk, hL, decide_true, decide_false, Bool.true_and, Bool.and_false,
              Bool.false_eq_true, ↓reduceIte] at hrest ⊢
            split at hrest <;> omega
        · simp only [hk, decide_false, Bool.false_and, Bool.false_eq_true, ↓reduceIte] at hrest ⊢
          omega

/-! ## Running tasks after a claim -/

theorem countP_handOut (workerId : String) (kind : MutableTask → Bool)
    (hkind : ∀ t t', SameRequest t t' → kind t' = kind t) {l : List (String × MutableTask)}
    (hnd : (l.map Prod.fst).Nodup) {q : InMemoryStepQueue}
    (hl : ∀ e ∈ l, q.tasks.get e.1 = some e.2 ∧ e.2.status = .pending) :
    ((handOut workerId l q).1.tasks.values.countP fun t =>
        decide (t.status = .running) && kind t) =
      (q.tasks.values.countP fun t => decide (t.status = .running) && kind t) +
        l.countP fun e => kind e.2 := by
  induction l generalizing q with
  | nil => rfl
  | cons e rest ih =>
    obtain ⟨id, task⟩ := e
    obtain ⟨hfresh, hrest⟩ := nodup_cons.mp hnd
    obtain ⟨hget, hpending⟩ : q.tasks.get id = some task ∧ task.status = .pending :=
      hl _ mem_cons_self
    let task' := q.claimedTask workerId (q.counter + 1) task
    let q' := { q with tasks := q.tasks.set id task', counter := q.counter + 1 }
    have hstored : ∀ e ∈ rest, q'.tasks.get e.1 = some e.2 ∧ e.2.status = .pending := by
      intro e he
      have hne : id ≠ e.1 := fun h => hfresh (h ▸ mem_map.mpr ⟨e, he, rfl⟩)
      rw [get_set_ne _ _ hne]
      exact hl e (mem_cons_of_mem _ he)
    have hcount := ih hrest hstored
    have hset := countP_values_set hget task'
      fun t => decide (t.status = .running) && kind t
    have hrunning : task'.status = .running := rfl
    have hsame : kind task' = kind task := hkind task task' ⟨rfl, rfl, rfl, rfl, rfl⟩
    simp only [hpending, hrunning, hsame, decide_true, Bool.true_and, reduceCtorEq, decide_false,
      Bool.false_and, Bool.false_eq_true, ↓reduceIte] at hset
    show ((handOut workerId rest q').1.tasks.values.countP _) = _
    rw [hcount, countP_cons]
    show (q.tasks.set id task').values.countP _ + _ = _ + (_ + if kind task then 1 else 0)
    omega

theorem SameRequest.group (h : SameRequest t t') : t'.group = t.group := by
  rw [MutableTask.group, MutableTask.group, h.scope, h.key]

theorem countP_claim (q : InMemoryStepQueue) (p : StepQueueClaimParams)
    (kind : MutableTask → Bool) (hkind : ∀ t t', SameRequest t t' → kind t' = kind t) :
    ((q.claim p).1.tasks.values.countP fun t => decide (t.status = .running) && kind t) =
      (q.tasks.values.countP fun t => decide (t.status = .running) && kind t) +
        (q.picked p).countP fun e => kind e.2 := by
  obtain ⟨hnd, hstored⟩ := picked_spec q p
  rw [claim_eq_handOut]
  apply countP_handOut p.workerId kind hkind hnd
  intro e he
  exact ⟨(hstored e he).1, pending_of_claimable (hstored e he).2⟩

/-! ## No group over its cap -/

def limitedTo (group : String × String) (L : Int) (t : MutableTask) : Bool :=
  decide (t.group = some group) && decide (t.concurrencyLimit = some L)

theorem limitedTo_congr (group : String × String) (L : Int)
    (h : SameRequest t t') : limitedTo group L t' = limitedTo group L t := by
  rw [limitedTo, limitedTo, h.group, h.limit]

/-- No group has more tasks with one limit running than the limit. -/
def WithinCaps (q : InMemoryStepQueue) : Prop :=
  ∀ group L, ((q.tasks.values.countP fun t =>
    decide (t.status = .running) && limitedTo group L t : Nat) : Int) ≤ max 0 L

theorem WithinCaps.capsHold (h : WithinCaps q) : CapsHold q := by
  intro scope key L hall
  have hcount : runningOf q (scope, key) = q.tasks.values.countP fun t =>
      decide (t.status = .running) && limitedTo (scope, key) L t := by
    apply countP_congr
    intro t ht
    by_cases hgroup : t.group = some (scope, key)
    · simp [limitedTo, hgroup, hall t ht hgroup]
    · simp [limitedTo, hgroup]
  rw [hcount]
  exact h (scope, key) L

theorem picked_mem_values {e : String × MutableTask} (he : e ∈ q.picked p) :
    e.2 ∈ q.tasks.values ∧ claimable p e.2 = true := by
  obtain ⟨hget, hclaimable⟩ := (picked_spec q p).2 e he
  exact ⟨(mem_values_iff _ _).mpr ⟨e.1, hget⟩, hclaimable⟩

theorem claim_withinCaps (h : WithinCaps q) (hapart : GroupsApart q p) :
    WithinCaps (q.claim p).1 := by
  intro group L
  rw [countP_claim q p _ fun t t' => limitedTo_congr group L]
  have hbefore := h group L
  by_cases hpicked : ∃ e ∈ q.picked p, limitedTo group L e.2 = true
  · obtain ⟨e, he, hlimited⟩ := hpicked
    obtain ⟨hmem, hclaimable⟩ := picked_mem_values he
    simp only [limitedTo, Bool.and_eq_true, decide_eq_true_eq] at hlimited
    have hcapped : e.2.capped = true := by simp [capped, hlimited.1, hlimited.2]
    obtain ⟨k, hk⟩ := Option.isSome_iff_exists.mp (hapart e.2 hmem hclaimable hcapped).1
    have hkey : ∀ t : MutableTask, limitedTo group L t = true →
        concurrencyCounterKey t = some k ∧ t.concurrencyLimit = some L := by
      intro t ht
      simp only [limitedTo, Bool.and_eq_true, decide_eq_true_eq] at ht
      refine ⟨?_, ht.2⟩
      rw [← hk]
      exact counterKey_congr (ht.1.trans hlimited.1.symm) (by simp [hlimited.1])
    -- The counter of the group bounds both the running tasks and the picked ones.
    have hrunning : (q.tasks.values.countP fun t =>
        decide (t.status = .running) && limitedTo group L t) ≤
        q.tasks.values.countP fun t =>
          decide (t.status = .running) && decide (concurrencyCounterKey t = some k) := by
      apply countP_mono_left
      intro t _ ht
      rw [Bool.and_eq_true] at ht
      simp [ht.1, (hkey t ht.2).1]
    have hchosen : (q.picked p).countP (fun e => limitedTo group L e.2) ≤
        (q.picked p).countP fun e =>
          decide (concurrencyCounterKey e.2 = some k) &&
            decide (e.2.concurrencyLimit = some L) := by
      apply countP_mono_left
      intro e _ ht
      simp [(hkey e.2 ht).1, (hkey e.2 ht).2]
    have hsome : 0 < (q.picked p).countP fun e => limitedTo group L e.2 :=
      countP_pos_iff.mpr ⟨e, he, by simp [limitedTo, hlimited.1, hlimited.2]⟩
    have hwithin := chosen_within q.runningPerKey (q.claimOrder p) p.limit.toNat k L
    rw [counterOf_runningPerKey] at hwithin
    change _ + ((q.picked p).countP _ : Int) ≤ _ at hwithin
    omega
  · have hnone : (q.picked p).countP (fun e => limitedTo group L e.2) = 0 := by
      rw [countP_eq_zero]
      intro e he hlimited
      exact hpicked ⟨e, he, hlimited⟩
    rw [hnone]
    exact hbefore

theorem running_before {o : StepQueueOp} (hq : Issued q) (hk : Keyed q)
    (ho : ∀ p, o ≠ .claim p) {id : String}
    (hget : (stepQueue.next q o).tasks.get id = some t') (hrunning : t'.status = .running) :
    ∃ t, q.tasks.get id = some t ∧ t.status = .running ∧ SameRequest t t' := by
  have hrow := step_row hq hk o id
  have hno : handsOut id q o = false := by
    cases o with
    | claim p => exact absurd rfl (ho p)
    | _ => rfl
  rw [hget, hno] at hrow
  generalize releases id q o = isReleased at hrow
  generalize hbefore : q.tasks.get id = before at hrow
  cases hrow with
  | kept hkept =>
    cases hkept with
    | some hrequest hstatus => exact ⟨_, rfl, hstatus ▸ hrunning, hrequest⟩
  | created _ hpending | released _ hpending | requeued _ hpending =>
    rw [hpending] at hrunning; exact nomatch hrunning
  | ended _ hsettled => rw [hrunning] at hsettled; exact nomatch hsettled

theorem step_withinCaps {o : StepQueueOp} (hq : Issued q) (hk : Keyed q)
    (hapart : TellsGroupsApart q o) (h : WithinCaps q) : WithinCaps (stepQueue.next q o) := by
  by_cases ho : ∃ p, o = .claim p
  · obtain ⟨p, rfl⟩ := ho
    exact claim_withinCaps h hapart
  · intro group L
    have hle : ((stepQueue.next q o).tasks.values.countP fun t =>
          decide (t.status = .running) && limitedTo group L t) ≤
        q.tasks.values.countP fun t => decide (t.status = .running) && limitedTo group L t := by
      apply countP_values_le
      intro id t' hget hcounted
      simp only [Bool.and_eq_true, decide_eq_true_eq] at hcounted
      obtain ⟨t, hget₀, hrunning, hrequest⟩ :=
        running_before hq hk (fun p hp => ho ⟨p, hp⟩) hget hcounted.1
      refine ⟨t, hget₀, ?_⟩
      rw [← limitedTo_congr group L hrequest, hcounted.2]
      simp [hrunning]
    have hbefore := h group L
    omega

/-! ## Groups do not count against each other -/

theorem runningOf_claim (q : InMemoryStepQueue) (p : StepQueueClaimParams)
    (group : String × String) :
    runningOf (q.claim p).1 group =
      runningOf q group + (q.picked p).countP fun e => decide (e.2.group = some group) :=
  countP_claim q p _ fun t t' h => by rw [h.group]

theorem claim_countsOwnGroup (hk : Keyed q) (hapart : GroupsApart q p) : CountsOwnGroup q p := by
  intro before e after horder
  have hids : claimedIds q p = (q.picked p).map Prod.fst := claim_ids hk p
  have hpicked : q.picked p = (chosen q.runningPerKey before ++
      chosen (countsAfter q.runningPerKey before) (e :: after)).take p.limit.toNat := by
    rw [picked, horder, chosen_append]
  by_cases hfull : p.limit.toNat ≤ (chosen q.runningPerKey before).length
  · -- The claim has its tasks before it comes to this one.
    right
    left
    have htake : q.picked p = (chosen q.runningPerKey before).take p.limit.toNat := by
      rw [hpicked, take_append_of_le_length hfull]
    rw [hids, htake]
    constructor
    · rw [length_map, length_take]
      omega
    · intro id hid
      obtain ⟨e', he', rfl⟩ := mem_map.mp hid
      exact mem_map.mpr
        ⟨e', (chosen_sublist _ _).subset (mem_of_mem_take he'), rfl⟩
  · rw [take_append, take_of_length_le (by omega)] at hpicked
    obtain ⟨left, hleft⟩ : ∃ left, p.limit.toNat - (chosen q.runningPerKey before).length =
        left + 1 := ⟨p.limit.toNat - (chosen q.runningPerKey before).length - 1, by omega⟩
    rw [hleft] at hpicked
    cases hreserve : reserve (countsAfter q.runningPerKey before) e.2 with
    | some counts' =>
      left
      rw [hids, hpicked]
      simp [chosen, hreserve]
    | none =>
      right
      right
      obtain ⟨k, L, hcounter, hlimit, hexhausted⟩ := reserve_eq_none hreserve
      obtain ⟨scope, key, hgroup, -⟩ := group_of_counterKey hcounter
      refine ⟨(scope, key), L, hgroup, hlimit, ?_⟩
      have hmem : e ∈ q.claimOrder p := by simp [horder]
      obtain ⟨hget, hclaimable⟩ := (claimOrder_spec q p).2 e hmem
      have hvalue : e.2 ∈ q.tasks.values := (mem_values_iff _ _).mpr ⟨e.1, hget⟩
      have hcapped : e.2.capped = true := by simp [capped, hgroup, hlimit]
      -- Whatever moved the counter is of the task's own group.
      have hown : ∀ u ∈ q.tasks.values, countedBy p u = true →
          concurrencyCounterKey u = some k → u.group = some (scope, key) := by
        intro u hu hcounted hkey
        rw [← hgroup]
        exact (hapart e.2 hvalue hclaimable hcapped).2 u hu hcounted (hkey.trans hcounter.symm)
      have hrunning : (q.tasks.values.countP fun t =>
          decide (t.status = .running) && decide (concurrencyCounterKey t = some k)) ≤
          runningOf q (scope, key) := by
        apply countP_mono_left
        intro t ht hcounted
        simp only [Bool.and_eq_true, decide_eq_true_eq] at hcounted ⊢
        exact ⟨hcounted.1, hown t ht (by simp [countedBy, hcounted.1]) hcounted.2⟩
      have hchosen : ((chosen q.runningPerKey before).countP fun e => addsTo k e.2) ≤
          (chosen q.runningPerKey before).countP fun e =>
            decide (e.2.group = some (scope, key)) := by
        apply countP_mono_left
        intro e' he' hadds
        simp only [addsTo, Bool.and_eq_true, decide_eq_true_eq] at hadds ⊢
        have hmem' : e' ∈ q.claimOrder p := by
          rw [horder]
          exact mem_append_left _ ((chosen_sublist _ _).subset he')
        obtain ⟨hget', hclaimable'⟩ := (claimOrder_spec q p).2 e' hmem'
        obtain ⟨scope', key', hgroup', -⟩ := group_of_counterKey hadds.1
        apply hown e'.2 ((mem_values_iff _ _).mpr ⟨e'.1, hget'⟩) _ hadds.1
        simp [countedBy, hclaimable', capped, hgroup', hadds.2]
      have hall : ((chosen q.runningPerKey before).countP fun e =>
            decide (e.2.group = some (scope, key))) ≤
          (q.picked p).countP fun e => decide (e.2.group = some (scope, key)) := by
        rw [hpicked, countP_append]
        omega
      rw [counterOf_countsAfter, counterOf_runningPerKey] at hexhausted
      rw [runningOf_claim]
      omega

theorem keyed_new (config : InMemoryStepQueueConfig) : Keyed (.new config) := by
  intro id t hget
  exact nomatch hget

theorem withinCaps_new (config : InMemoryStepQueueConfig) : WithinCaps (.new config) := by
  intro group L
  show ((0 : Nat) : Int) ≤ max 0 L
  omega

/-- **Concurrency caps.** In every run whose claims tell the groups apart, the running tasks of
    a group stay within the limit its tasks carry, and every claim passes a task over for the
    running tasks of its own group only. -/
theorem stepQueue_caps_hold (config : InMemoryStepQueueConfig) (ops : List StepQueueOp)
    (h : stepQueue.Always TellsGroupsApart (.new config) ops) :
    CapsHold (stepQueue.run (.new config) ops) ∧
      stepQueue.Always (fun q o => ∀ p, o = .claim p → CountsOwnGroup q p) (.new config) ops := by
  have hnew : Issued (.new config) ∧ Keyed (.new config) := ⟨issued_new config, keyed_new config⟩
  have hkeyed : ∀ q o, Issued q ∧ Keyed q →
      Issued (stepQueue.next q o) ∧ Keyed (stepQueue.next q o) :=
    fun q o hq => ⟨step_issued hq.1 o, step_keyed hq.1 hq.2 o⟩
  constructor
  · apply WithinCaps.capsHold
    have hrun := Machine.run_induction_always
      (P := fun q => (Issued q ∧ Keyed q) ∧ WithinCaps q)
      (fun q o hapart hq => ⟨hkeyed q o hq.1, step_withinCaps hq.1.1 hq.1.2 hapart hq.2⟩)
      h ⟨hnew, withinCaps_new config⟩
    exact hrun.2
  · apply Machine.always_of_invariant hkeyed _ hnew h
    rintro q o ⟨-, hk⟩ hapart p rfl
    exact claim_countsOwnGroup hk hapart

/-! ## Groups with one counter -/

def enqueueCapped (stepName scope key : String) : StepQueueOp :=
  .enqueue { workflowId := "w", stepName := stepName, input := .null, concurrencyScope := some scope
             concurrencyKey := some key, concurrencyLimit := some 1 }

/-- Two groups, each with more tasks than its cap. -/
def cappedRun : List StepQueueOp :=
  [enqueueCapped "a" "n" "k", enqueueCapped "b" "n" "k", enqueueCapped "c" "n::c" "k",
    .claim { workerId := "v", limit := 5 }, .release "task-1" "claim-4",
    .claim { workerId := "v", limit := 5 }]

theorem stepQueue_caps_hold_cappedRun :
    CapsHold (stepQueue.run (.new {}) cappedRun) ∧
      stepQueue.Always (fun q o => ∀ p, o = .claim p → CountsOwnGroup q p) (.new {}) cappedRun :=
  stepQueue_caps_hold {} cappedRun (by decide)

/-- The queue after one task of the step `c` of the workflow `n` with the key `k` was claimed
    and a task of `n` with the key `c::k` enqueued. -/
def sharedCounter : InMemoryStepQueue :=
  stepQueue.run (.new {})
    [enqueueCapped "c" "n::c" "k", .claim { workerId := "v", limit := 1 },
      enqueueCapped "a" "n" "c::k"]

/-- The running task of one group keeps the only task of the other from being claimed. -/
theorem shared_counter_counterexample :
    ¬ ∀ (config : InMemoryStepQueueConfig) (ops : List StepQueueOp),
      CapsHold (stepQueue.run (.new config) ops) ∧
        stepQueue.Always (fun q o => ∀ p, o = .claim p → CountsOwnGroup q p) (.new config) ops := by
  intro h
  have hlast : CountsOwnGroup sharedCounter { workerId := "v", limit := 1 } :=
    (h {} [enqueueCapped "c" "n::c" "k", .claim { workerId := "v", limit := 1 },
      enqueueCapped "a" "n" "c::k", .claim { workerId := "v", limit := 1 }]).2.2.2.2.1 _ rfl
  have hids : claimedIds sharedCounter { workerId := "v", limit := 1 } = [] := by decide
  obtain ⟨e, horder⟩ : ∃ e, sharedCounter.claimOrder { workerId := "v", limit := 1 } = [e] :=
    length_eq_one_iff.mp (by decide)
  have htask : (sharedCounter.claimOrder { workerId := "v", limit := 1 }).map
      (fun e => (e.2.group, e.2.concurrencyLimit)) = [(some ("n", "c::k"), some 1)] := by decide
  have hrunning : runningOf (sharedCounter.claim { workerId := "v", limit := 1 }).1 ("n", "c::k") =
      0 := by decide
  rw [horder] at htask
  simp only [map_cons, map_nil, List.cons.injEq, Prod.mk.injEq, and_true] at htask
  have hcase := hlast [] e [] horder
  rw [hids] at hcase
  rcases hcase with hmem | ⟨hfull, -⟩ | ⟨group, L, hgroup, hlimit, hexhausted⟩
  · exact nomatch hmem
  · simp at hfull
  · rw [htask.1] at hgroup
    rw [htask.2] at hlimit
    cases hgroup
    cases hlimit
    rw [hrunning] at hexhausted
    simp at hexhausted

end Promin.Distributed
