import Promin.Spec.StepQueueSteps

/-!
# The index of active tasks

`activeByKey` maps the key `workflowId::stepName` to the task of the pair that
has not been consumed yet.
-/

namespace Promin.Distributed

open InMemoryStepQueue List JsMap

/-! ## Pairs and keys -/

def MutableTask.pair (t : MutableTask) : String × String := (t.workflowId, t.stepName)

/-- The key of the pair is the key of no other pair. -/
def Unambiguous (workflowId stepName : String) : Prop :=
  ∀ w s, activeKey w s = activeKey workflowId stepName → (w, s) = (workflowId, stepName)

theorem SameTask.pair {t t' : MutableTask} (h : SameTask t t') : t'.pair = t.pair := by
  unfold MutableTask.pair
  rw [h.2.1, h.2.2]

/-! ## The index, key by key -/

structure ActiveIndex (q : InMemoryStepQueue) : Prop where
  own : ∀ {id t}, q.tasks.get id = some t → t.id = id
  sound : ∀ {k id}, q.activeByKey.get k = some id →
    ∃ t, q.tasks.get id = some t ∧ activeKey t.workflowId t.stepName = k ∧ t.consumedAt = none
  complete : ∀ {id t}, q.tasks.get id = some t → t.consumedAt = none →
    q.activeByKey.get (activeKey t.workflowId t.stepName) = some id

/-- The index alone, and every row alone or rewritten in place, where `P` says which
    rows are rewritten. -/
def Rewrites (P : MutableTask → Prop) (q q' : InMemoryStepQueue) : Prop :=
  q'.activeByKey = q.activeByKey ∧
  ∀ id, q'.tasks.get id = q.tasks.get id ∨
    ∃ t t', q.tasks.get id = some t ∧ P t ∧ q'.tasks.get id = some t' ∧ SameTask t t' ∧
      t'.consumedAt = t.consumedAt

private theorem Rewrites.refl (P : MutableTask → Prop) (q : InMemoryStepQueue) :
    Rewrites P q q := ⟨rfl, fun _ => .inl rfl⟩

variable {o : StepQueueOp} {P : MutableTask → Prop} {q q' : InMemoryStepQueue}

private theorem Rewrites.back
    (h : Rewrites P q q') {id : String} {t' : MutableTask} (hget : q'.tasks.get id = some t') :
    ∃ t, q.tasks.get id = some t ∧ SameTask t t' ∧ t'.consumedAt = t.consumedAt := by
  rcases h.2 id with he | ⟨t, t'', hget₀, -, hget', hsame, hcons⟩
  · exact ⟨t', he ▸ hget, .refl t', rfl⟩
  · rw [hget] at hget'
    cases hget'
    exact ⟨t, hget₀, hsame, hcons⟩

private theorem Rewrites.forth
    (h : Rewrites P q q') {id : String} {t : MutableTask} (hget : q.tasks.get id = some t) :
    ∃ t', q'.tasks.get id = some t' ∧ SameTask t t' ∧ t'.consumedAt = t.consumedAt := by
  rcases h.2 id with he | ⟨t₀, t', hget₀, -, hget', hsame, hcons⟩
  · exact ⟨t, he ▸ hget, .refl t, rfl⟩
  · rw [hget] at hget₀
    cases hget₀
    exact ⟨t', hget', hsame, hcons⟩

private theorem Rewrites.activeIndex
    (h : Rewrites P q q') (hq : ActiveIndex q) : ActiveIndex q' where
  own hget := by
    obtain ⟨t, hget₀, hsame, -⟩ := h.back hget
    rw [hsame.1]
    exact hq.own hget₀
  sound hact := by
    rw [h.1] at hact
    obtain ⟨t, hget, hkey, hopen⟩ := hq.sound hact
    obtain ⟨t', hget', hsame, hcons⟩ := h.forth hget
    exact ⟨t', hget', by rw [hsame.2.1, hsame.2.2, hkey], by rw [hcons, hopen]⟩
  complete hget hopen := by
    obtain ⟨t, hget₀, hsame, hcons⟩ := h.back hget
    rw [h.1, hsame.2.1, hsame.2.2]
    exact hq.complete hget₀ (hcons ▸ hopen)

def Picks (q : InMemoryStepQueue) : StepQueueOp → MutableTask → Prop
  | .claim p, t => claimable p t = true
  | .release taskId _, t => q.tasks.get taskId = some t
  | .heartbeat taskId _, t => q.tasks.get taskId = some t
  | .complete p, t => q.tasks.get p.taskId = some t
  | .fail p, t => q.tasks.get p.taskId = some t
  | .requeueStuck p, t => q.stuck p.mode t = true
  | .consume taskId, t => q.tasks.get taskId = some t
  | .purge completedBefore, t => purgeable completedBefore t = true
  | .advance _, _ => False
  | .leaderLeases _, _ => False
  | .enqueue _, _ => False
  | .consumeSettled _ _, _ => False

private theorem onCurrentClaim_rewrites (q : InMemoryStepQueue) (taskId : String)
    (token : Option String) (f : MutableTask → MutableTask)
    (hf : ∀ t, SameTask t (f t) ∧ (f t).consumedAt = t.consumedAt) :
    Rewrites (fun t => q.tasks.get taskId = some t) q (q.onCurrentClaim taskId token f).1 := by
  rcases onCurrentClaim_cases q taskId token f with h | ⟨t, hget, -, -, h⟩
  · rw [h]
    exact .refl _ q
  · rw [h]
    refine ⟨rfl, fun id => ?_⟩
    by_cases hid : taskId = id
    · subst hid
      exact .inr ⟨t, f t, hget, hget, get_set_self _ _ _, hf t⟩
    · exact .inl (get_set_ne _ _ hid)

private theorem claim_rewrites (q : InMemoryStepQueue) (p : StepQueueClaimParams) :
    Rewrites (fun t => claimable p t = true) q (q.claim p).1 := by
  obtain ⟨k, -, hactive, -, htasks⟩ := claim_spec q p
  refine ⟨hactive, fun id => ?_⟩
  rcases htasks id with h | ⟨t, n, hget, hclaim, -, -, h⟩
  · exact .inl h
  · exact .inr ⟨t, _, hget, hclaim, h, ⟨rfl, rfl, rfl⟩, rfl⟩

private theorem requeueStuck_rewrites (q : InMemoryStepQueue) (p : StepQueueRequeueParams) :
    Rewrites (fun t => q.stuck p.mode t = true) q (q.requeueStuck p).1 := by
  rcases requeueStuck_cases q p with h | h
  · rw [h]
    exact .refl _ q
  · rw [h]
    refine ⟨rfl, fun id => ?_⟩
    rw [get_mapValues]
    cases hget : q.tasks.get id with
    | none => exact .inl rfl
    | some t =>
      rw [Option.map_some]
      unfold sweptTask
      split
      · rename_i hstuck
        refine .inr ⟨t, _, rfl, hstuck, rfl, ?_⟩
        split <;> exact ⟨⟨rfl, rfl, rfl⟩, rfl⟩
      · exact .inl rfl

/-- An operation rewrites the rows it picks, or is one of the four that work on the
    index. -/
private theorem step_cases (q : InMemoryStepQueue) (o : StepQueueOp) :
    Rewrites (Picks q o) q (stepQueue.next q o) ∨ (∃ p, o = .enqueue p) ∨
      (∃ taskId, o = .consume taskId) ∨ (∃ w names, o = .consumeSettled w names) ∨
      ∃ before, o = .purge before := by
  cases o with
  | advance ms | leaderLeases leases => exact .inl ⟨rfl, fun _ => .inl rfl⟩
  | enqueue p => exact .inr (.inl ⟨p, rfl⟩)
  | claim p => exact .inl (claim_rewrites q p)
  | release taskId token =>
    exact .inl (onCurrentClaim_rewrites q taskId (some token)
      (fun task => { backToPending task with deliveries := max 0 (task.deliveries - 1) })
      fun _ => ⟨⟨rfl, rfl, rfl⟩, rfl⟩)
  | heartbeat taskId token =>
    exact .inl (onCurrentClaim_rewrites q taskId token
      (fun task => { task with heartbeatAt := some q.now }) fun _ => ⟨⟨rfl, rfl, rfl⟩, rfl⟩)
  | complete p =>
    exact .inl (onCurrentClaim_rewrites q p.taskId p.claimToken
      (fun task => { task with
        status := .completed, result := p.result, stepMetadata := p.stepMetadata
        durationMs := some p.durationMs, completedAt := some q.now })
      fun _ => ⟨⟨rfl, rfl, rfl⟩, rfl⟩)
  | fail p =>
    exact .inl (onCurrentClaim_rewrites q p.taskId p.claimToken
      (fun task => { task with
        status := .failed, error := some p.error, errorTag := p.errorTag
        stepMetadata := p.stepMetadata, durationMs := some p.durationMs
        completedAt := some q.now })
      fun _ => ⟨⟨rfl, rfl, rfl⟩, rfl⟩)
  | requeueStuck p => exact .inl (requeueStuck_rewrites q p)
  | consume taskId => exact .inr (.inr (.inl ⟨taskId, rfl⟩))
  | consumeSettled w names => exact .inr (.inr (.inr (.inl ⟨w, names, rfl⟩)))
  | purge before => exact .inr (.inr (.inr (.inr ⟨before, rfl⟩)))

private theorem freeSlot_get_iff (m : JsMap String String) (t : MutableTask) (k id : String) :
    (freeSlot m t).get k = some id ↔
      m.get k = some id ∧ ¬ (activeKey t.workflowId t.stepName = k ∧ t.id = id) := by
  unfold freeSlot
  simp only
  by_cases hslot : m.get (activeKey t.workflowId t.stepName) = some t.id
  · rw [if_pos hslot, get_delete]
    by_cases hk : activeKey t.workflowId t.stepName = k
    · subst hk
      rw [if_pos rfl, hslot]
      simp
    · simp [hk]
  · rw [if_neg hslot]
    constructor
    · rintro h
      refine ⟨h, ?_⟩
      rintro ⟨rfl, rfl⟩
      exact hslot h
    · exact fun h => h.1

private theorem foldl_freeSlot_get_iff (ts : List MutableTask) (m : JsMap String String)
    (k id : String) :
    (ts.foldl freeSlot m).get k = some id ↔
      m.get k = some id ∧ ∀ t ∈ ts, ¬ (activeKey t.workflowId t.stepName = k ∧ t.id = id) := by
  induction ts generalizing m with
  | nil => simp
  | cons t rest ih =>
    rw [foldl_cons, ih, freeSlot_get_iff, forall_mem_cons, and_assoc]

private theorem mem_purged_iff (q : InMemoryStepQueue) (before : Int) (t : MutableTask) :
    t ∈ q.tasks.values.filter (purgeable before) ↔
      (∃ id, q.tasks.get id = some t) ∧ purgeable before t = true := by
  rw [mem_filter, mem_values_iff]

private theorem purge_get_iff (q : InMemoryStepQueue) (before : Int) (id : String)
    (t : MutableTask) :
    (q.purge before).1.tasks.get id = some t ↔
      q.tasks.get id = some t ∧ purgeable before t = false := by
  simp only [purge, get_filter, Option.filter_eq_some_iff, Bool.not_eq_true']

variable {q : InMemoryStepQueue}

private theorem purge_activeIndex (hq : ActiveIndex q) (before : Int) :
    ActiveIndex (q.purge before).1 where
  own hget := hq.own ((purge_get_iff q before _ _).mp hget).1
  sound {k id} hact := by
    obtain ⟨hold, hkept⟩ := (foldl_freeSlot_get_iff _ _ _ _).mp hact
    obtain ⟨t, hget, hkey, hopen⟩ := hq.sound hold
    refine ⟨t, (purge_get_iff q before _ _).mpr ⟨hget, ?_⟩, hkey, hopen⟩
    -- A purged task would have given its slot up.
    cases hp : purgeable before t with
    | false => rfl
    | true =>
      exact absurd ⟨hkey, hq.own hget⟩ (hkept t ((mem_purged_iff q _ t).mpr ⟨⟨id, hget⟩, hp⟩))
  complete {id t} hget hopen := by
    obtain ⟨hold, hstay⟩ := (purge_get_iff q before _ _).mp hget
    refine (foldl_freeSlot_get_iff _ _ _ _).mpr ⟨hq.complete hold hopen, ?_⟩
    rintro t' hmem ⟨-, hid⟩
    obtain ⟨⟨id', hget'⟩, hp⟩ := (mem_purged_iff q _ t').mp hmem
    have hid' : id' = id := (hq.own hget').symm.trans hid
    rw [hid', hold] at hget'
    cases hget'
    rw [hstay] at hp
    exact nomatch hp

private theorem consume_activeIndex (hq : ActiveIndex q)
    (taskId : String) : ActiveIndex (q.consume taskId).1 := by
  rcases consume_cases q taskId with h | ⟨t, hget, hopen, -, h⟩
  · rw [h]
    exact hq
  · rw [h]
    have hslot := hq.complete hget hopen
    constructor
    · intro id t' hget'
      simp only [get_set] at hget'
      split at hget'
      · rename_i hid
        cases hget'
        exact (hq.own hget).trans hid
      · exact hq.own hget'
    · intro k id hact
      obtain ⟨hold, hkept⟩ := (freeSlot_get_iff _ _ _ _).mp hact
      obtain ⟨t', hget', hkey, hopen'⟩ := hq.sound hold
      have hne : taskId ≠ id := by
        rintro rfl
        rw [hget] at hget'
        cases hget'
        exact hkept ⟨hkey, hq.own hget⟩
      exact ⟨t', by simp only [get_set_ne _ _ hne, hget'], hkey, hopen'⟩
    · intro id t' hget' hopen'
      simp only [get_set] at hget'
      split at hget'
      · cases hget'
        cases hopen'
      · rename_i hne
        refine (freeSlot_get_iff _ _ _ _).mpr ⟨hq.complete hget' hopen', ?_⟩
        rintro ⟨-, hid⟩
        exact hne ((hq.own hget).symm.trans hid)

private theorem consumeSettledStep_cases (q : InMemoryStepQueue) (workflowId stepName : String) :
    (q.consumeSettledStep workflowId stepName).1 = q ∨
    ∃ id, q.activeByKey.get (activeKey workflowId stepName) = some id ∧
      (q.consumeSettledStep workflowId stepName).1 = (q.consume id).1 := by
  unfold consumeSettledStep
  cases hact : q.activeByKey.get (activeKey workflowId stepName) with
  | none => exact .inl rfl
  | some id => exact .inr ⟨id, rfl, rfl⟩

private theorem consumeSettled_activeIndex (hq : ActiveIndex q)
    (workflowId : String) (stepNames : List String) :
    ActiveIndex (q.consumeSettled workflowId stepNames).1 := by
  induction stepNames generalizing q with
  | nil => exact hq
  | cons stepName rest ih =>
    refine ih (q := (q.consumeSettledStep workflowId stepName).1) ?_
    rcases consumeSettledStep_cases q workflowId stepName with h | ⟨id, -, h⟩
    · rw [h]
      exact hq
    · rw [h]
      exact consume_activeIndex hq id

private theorem enqueue_activeIndex (hissued : Issued q)
    (hq : ActiveIndex q) (p : StepQueueEnqueueParams) : ActiveIndex (q.enqueue p).1 := by
  rcases enqueue_cases q p with ⟨existing, -, h⟩ | ⟨hfree, h⟩
  · rw [h]
    exact hq
  · rw [h]
    have hnew := hissued.next_free
    constructor
    · intro id t hget
      simp only [get_set] at hget
      split at hget
      · rename_i hid
        cases hget
        exact hid
      · exact hq.own hget
    · intro k id hact
      simp only [get_set] at hact
      split at hact
      · rename_i hk
        cases hact
        exact ⟨_, get_set_self _ _ _, hk, rfl⟩
      · obtain ⟨t, hget, hkey, hopen⟩ := hq.sound hact
        have hne : taskIdOf (q.counter + 1) ≠ id := by
          rintro rfl
          rw [hnew] at hget
          cases hget
        exact ⟨t, by simp only [get_set_ne _ _ hne, hget], hkey, hopen⟩
    · intro id t hget hopen
      simp only [get_set] at hget ⊢
      split at hget
      · rename_i hid
        cases hget
        rw [if_pos (by rfl), hid]
      · have hslot := hq.complete hget hopen
        rw [if_neg, hslot]
        -- The new task's key was free, so it is not the key of an unconsumed task.
        intro hk
        rw [hk, hslot] at hfree
        cases hfree

/-! ## Every reachable state -/

theorem step_activeIndex (hissued : Issued q) (hq : ActiveIndex q)
    (o : StepQueueOp) : ActiveIndex (stepQueue.next q o) := by
  rcases step_cases q o with h | ⟨p, rfl⟩ | ⟨taskId, rfl⟩ | ⟨w, names, rfl⟩ | ⟨before, rfl⟩
  · exact h.activeIndex hq
  · exact enqueue_activeIndex hissued hq p
  · exact consume_activeIndex hq taskId
  · exact consumeSettled_activeIndex hq w names
  · exact purge_activeIndex hq before

theorem activeIndex_new (config : InMemoryStepQueueConfig) :
    ActiveIndex (InMemoryStepQueue.new config) where
  own h := by simp [InMemoryStepQueue.new] at h
  sound h := by simp [InMemoryStepQueue.new] at h
  complete h := by simp [InMemoryStepQueue.new] at h

theorem run_activeIndex (config : InMemoryStepQueueConfig) (ops : List StepQueueOp) :
    ActiveIndex (stepQueue.run (.new config) ops) :=
  (Machine.run_induction (P := fun q => Issued q ∧ ActiveIndex q)
    (fun _ o h => ⟨step_issued h.1 o, step_activeIndex h.1 h.2 o⟩) ops
    ⟨issued_new config, activeIndex_new config⟩).2

/-! ## Pairs kept apart -/

def Names (workflowId stepName : String) : StepQueueOp → Prop
  | .enqueue p => (p.workflowId, p.stepName) = (workflowId, stepName)
  | .consumeSettled w names => w = workflowId ∧ stepName ∈ names
  | .advance _ => False
  | .leaderLeases _ => False
  | .claim _ => False
  | .release _ _ => False
  | .heartbeat _ _ => False
  | .complete _ => False
  | .fail _ => False
  | .requeueStuck _ => False
  | .consume _ => False
  | .purge _ => False

/-- The operation is about the pair: it names it, or picks one of its tasks. -/
def About (q : InMemoryStepQueue) (workflowId stepName : String) (o : StepQueueOp) : Prop :=
  Names workflowId stepName o ∨
    ∃ id t, q.tasks.get id = some t ∧ t.pair = (workflowId, stepName) ∧ Picks q o t

def SamePair (workflowId stepName : String) (q q' : InMemoryStepQueue) : Prop :=
  (∀ id t, t.pair = (workflowId, stepName) →
    (q'.tasks.get id = some t ↔ q.tasks.get id = some t)) ∧
  q'.activeByKey.get (activeKey workflowId stepName) =
    q.activeByKey.get (activeKey workflowId stepName)

def ActiveTask (q : InMemoryStepQueue) (workflowId stepName id : String) : Prop :=
  ∃ t, q.tasks.get id = some t ∧ t.pair = (workflowId, stepName) ∧ t.consumedAt = none

/-- A state in which the pairs are kept apart: one unconsumed task a pair, found
    through the index under the pair, and answered by `enqueue` instead of a second. -/
structure PairsApart (q : InMemoryStepQueue) : Prop where
  unique : ∀ w s id id', ActiveTask q w s id → ActiveTask q w s id' → id = id'
  index : ∀ w s id, q.activeByKey.get (activeKey w s) = some id ↔ ActiveTask q w s id
  again : ∀ p id, ActiveTask q p.workflowId p.stepName id → q.enqueue p = (q, id)

/-- A step that keeps the pairs apart: `enqueue` for a pair without an unconsumed task
    stores a task of that pair, and a pair the operation is not about is left alone. -/
structure StepApart (q : InMemoryStepQueue) (o : StepQueueOp) : Prop where
  fresh : ∀ p, o = .enqueue p → (∀ id, ¬ ActiveTask q p.workflowId p.stepName id) →
    ∃ id, stepQueue.out q o = .taskId id ∧ q.tasks.get id = none ∧
      ActiveTask (stepQueue.next q o) p.workflowId p.stepName id
  frame : ∀ w s, ¬ About q w s o → SamePair w s q (stepQueue.next q o)

/-- Every stored task's pair has a key of its own. -/
def AllUnambiguous (q : InMemoryStepQueue) : Prop :=
  ∀ id t, q.tasks.get id = some t → Unambiguous t.workflowId t.stepName

theorem ActiveIndex.pairsApart (hq : ActiveIndex q) (hu : AllUnambiguous q) : PairsApart q := by
  have hindex : ∀ w s id, q.activeByKey.get (activeKey w s) = some id ↔ ActiveTask q w s id := by
    intro w s id
    constructor
    · intro hact
      obtain ⟨t, hget, hkey, hopen⟩ := hq.sound hact
      exact ⟨t, hget, (hu id t hget w s hkey.symm).symm, hopen⟩
    · rintro ⟨t, hget, hpair, hopen⟩
      obtain ⟨rfl, rfl⟩ := Prod.mk.inj hpair
      exact hq.complete hget hopen
  refine ⟨fun w s id id' h h' => ?_, hindex, fun p id h => ?_⟩
  · have hid := (hindex w s id).mpr h
    rw [(hindex w s id').mpr h'] at hid
    exact (Option.some.inj hid).symm
  · have hact := (hindex _ _ id).mpr h
    rcases enqueue_cases q p with ⟨existing, hget, he⟩ | ⟨hfree, -⟩
    · rw [hact] at hget
      cases hget
      exact he
    · rw [hact] at hfree
      exact nomatch hfree

/-! ### The frame -/

private theorem SamePair.refl (w s : String) (q : InMemoryStepQueue) : SamePair w s q q :=
  ⟨fun _ _ _ => Iff.rfl, rfl⟩

variable {w s : String}

private theorem SamePair.trans {q'' : InMemoryStepQueue}
    (h : SamePair w s q q') (h' : SamePair w s q' q'') : SamePair w s q q'' :=
  ⟨fun id t ht => (h'.1 id t ht).trans (h.1 id t ht), h'.2.trans h.2⟩

private theorem Rewrites.samePair (h : Rewrites P q q')
    (hother : ∀ id t, q.tasks.get id = some t → t.pair = (w, s) → ¬ P t) : SamePair w s q q' := by
  refine ⟨fun id t ht => ?_, by rw [h.1]⟩
  rcases h.2 id with he | ⟨t₀, t', hget₀, hpick, hget', hsame, -⟩
  · rw [he]
  · -- The rewritten row is of another pair, before and after.
    have hne : t₀.pair ≠ (w, s) := fun hp => hother id t₀ hget₀ hp hpick
    rw [hget₀, hget']
    constructor <;> intro h <;> cases h
    · exact absurd (hsame.pair ▸ ht) hne
    · exact absurd ht hne

private theorem consume_samePair (hu : AllUnambiguous q)
    {taskId w s : String} (hother : ∀ t, q.tasks.get taskId = some t → t.pair ≠ (w, s)) :
    SamePair w s q (q.consume taskId).1 := by
  rcases consume_cases q taskId with h | ⟨t, hget, -, -, h⟩
  · rw [h]
    exact .refl w s q
  · rw [h]
    have hne := hother t hget
    refine ⟨fun id t' ht' => ?_, ?_⟩
    · by_cases hid : taskId = id
      · subst hid
        simp only [get_set_self, hget]
        constructor <;> intro h <;> cases h
        · exact absurd ht' hne
        · exact absurd ht' hne
      · simp only [get_set_ne _ _ hid]
    · have hkey : activeKey t.workflowId t.stepName ≠ activeKey w s :=
        fun hk => hne (hu taskId t hget w s hk.symm).symm
      unfold freeSlot
      simp only
      split
      · exact get_delete_ne _ hkey
      · rfl

private theorem consume_allUnambiguous (hu : AllUnambiguous q)
    (taskId : String) : AllUnambiguous (q.consume taskId).1 := by
  rcases consume_cases q taskId with h | ⟨t, hget, -, -, h⟩
  · rw [h]
    exact hu
  · rw [h]
    intro id t' hget'
    simp only [get_set] at hget'
    split at hget'
    · cases hget'
      exact hu taskId t hget
    · exact hu id t' hget'

private theorem consumeSettled_allUnambiguous (hu : AllUnambiguous q)
    (workflowId : String) (stepNames : List String) :
    AllUnambiguous (q.consumeSettled workflowId stepNames).1 := by
  induction stepNames generalizing q with
  | nil => exact hu
  | cons stepName rest ih =>
    refine ih (q := (q.consumeSettledStep workflowId stepName).1) ?_
    rcases consumeSettledStep_cases q workflowId stepName with h | ⟨id, -, h⟩
    · rw [h]
      exact hu
    · rw [h]
      exact consume_allUnambiguous hu id

private theorem consumeSettled_samePair (hq : ActiveIndex q)
    (hu : AllUnambiguous q) (workflowId : String) {stepNames : List String}
    (hother : ¬ (workflowId = w ∧ s ∈ stepNames)) :
    SamePair w s q (q.consumeSettled workflowId stepNames).1 := by
  induction stepNames generalizing q with
  | nil => exact .refl w s q
  | cons stepName rest ih =>
    have hne : (workflowId, stepName) ≠ (w, s) := by
      intro he
      obtain ⟨hw, hs⟩ := Prod.mk.inj he
      exact hother ⟨hw, hs ▸ mem_cons_self⟩
    have hrest : ¬ (workflowId = w ∧ s ∈ rest) :=
      fun h => hother ⟨h.1, mem_cons_of_mem _ h.2⟩
    show SamePair w s q
      ((q.consumeSettledStep workflowId stepName).1.consumeSettled workflowId rest).1
    rcases consumeSettledStep_cases q workflowId stepName with h | ⟨id, hact, h⟩
    · rw [h]
      exact ih hq hu hrest
    · -- The index points at a task of the named pair itself.
      rw [h]
      have hstep : SamePair w s q (q.consume id).1 := by
        apply consume_samePair hu
        intro t hget hp
        obtain ⟨t', hget', hkey, -⟩ := hq.sound hact
        rw [hget] at hget'
        cases hget'
        exact hne ((hu id t hget workflowId stepName hkey.symm).trans hp)
      exact hstep.trans (ih (consume_activeIndex hq id) (consume_allUnambiguous hu id) hrest)

private theorem purge_samePair (hu : AllUnambiguous q) {before : Int}
    (hother : ∀ id t, q.tasks.get id = some t → t.pair = (w, s) → purgeable before t ≠ true) :
    SamePair w s q (q.purge before).1 := by
  refine ⟨fun id t ht => ?_, ?_⟩
  · rw [purge_get_iff]
    exact ⟨fun h => h.1, fun h => ⟨h, by simpa using hother id t h ht⟩⟩
  · apply Option.ext
    intro id
    refine (foldl_freeSlot_get_iff _ _ _ _).trans ⟨fun h => h.1, fun h => ⟨h, ?_⟩⟩
    rintro t hmem ⟨hkey, -⟩
    obtain ⟨⟨id', hget⟩, hp⟩ := (mem_purged_iff q _ t).mp hmem
    exact hother id' t hget (hu id' t hget w s hkey.symm).symm hp

private theorem enqueue_samePair (q : InMemoryStepQueue) {p : StepQueueEnqueueParams}
    (hp : Unambiguous p.workflowId p.stepName)
    (hother : (p.workflowId, p.stepName) ≠ (w, s)) (hissued : Issued q) :
    SamePair w s q (q.enqueue p).1 := by
  rcases enqueue_cases q p with ⟨existing, -, h⟩ | ⟨-, h⟩
  · rw [h]
    exact .refl w s q
  · rw [h]
    refine ⟨fun id t ht => ?_, ?_⟩
    · by_cases hid : taskIdOf (q.counter + 1) = id
      · subst hid
        simp only [get_set_self, hissued.next_free]
        constructor <;> intro h <;> cases h
        exact absurd ht hother
      · simp only [get_set_ne _ _ hid]
    · have hkey : activeKey p.workflowId p.stepName ≠ activeKey w s :=
        fun hk => hother (hp w s hk.symm).symm
      exact get_set_ne _ _ hkey

/-! ### One step and every run -/

/-- What the run has to keep for the pairs to stay apart. -/
structure KeptApart (q : InMemoryStepQueue) : Prop where
  issued : Issued q
  active : ActiveIndex q
  unambiguous : AllUnambiguous q

private theorem step_allUnambiguous (hq : AllUnambiguous q)
    (ho : ∀ p, o = .enqueue p → Unambiguous p.workflowId p.stepName) :
    AllUnambiguous (stepQueue.next q o) := by
  rcases step_cases q o with h | ⟨p, rfl⟩ | ⟨taskId, rfl⟩ | ⟨w, names, rfl⟩ | ⟨before, rfl⟩
  · intro id t' hget'
    obtain ⟨t, hget, hsame, -⟩ := h.back hget'
    rw [hsame.2.1, hsame.2.2]
    exact hq id t hget
  · show AllUnambiguous (q.enqueue p).1
    rcases enqueue_cases q p with ⟨existing, -, h⟩ | ⟨-, h⟩
    · rw [h]
      exact hq
    · rw [h]
      intro id t hget
      simp only [get_set] at hget
      split at hget
      · cases hget
        exact ho p rfl
      · exact hq id t hget
  · exact consume_allUnambiguous hq taskId
  · exact consumeSettled_allUnambiguous hq w names
  · intro id t hget
    exact hq id t ((purge_get_iff q before id t).mp hget).1

private theorem KeptApart.step (hq : KeptApart q)
    (ho : ∀ p, o = .enqueue p → Unambiguous p.workflowId p.stepName) :
    KeptApart (stepQueue.next q o) :=
  ⟨step_issued hq.issued o, step_activeIndex hq.issued hq.active o,
    step_allUnambiguous hq.unambiguous ho⟩

private theorem KeptApart.stepApart (hq : KeptApart q)
    (ho : ∀ p, o = .enqueue p → Unambiguous p.workflowId p.stepName) : StepApart q o where
  fresh := by
    rintro p rfl hnone
    have happart := hq.active.pairsApart hq.unambiguous
    rcases enqueue_cases q p with ⟨existing, hact, -⟩ | ⟨-, h⟩
    · exact absurd ((happart.index _ _ existing).mp hact) (hnone existing)
    · refine ⟨taskIdOf (q.counter + 1), ?_, hq.issued.next_free, ?_⟩
      · show StepQueueAnswer.taskId (q.enqueue p).2 = _
        rw [h]
      · show ActiveTask (q.enqueue p).1 _ _ _
        rw [h]
        exact ⟨_, get_set_self _ _ _, rfl, rfl⟩
  frame := by
    intro w s hnot
    have hnames : ¬ Names w s o := fun h => hnot (.inl h)
    have hpicks : ∀ id t, q.tasks.get id = some t → t.pair = (w, s) → ¬ Picks q o t :=
      fun id t hget hp hpick => hnot (.inr ⟨id, t, hget, hp, hpick⟩)
    rcases step_cases q o with h | ⟨p, rfl⟩ | ⟨taskId, rfl⟩ | ⟨w', names, rfl⟩ | ⟨before, rfl⟩
    · exact h.samePair hpicks
    · exact enqueue_samePair q (ho p rfl) hnames hq.issued
    · exact consume_samePair hq.unambiguous fun t hget hp => hpicks taskId t hget hp hget
    · exact consumeSettled_samePair hq.active hq.unambiguous w' hnames
    · exact purge_samePair hq.unambiguous hpicks

private theorem unambiguous_of_pairsApart {p : StepQueueEnqueueParams}
    (h : PairsApart (stepQueue.next q (.enqueue p))) : Unambiguous p.workflowId p.stepName := by
  intro w s hkey
  obtain ⟨id, hact⟩ : ∃ id, (q.enqueue p).1.activeByKey.get
      (activeKey p.workflowId p.stepName) = some id := by
    rcases enqueue_cases q p with ⟨existing, hact, he⟩ | ⟨-, he⟩
    · exact ⟨existing, by rw [he]; exact hact⟩
    · exact ⟨_, by rw [he]; exact get_set_self _ _ _⟩
  -- The one task under the shared key would be of both pairs.
  obtain ⟨t, hget, hpair, -⟩ := (h.index _ _ id).mp hact
  obtain ⟨t', hget', hpair', -⟩ := (h.index w s id).mp (hkey ▸ hact)
  rw [hget] at hget'
  cases hget'
  exact hpair'.symm.trans hpair

/-- **Pairs are kept apart exactly when no key is shared.** Over every run from an
    empty queue: each state reached has at most one unconsumed task a pair, indexed
    under the pair and answered by `enqueue`, and each step leaves the pairs it is not
    about alone, if and only if no enqueued pair shares its key with another pair. -/
theorem stepQueue_pairs_independent_iff (config : InMemoryStepQueueConfig)
    (ops : List StepQueueOp) :
    ((∀ done, done <+: ops → PairsApart (stepQueue.run (.new config) done)) ∧
      stepQueue.Always StepApart (.new config) ops) ↔
    ∀ p, .enqueue p ∈ ops → Unambiguous p.workflowId p.stepName := by
  constructor
  · rintro ⟨hstates, -⟩ p hmem
    obtain ⟨done, rest, rfl⟩ := append_of_mem hmem
    have hafter := hstates (done ++ [.enqueue p]) ⟨rest, by simp⟩
    rw [Machine.run_append] at hafter
    exact unambiguous_of_pairsApart hafter
  · intro hops
    have hnew : KeptApart (InMemoryStepQueue.new config) :=
      ⟨issued_new config, activeIndex_new config, fun id t h => by
        simp [InMemoryStepQueue.new] at h⟩
    generalize InMemoryStepQueue.new config = q at hnew
    clear config
    induction ops generalizing q with
    | nil =>
      refine ⟨fun done hdone => ?_, trivial⟩
      rw [prefix_nil.mp hdone]
      exact hnew.active.pairsApart hnew.unambiguous
    | cons o ops ih =>
      have ho : ∀ p, o = .enqueue p → Unambiguous p.workflowId p.stepName :=
        fun p hp => hops p (hp ▸ mem_cons_self)
      obtain ⟨hstates, hsteps⟩ :=
        ih (fun p hp => hops p (mem_cons_of_mem _ hp)) _ (hnew.step ho)
      refine ⟨fun done hdone => ?_, hnew.stepApart ho, hsteps⟩
      rcases prefix_cons_iff.mp hdone with rfl | ⟨done', rfl, hdone'⟩
      · exact hnew.active.pairsApart hnew.unambiguous
      · exact hstates done' hdone'

/-- The step `c` of `a::b` is answered with the task of the step `b::c` of `a`, and has
    no task of its own. -/
theorem stepQueue_shared_key_counterexample :
    let first : StepQueueEnqueueParams :=
      { workflowId := "a", stepName := "b::c", input := .null }
    let second : StepQueueEnqueueParams :=
      { workflowId := "a::b", stepName := "c", input := .null }
    stepQueue.outs (.new {}) [.enqueue first, .enqueue second] =
      [.taskId "task-1", .taskId "task-1"] ∧
    ((stepQueue.run (.new {}) [.enqueue first, .enqueue second]).tasks.values.map
      (·.pair)) = [("a", "b::c")] ∧
    ¬ PairsApart (stepQueue.run (.new {}) [.enqueue first]) := by
  refine ⟨by decide, by decide, fun h => ?_⟩
  have hact : (stepQueue.run (.new {}) [.enqueue
      { workflowId := "a", stepName := "b::c", input := .null }]).activeByKey.get
      (activeKey "a::b" "c") = some "task-1" := by decide
  obtain ⟨t, hget, hpair, -⟩ := (h.index "a::b" "c" "task-1").mp hact
  have hpairs : ((stepQueue.run (.new {}) [.enqueue
      { workflowId := "a", stepName := "b::c", input := .null }]).tasks.get "task-1").map
      (·.pair) = some ("a", "b::c") := by decide
  rw [hget, Option.map_some, hpair] at hpairs
  exact absurd hpairs (by decide)

end Promin.Distributed
