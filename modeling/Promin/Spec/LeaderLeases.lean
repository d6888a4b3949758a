import Promin.Spec.SchedulerCalls

/-!
# Leader leases fence commits

The epoch of a key's lease record never goes down, and a new lease raises it.
-/

namespace Promin.Scheduler

open InMemorySchedulerStorage List JsMap Machine

/-! ## What happens to leases along a run -/

/-- The leases a call hands out. -/
def issuedLease (s : InMemorySchedulerStorage) (o : SchedulerStorageOp) : List LeaderLease :=
  match schedulerStorage.out s o with
  | .lease (some lease) => [lease]
  | _ => []

/-- A record no one holds at `now`: released, or run out. -/
def LeaseRecord.Free (record : LeaseRecord) (now : Int) : Prop :=
  record.instanceId = none ∨ record.expiresAt ≤ now

instance (record : LeaseRecord) (now : Int) : Decidable (record.Free now) :=
  inferInstanceAs (Decidable (_ ∨ _))

/-- Those of them that begin a term of office. -/
def startedLease (s : InMemorySchedulerStorage) (o : SchedulerStorageOp) : List LeaderLease :=
  (issuedLease s o).filter fun lease =>
    match s.leases.records.get lease.key with
    | some record => decide (record.Free s.now)
    | none => true

def committedLease (s : InMemorySchedulerStorage) (o : SchedulerStorageOp) :
    List LeaderLease :=
  match o with
  | .commitPoll _ (some lease) =>
    match s.leases.assertCurrent lease with
    | .ok () => [lease]
    | .error _ => []
  | _ => []

/-- The leases a call hands out or commits under. -/
def usedLeases (s : InMemorySchedulerStorage) (o : SchedulerStorageOp) : List LeaderLease :=
  issuedLease s o ++ committedLease s o

/-- Epoch and expiry of the lease an instance was told it holds, by key and instance. -/
abbrev Holdings := String → String → Option (Int × Int)

/-- What the instances know after a call: the answer of an acquire, and a release by
    the holder itself. -/
def Holdings.after (h : Holdings) (s : InMemorySchedulerStorage) (o : SchedulerStorageOp) :
    Holdings :=
  match o with
  | .tryAcquireLeader key instanceId ttlMs =>
    let told := (s.tryAcquireLeader key instanceId ttlMs).2.map fun lease =>
      (lease.epoch, s.now + max 0 ttlMs)
    fun k i => if k = key ∧ i = instanceId then told else h k i
  | .releaseLeader lease => fun k i =>
    if k = lease.key ∧ i = lease.instanceId ∧ (h k i).map Prod.fst = some lease.epoch then none
    else h k i
  | _ => h

/-- The instance has been told it leads until a time that has not come. -/
def HoldsLive (s : InMemorySchedulerStorage) (h : Holdings) (key instanceId : String) : Prop :=
  ∃ epoch expiresAt, h key instanceId = some (epoch, expiresAt) ∧ s.now < expiresAt

/-- The record is still at the lease's epoch and holder. -/
def IsCurrent (s : InMemorySchedulerStorage) (lease : LeaderLease) : Prop :=
  ∃ record, s.leases.records.get lease.key = some record ∧ record.epoch = lease.epoch ∧
    record.instanceId = some lease.instanceId

/-! ## One acquire, one release -/

/-- What an acquire does: it is refused by another live holder; it refreshes the
    lease of a live holder; or it starts a new lease with a greater epoch. -/
theorem acquire_cases (l : InMemoryLeaderLeases) (now : Int) (key instanceId : String)
    (ttlMs : Int) :
    (∃ record, l.records.get key = some record ∧ ¬ record.Free now ∧
      record.instanceId ≠ some instanceId ∧ l.acquire now key instanceId ttlMs = (l, none)) ∨
    (∃ record, l.records.get key = some record ∧ ¬ record.Free now ∧
      record.instanceId = some instanceId ∧ l.acquire now key instanceId ttlMs =
        (⟨l.records.set key ⟨some instanceId, record.epoch, now + max 0 ttlMs⟩⟩,
          some ⟨key, instanceId, record.epoch⟩)) ∨
    (∃ epoch, (∀ record, l.records.get key = some record →
        record.Free now ∧ record.epoch < epoch) ∧
      l.acquire now key instanceId ttlMs =
        (⟨l.records.set key ⟨some instanceId, epoch, now + max 0 ttlMs⟩⟩,
          some ⟨key, instanceId, epoch⟩)) := by
  simp only [InMemoryLeaderLeases.acquire]
  cases hget : l.records.get key with
  | none =>
    right; right
    exact ⟨1, fun _ h => (by cases h), rfl⟩
  | some record =>
    dsimp only
    cases hlive : record.instanceId.isSome && decide (record.expiresAt > now) with
    | true =>
      have hheld : ¬ record.Free now := by
        simp only [Bool.and_eq_true, decide_eq_true_eq] at hlive
        intro hfree
        cases hfree with
        | inl hnone => simp [hnone] at hlive
        | inr hexp => omega
      by_cases hown : record.instanceId = some instanceId
      · right; left
        exact ⟨record, rfl, hheld, hown, by simp [hown]⟩
      · left
        exact ⟨record, rfl, hheld, hown, by simp [hown]⟩
    | false =>
      have hfree : record.Free now := by
        simp only [Bool.and_eq_false_iff, decide_eq_false_iff_not] at hlive
        cases hlive with
        | inl hnone => exact .inl (by simpa using hnone)
        | inr hexp => exact .inr (by omega)
      right; right
      refine ⟨record.epoch + 1, fun r hr => ?_, by simp⟩
      cases hr
      exact ⟨hfree, by omega⟩

theorem releaseLeader_cases (l : InMemoryLeaderLeases) (now : Int) (lease : LeaderLease) :
    ((∀ record, l.records.get lease.key = some record →
        record.epoch = lease.epoch → record.instanceId ≠ some lease.instanceId) ∧
      l.releaseLeader now lease = l) ∨
    (∃ record, l.records.get lease.key = some record ∧ record.epoch = lease.epoch ∧
      record.instanceId = some lease.instanceId ∧ l.releaseLeader now lease =
        ⟨l.records.set lease.key { record with instanceId := none, expiresAt := now }⟩) := by
  simp only [InMemoryLeaderLeases.releaseLeader]
  cases hget : l.records.get lease.key with
  | none =>
    left
    exact ⟨fun _ h => (by cases h), rfl⟩
  | some record =>
    by_cases hepoch : record.epoch = lease.epoch
    · by_cases hown : record.instanceId = some lease.instanceId
      · right
        exact ⟨record, rfl, hepoch, hown, by simp [hepoch, hown]⟩
      · left
        refine ⟨fun r hr _ => ?_, by simp [hown]⟩
        cases hr
        exact hown
    · left
      refine ⟨fun r hr he => ?_, by simp [hepoch]⟩
      cases hr
      exact absurd he hepoch

/-! ## The bound a record keeps on the leases of its key -/

/-- The record of the lease's key is at its epoch or past it, and at its epoch it
    names no other holder. -/
def WithinRecord (s : InMemorySchedulerStorage) (lease : LeaderLease) : Prop :=
  ∃ record, s.leases.records.get lease.key = some record ∧ lease.epoch ≤ record.epoch ∧
    (lease.epoch = record.epoch →
      record.instanceId = none ∨ record.instanceId = some lease.instanceId)

def WithinEpoch (s : InMemorySchedulerStorage) (lease : LeaderLease) : Prop :=
  ∃ record, s.leases.records.get lease.key = some record ∧ lease.epoch ≤ record.epoch

variable {s : InMemorySchedulerStorage} {lease : LeaderLease}

theorem WithinRecord.epoch (h : WithinRecord s lease) : WithinEpoch s lease := by
  obtain ⟨record, hget, hle, -⟩ := h
  exact ⟨record, hget, hle⟩

theorem withinRecord_next (o : SchedulerStorageOp) (h : WithinRecord s lease) :
    WithinRecord (schedulerStorage.next s o) lease := by
  obtain ⟨record, hget, hle, hown⟩ := h
  by_cases ho : OnLeasesOrClock o
  · cases o with
    | advance ms => exact ⟨record, hget, hle, hown⟩
    | tryAcquireLeader key instanceId ttlMs =>
      show WithinRecord (s.tryAcquireLeader key instanceId ttlMs).1 lease
      simp only [InMemorySchedulerStorage.tryAcquireLeader, WithinRecord]
      by_cases hkey : key = lease.key
      · subst hkey
        obtain ⟨r, hr, -, -, heq⟩ | ⟨r, hr, -, hsame, heq⟩ | ⟨epoch, hfree, heq⟩ :=
          acquire_cases s.leases s.now lease.key instanceId ttlMs
        · simp only [heq]
          exact ⟨record, hget, hle, hown⟩
        · -- a refresh keeps epoch and holder
          have hrr : r = record := Option.some.inj (hr.symm.trans hget)
          subst hrr
          simp only [heq, get_set_self]
          refine ⟨_, rfl, hle, fun he => ?_⟩
          rw [← hsame]
          exact hown he
        · -- a new lease is past every lease so far
          have hlt := (hfree record hget).2
          simp only [heq, get_set_self]
          exact ⟨_, rfl, by dsimp only; omega, fun he => by dsimp only at he; omega⟩
      · have hframe : (s.leases.acquire s.now key instanceId ttlMs).1.records.get lease.key =
            s.leases.records.get lease.key := by
          obtain ⟨r, -, -, -, heq⟩ | ⟨r, -, -, -, heq⟩ | ⟨epoch, -, heq⟩ :=
            acquire_cases s.leases s.now key instanceId ttlMs
          · rw [heq]
          · rw [heq]
            exact get_set_ne _ _ hkey
          · rw [heq]
            exact get_set_ne _ _ hkey
        exact ⟨record, hframe.trans hget, hle, hown⟩
    | releaseLeader released =>
      show WithinRecord (s.releaseLeader released) lease
      simp only [InMemorySchedulerStorage.releaseLeader, WithinRecord]
      obtain ⟨-, heq⟩ | ⟨r, hr, -, -, heq⟩ := releaseLeader_cases s.leases s.now released
      · rw [heq]
        exact ⟨record, hget, hle, hown⟩
      · rw [heq]
        by_cases hkey : released.key = lease.key
        · rw [hkey] at hr
          have hrr : r = record := Option.some.inj (hr.symm.trans hget)
          subst hrr
          rw [hkey]
          exact ⟨_, get_set_self _ _ _, hle, fun _ => .inl rfl⟩
        · exact ⟨record, (get_set_ne _ _ hkey).trans hget, hle, hown⟩
    | _ => exact ho.elim
  · refine ⟨record, ?_, hle, hown⟩
    rw [(leases_unchanged ho).1]
    exact hget

variable {o : SchedulerStorageOp}

theorem issued_spec (h : lease ∈ issuedLease s o) :
    ∃ ttlMs, o = .tryAcquireLeader lease.key lease.instanceId ttlMs ∧
      (schedulerStorage.next s o).leases = ⟨s.leases.records.set lease.key
        ⟨some lease.instanceId, lease.epoch, s.now + max 0 ttlMs⟩⟩ ∧
      ∀ record, s.leases.records.get lease.key = some record →
        (¬ record.Free s.now ∧ record.epoch = lease.epoch ∧
            record.instanceId = some lease.instanceId) ∨
          record.epoch < lease.epoch := by
  cases o with
  | tryAcquireLeader key instanceId ttlMs =>
    have hout : (s.leases.acquire s.now key instanceId ttlMs).2 = some lease := by
      simp only [issuedLease, schedulerStorage, Machine.out, tryAcquireLeader] at h
      cases hl : (s.leases.acquire s.now key instanceId ttlMs).2 with
      | none => simp [hl] at h
      | some l =>
        simp only [hl, mem_singleton] at h
        rw [h]
    have hnext : (schedulerStorage.next s (.tryAcquireLeader key instanceId ttlMs)).leases =
        (s.leases.acquire s.now key instanceId ttlMs).1 := rfl
    obtain ⟨r, -, -, -, heq⟩ | ⟨r, hr, hheld, hown, heq⟩ | ⟨epoch, hfree, heq⟩ :=
      acquire_cases s.leases s.now key instanceId ttlMs
    · rw [heq] at hout
      cases hout
    · rw [heq] at hout hnext
      cases hout
      refine ⟨ttlMs, rfl, hnext, fun record hrecord => ?_⟩
      have hrr : r = record := Option.some.inj (hr.symm.trans hrecord)
      exact .inl ⟨hrr ▸ hheld, hrr ▸ rfl, hrr ▸ hown⟩
    · rw [heq] at hout hnext
      cases hout
      exact ⟨ttlMs, rfl, hnext, fun record hrecord => .inr (hfree record hrecord).2⟩
  | _ => simp [issuedLease, schedulerStorage, Machine.out] at h

theorem withinRecord_issued (h : lease ∈ issuedLease s o) :
    WithinRecord (schedulerStorage.next s o) lease := by
  obtain ⟨ttlMs, -, hnext, -⟩ := issued_spec h
  simp only [WithinRecord, hnext]
  exact ⟨_, get_set_self _ _ _, Int.le_refl _, fun _ => .inr rfl⟩

theorem issued_after {a lease : LeaderLease} (ha : WithinRecord s a) (h : lease ∈ issuedLease s o)
    (hkey : a.key = lease.key) : a = lease ∨ a.epoch < lease.epoch := by
  obtain ⟨record, hget, hle, hown⟩ := ha
  obtain ⟨ttlMs, -, -, hold⟩ := issued_spec h
  rw [hkey] at hget
  cases hold record hget with
  | inr hlt =>
    right
    omega
  | inl hsame =>
    by_cases hepoch : a.epoch = record.epoch
    · -- at the epoch of the record, the holder is the one that refreshes
      left
      have hholder : a.instanceId = lease.instanceId := by
        cases hown hepoch with
        | inl hnone => simp [hnone] at hsame
        | inr hsome => exact Option.some.inj (hsome.symm.trans hsame.2.2)
      cases a
      cases lease
      simp_all
    · right
      omega

theorem started_after {a lease : LeaderLease} (ha : WithinEpoch s a) (h : lease ∈ startedLease s o)
    (hkey : a.key = lease.key) : a.epoch < lease.epoch := by
  obtain ⟨record, hget, hle⟩ := ha
  rw [hkey] at hget
  obtain ⟨hissued, hfree⟩ := mem_filter.mp h
  simp only [hget, decide_eq_true_eq] at hfree
  obtain ⟨ttlMs, -, -, hold⟩ := issued_spec hissued
  cases hold record hget with
  | inl hheld => exact absurd hfree hheld.1
  | inr hlt => omega

theorem committed_epoch (h : lease ∈ committedLease s o) :
    ∃ record, s.leases.records.get lease.key = some record ∧ record.epoch = lease.epoch := by
  cases o with
  | commitPoll updates presented =>
    cases presented with
    | none => simp [committedLease] at h
    | some l =>
      simp only [committedLease] at h
      cases hfence : s.leases.assertCurrent l with
      | error e => simp [hfence] at h
      | ok ok =>
        simp only [hfence, mem_singleton] at h
        rw [h]
        exact assertCurrent_ok_iff.mp hfence
  | _ => simp [committedLease] at h

/-! ## Epochs along a run -/

theorem withinEpoch_next (o : SchedulerStorageOp) (h : WithinEpoch s lease) :
    WithinEpoch (schedulerStorage.next s o) lease := by
  obtain ⟨record, hget, hle⟩ := h
  -- the lease the record shows, if anyone holds it, keeps the bound of a handed out lease
  let shown : LeaderLease := ⟨lease.key, record.instanceId.getD "", record.epoch⟩
  have hshown : WithinRecord s shown := by
    refine ⟨record, hget, Int.le_refl _, fun _ => ?_⟩
    cases hown : record.instanceId with
    | none => exact .inl rfl
    | some i => exact .inr (by simp [shown, hown])
  obtain ⟨record', hget', hle', -⟩ := withinRecord_next o hshown
  exact ⟨record', hget', Int.le_trans hle hle'⟩

theorem withinEpoch_used (h : lease ∈ usedLeases s o) :
    WithinEpoch (schedulerStorage.next s o) lease := by
  cases mem_append.mp h with
  | inl hissued => exact (withinRecord_issued hissued).epoch
  | inr hcommitted =>
    obtain ⟨record, hget, hepoch⟩ := committed_epoch hcommitted
    exact withinEpoch_next o ⟨record, hget, Int.le_of_eq hepoch.symm⟩

theorem used_after {a lease : LeaderLease} (ha : WithinEpoch s a) (h : lease ∈ usedLeases s o)
    (hkey : a.key = lease.key) : a.epoch ≤ lease.epoch := by
  obtain ⟨record, hget, hle⟩ := ha
  rw [hkey] at hget
  cases mem_append.mp h with
  | inl hissued =>
    obtain ⟨ttlMs, -, -, hold⟩ := issued_spec hissued
    have := hold record hget
    omega
  | inr hcommitted =>
    obtain ⟨r, hr, hepoch⟩ := committed_epoch hcommitted
    have hrr : r = record := Option.some.inj (hr.symm.trans hget)
    subst hrr
    omega

private theorem pairwise_of_length_le {β : Type} {R : β → β → Prop} {l : List β}
    (h : l.length ≤ 1) : l.Pairwise R := by
  match l, h with
  | [], _ => exact .nil
  | [b], _ => exact pairwise_singleton R b

theorem usedLeases_length_le (s : InMemorySchedulerStorage) (o : SchedulerStorageOp) :
    (usedLeases s o).length ≤ 1 := by
  cases o with
  | tryAcquireLeader key instanceId ttlMs =>
    simp only [usedLeases, issuedLease, committedLease, append_nil]
    split <;> simp
  | commitPoll updates lease =>
    have hissued : issuedLease s (.commitPoll updates lease) = [] := rfl
    simp only [usedLeases, hissued, nil_append, committedLease]
    split
    · rename_i heq
      split <;> simp
    · simp
  | _ => simp [usedLeases, issuedLease, committedLease, schedulerStorage, Machine.out]

theorem issuedLease_length_le (s : InMemorySchedulerStorage) (o : SchedulerStorageOp) :
    (issuedLease s o).length ≤ 1 := by
  simp only [issuedLease]
  split <;> simp

private theorem pairwise_leases
    {L : InMemorySchedulerStorage → SchedulerStorageOp → List LeaderLease}
    {B : InMemorySchedulerStorage → LeaderLease → Prop} {R : LeaderLease → LeaderLease → Prop}
    (hkeep : ∀ s o lease, B s lease → B (schedulerStorage.next s o) lease)
    (hmark : ∀ s o, ∀ lease ∈ L s o, B (schedulerStorage.next s o) lease)
    (hrel : ∀ s o a b, B s a → b ∈ L s o → R a b) (hself : ∀ s o, (L s o).Pairwise R)
    (s : InMemorySchedulerStorage) (os : List SchedulerStorageOp) :
    (schedulerStorage.trace L s os).Pairwise R :=
  (pairwise_trace (C := fun _ _ => True) (I := fun _ => True) (B := B) (fun _ _ _ _ => trivial)
    (fun s o lease _ _ => hkeep s o lease) (fun s o lease _ _ => hmark s o lease)
    (fun s o a b _ _ => hrel s o a b) (fun s o _ _ => hself s o)
    (always_of_forall (fun _ _ => trivial) s os) trivial).1

theorem new_leases_increasing (s : InMemorySchedulerStorage) (os : List SchedulerStorageOp) :
    (schedulerStorage.trace startedLease s os).Pairwise fun a b =>
      a.key = b.key → a.epoch < b.epoch := by
  apply pairwise_leases (B := WithinEpoch)
  · exact fun s o lease h => withinEpoch_next o h
  · exact fun s o lease h => (withinRecord_issued (mem_of_mem_filter h)).epoch
  · exact fun s o a b ha hb => started_after ha hb
  · exact fun s o => pairwise_of_length_le
      (Nat.le_trans (length_filter_le _ _) (issuedLease_length_le s o))

theorem leases_increasing (s : InMemorySchedulerStorage) (os : List SchedulerStorageOp) :
    (schedulerStorage.trace issuedLease s os).Pairwise fun a b =>
      a.key = b.key → a = b ∨ a.epoch < b.epoch := by
  apply pairwise_leases (B := WithinRecord)
  · exact fun s o lease h => withinRecord_next o h
  · exact fun s o lease h => withinRecord_issued h
  · exact fun s o a b ha hb => issued_after ha hb
  · exact fun s o => pairwise_of_length_le (issuedLease_length_le s o)

/-- The leases handed out for a key or committed with carry epochs that never go down:
    no commit is accepted for a lease older than one handed out before. -/
theorem fence_monotone (s : InMemorySchedulerStorage) (os : List SchedulerStorageOp) :
    (schedulerStorage.trace usedLeases s os).Pairwise fun a b =>
      a.key = b.key → a.epoch ≤ b.epoch := by
  apply pairwise_leases (B := WithinEpoch)
  · exact fun s o lease h => withinEpoch_next o h
  · exact fun s o lease h => withinEpoch_used h
  · exact fun s o a b ha hb => used_after ha hb
  · exact fun s o => pairwise_of_length_le (usedLeases_length_le s o)

/-! ## Live holders -/

/-- What the instances were told agrees with the records as long as it is live. -/
def Holdings.Agree (s : InMemorySchedulerStorage) (h : Holdings) : Prop :=
  ∀ key i epoch expiresAt, h key i = some (epoch, expiresAt) → s.now < expiresAt →
    s.leases.records.get key = some ⟨some i, epoch, expiresAt⟩

private theorem Holdings.Agree.frame {h : Holdings} (ha : h.Agree s) (ho : ¬ OnLeasesOrClock o)
    (hafter : h.after s o = h) : (h.after s o).Agree (schedulerStorage.next s o) := by
  intro key i epoch expiresAt hheld hlive
  obtain ⟨hleases, hnow⟩ := leases_unchanged (s := s) ho
  rw [hafter] at hheld
  rw [hnow] at hlive
  rw [hleases]
  exact ha key i epoch expiresAt hheld hlive

theorem Holdings.Agree.next {h : Holdings} (o : SchedulerStorageOp) (ha : h.Agree s) :
    (h.after s o).Agree (schedulerStorage.next s o) := by
  cases o with
  | tryAcquireLeader key instanceId ttlMs =>
    show (h.after s (.tryAcquireLeader key instanceId ttlMs)).Agree
      (s.tryAcquireLeader key instanceId ttlMs).1
    intro k i epoch expiresAt hheld hlive
    simp only [Holdings.after, tryAcquireLeader] at hheld hlive ⊢
    obtain ⟨r, hr, hheldr, hown, heq⟩ | ⟨r, hr, hheldr, hown, heq⟩ | ⟨e, hfree, heq⟩ :=
      acquire_cases s.leases s.now key instanceId ttlMs
    · -- refused: the instance holds nothing, the others are as before
      rw [heq] at hheld ⊢
      split at hheld
      · cases hheld
      · exact ha k i epoch expiresAt hheld hlive
    · rw [heq] at hheld ⊢
      split at hheld
      · rename_i hki
        simp only [Option.map_some, Option.some.injEq, Prod.mk.injEq] at hheld
        rw [hki.1, hki.2, ← hheld.1, ← hheld.2]
        exact get_set_self _ _ _
      · rename_i hki
        have hrec := ha k i epoch expiresAt hheld hlive
        by_cases hk : key = k
        · -- the record names one holder, and it is the one that refreshes
          subst hk
          have hrr : r = ⟨some i, epoch, expiresAt⟩ := Option.some.inj (hr.symm.trans hrec)
          rw [hrr] at hown
          exact absurd ⟨rfl, Option.some.inj hown⟩ hki
        · exact (get_set_ne _ _ hk).trans hrec
    · rw [heq] at hheld ⊢
      split at hheld
      · rename_i hki
        simp only [Option.map_some, Option.some.injEq, Prod.mk.injEq] at hheld
        rw [hki.1, hki.2, ← hheld.1, ← hheld.2]
        exact get_set_self _ _ _
      · have hrec := ha k i epoch expiresAt hheld hlive
        by_cases hk : key = k
        · -- a new lease starts only when nobody's is live
          subst hk
          have hnot := (hfree _ hrec).1
          simp only [LeaseRecord.Free, reduceCtorEq, false_or] at hnot
          omega
        · exact (get_set_ne _ _ hk).trans hrec
  | releaseLeader lease =>
    show (h.after s (.releaseLeader lease)).Agree (s.releaseLeader lease)
    intro k i epoch expiresAt hheld hlive
    simp only [Holdings.after, releaseLeader] at hheld hlive ⊢
    split at hheld
    · cases hheld
    · rename_i hki
      have hrec := ha k i epoch expiresAt hheld hlive
      obtain ⟨-, heq⟩ | ⟨r, hr, hepoch, hown, heq⟩ := releaseLeader_cases s.leases s.now lease
      · rw [heq]
        exact hrec
      · rw [heq]
        by_cases hk : lease.key = k
        · -- the released lease is the one on record, so its holder forgot it
          subst hk
          have hrr : r = ⟨some i, epoch, expiresAt⟩ := Option.some.inj (hr.symm.trans hrec)
          rw [hrr] at hepoch hown
          have hi : i = lease.instanceId := Option.some.inj hown
          refine absurd ⟨rfl, hi, ?_⟩ hki
          rw [hheld]
          exact congrArg some hepoch
        · exact (get_set_ne _ _ hk).trans hrec
  | advance ms =>
    intro key i epoch expiresAt hheld hlive
    have hnow := now_le_next s (.advance ms)
    exact ha key i epoch expiresAt hheld (by omega)
  | commitPoll updates lease | upsertSchedule config token | insertSchedule config token
  | deleteSchedule id | setEnabled id enabled | setNextRun id nextRun
  | recordFire id firedAt count => exact ha.frame not_false rfl

theorem one_live_holder (s : InMemorySchedulerStorage) (os : List SchedulerStorageOp)
    (key i j : String) :
    let after := (schedulerStorage.withGhost Holdings.after).run (s, fun _ _ => none) os
    HoldsLive after.1 after.2 key i → HoldsLive after.1 after.2 key j → i = j := by
  intro after hi hj
  have hagree : after.2.Agree after.1 := by
    apply run_induction (M := schedulerStorage.withGhost Holdings.after)
      (P := fun p => p.2.Agree p.1)
    · exact fun p o hp => hp.next o
    · exact fun _ _ _ _ h => nomatch h
  obtain ⟨ei, xi, hheldi, hlivei⟩ := hi
  obtain ⟨ej, xj, hheldj, hlivej⟩ := hj
  have hreci := hagree key i ei xi hheldi hlivei
  have hrecj := hagree key j ej xj hheldj hlivej
  have := Option.some.inj (hreci.symm.trans hrecj)
  simp only [LeaseRecord.mk.injEq, Option.some.injEq] at this
  exact this.1

theorem release_not_current
    (h : ¬ IsCurrent s lease) : schedulerStorage.next s (.releaseLeader lease) = s := by
  show s.releaseLeader lease = s
  simp only [releaseLeader]
  obtain ⟨-, heq⟩ | ⟨r, hr, hepoch, hown, -⟩ := releaseLeader_cases s.leases s.now lease
  · rw [heq]
  · exact absurd ⟨r, hr, hepoch, hown⟩ h

/-! ## The guarantee -/

/-- Over every run of the storage, from any state: every new lease of a key has a
    greater epoch than those before it, and distinct leases are handed out with strictly
    increasing epochs; commits are accepted with epochs that never go down nor fall
    behind a lease handed out before; at most one instance holds a live lease of a key;
    and releasing a lease that is not current changes nothing. -/
theorem leader_leases_fence_commits (s : InMemorySchedulerStorage)
    (os : List SchedulerStorageOp) :
    ((schedulerStorage.trace startedLease s os).Pairwise fun a b =>
      a.key = b.key → a.epoch < b.epoch) ∧
    ((schedulerStorage.trace issuedLease s os).Pairwise fun a b =>
      a.key = b.key → a = b ∨ a.epoch < b.epoch) ∧
    ((schedulerStorage.trace usedLeases s os).Pairwise fun a b =>
      a.key = b.key → a.epoch ≤ b.epoch) ∧
    (∀ key i j,
      let after := (schedulerStorage.withGhost Holdings.after).run (s, fun _ _ => none) os
      HoldsLive after.1 after.2 key i → HoldsLive after.1 after.2 key j → i = j) ∧
    (∀ lease, ¬ IsCurrent (schedulerStorage.run s os) lease →
      schedulerStorage.next (schedulerStorage.run s os) (.releaseLeader lease) =
        schedulerStorage.run s os) :=
  ⟨new_leases_increasing s os, leases_increasing s os, fence_monotone s os, one_live_holder s os,
    fun _ => release_not_current⟩

end Promin.Scheduler
