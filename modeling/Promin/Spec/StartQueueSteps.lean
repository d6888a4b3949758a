import Promin.Distributed.StartQueue

/-!
# What one operation does to a queued start

`step_recordOf` says once what any operation of the start queue can do to the
record of one run.  `Agree` is the agreement of the two maps of the queue, kept
by every operation.
-/

namespace Promin.Distributed.StartQueue

open InMemoryWorkflowStartQueue JsMap Option
open List hiding map map_map

/-! ## Record ids -/

private theorem startId_toList_reverse (now : Int) (seq : Nat) (random : List (Fin 36)) :
    (startId now seq random).toList.reverse =
      (randomSuffix random).toList.reverse ++ '-' :: (seq.toBase36.toList.reverse ++
        '-' :: ("start-" ++ now.toBase36).toList.reverse) := by
  simp [startId, reverse_append]

private theorem dash_not_mem_randomSuffix (random : List (Fin 36)) :
    '-' ∉ (randomSuffix random).toList := by
  rw [randomSuffix, String.toList_ofList]
  intro hmem
  obtain ⟨d, -, he⟩ := mem_map.mp hmem
  exact digit36_ne_dash d.val d.isLt he

theorem startId_inj {now now' : Int} {seq seq' : Nat} {random random' : List (Fin 36)}
    (hseq : 0 < seq) (hseq' : 0 < seq') (h : startId now seq random = startId now' seq' random') :
    seq = seq' := by
  have hrev := congrArg (fun s => s.toList.reverse) h
  simp only [startId_toList_reverse] at hrev
  -- The random digits are the text after the last dash, the number is before it.
  obtain ⟨-, hrest⟩ := append_cons_inj_of_first
    (fun hm => dash_not_mem_randomSuffix random (mem_reverse.mp hm))
    (fun hm => dash_not_mem_randomSuffix random' (mem_reverse.mp hm)) hrev
  obtain ⟨hdigits, -⟩ := append_cons_inj_of_first
    (fun hm => Nat.dash_not_mem_toBase36 seq (mem_reverse.mp hm))
    (fun hm => Nat.dash_not_mem_toBase36 seq' (mem_reverse.mp hm)) hrest
  exact Nat.toBase36_inj hseq hseq' (String.toList_inj.mp (reverse_injective hdigits))

/-! ## Agreement of the two maps -/

/-- The record of a workflow, through the index. -/
def recordOf (q : InMemoryWorkflowStartQueue) (workflowId : String) :
    Option WorkflowStartRecord :=
  (q.byWorkflowId.get workflowId).bind q.records.get

/-- `byWorkflowId` holds exactly the records' runs, each under its own record's id, and
    every id was made from a number `seq` has reached. -/
structure Agree (q : InMemoryWorkflowStartQueue) : Prop where
  own : ∀ {id r}, q.records.get id = some r → r.id = id
  indexed : ∀ {id r}, q.records.get id = some r → q.byWorkflowId.get r.workflowId = some id
  index : ∀ {w id}, q.byWorkflowId.get w = some id →
    ∃ r, q.records.get id = some r ∧ r.workflowId = w
  issued : ∀ {id}, (q.records.get id).isSome →
    ∃ now n random, 0 < n ∧ n ≤ q.seq ∧ id = startId now n random

variable (config : InMemoryWorkflowStartQueueConfig)

theorem agree_new : Agree (InMemoryWorkflowStartQueue.new config) where
  own h := by simp [InMemoryWorkflowStartQueue.new] at h
  indexed h := by simp [InMemoryWorkflowStartQueue.new] at h
  index h := by simp [InMemoryWorkflowStartQueue.new] at h
  issued h := by simp [InMemoryWorkflowStartQueue.new] at h

variable {q : InMemoryWorkflowStartQueue}

theorem Agree.next_free (hq : Agree q) (now : Int)
    (random : List (Fin 36)) : q.records.get (startId now (q.seq + 1) random) = none := by
  cases hget : q.records.get (startId now (q.seq + 1) random) with
  | none => rfl
  | some r =>
    obtain ⟨now', n, random', hpos, hle, hid⟩ := hq.issued (by rw [hget]; rfl)
    have := startId_inj (Nat.succ_pos _) hpos hid
    omega

variable {r : WorkflowStartRecord}

theorem Agree.recordOf_eq_some_iff (hq : Agree q) {w : String} :
    recordOf q w = some r ↔ q.records.get r.id = some r ∧ r.workflowId = w := by
  unfold recordOf
  rw [bind_eq_some_iff]
  constructor
  · rintro ⟨id, hid, hget⟩
    obtain ⟨r', hget', hw⟩ := hq.index hid
    rw [hget] at hget'
    cases hget'
    rw [hq.own hget]
    exact ⟨hget, hw⟩
  · rintro ⟨hget, hw⟩
    exact ⟨r.id, hw ▸ hq.indexed hget, hget⟩

def RewritesRecords (q q' : InMemoryWorkflowStartQueue) : Prop :=
  q'.byWorkflowId = q.byWorkflowId ∧ q'.seq = q.seq ∧
  ∀ id, (q'.records.get id).map (fun r => (r.id, r.workflowId)) =
    (q.records.get id).map (fun r => (r.id, r.workflowId))

variable {q q' : InMemoryWorkflowStartQueue}

private theorem RewritesRecords.back
    (h : RewritesRecords q q') {id : String} {r' : WorkflowStartRecord}
    (hget : q'.records.get id = some r') :
    ∃ r, q.records.get id = some r ∧ r'.id = r.id ∧ r'.workflowId = r.workflowId := by
  have hid := h.2.2 id
  rw [hget] at hid
  cases hr : q.records.get id with
  | none => rw [hr] at hid; exact nomatch hid
  | some r =>
    rw [hr] at hid
    simp only [map_some, Option.some.injEq, Prod.mk.injEq] at hid
    exact ⟨r, rfl, hid.1, hid.2⟩

theorem RewritesRecords.agree (h : RewritesRecords q q') (hq : Agree q) : Agree q' where
  own hget := by
    obtain ⟨r, hr, hid, -⟩ := h.back hget
    rw [hid]
    exact hq.own hr
  indexed hget := by
    obtain ⟨r, hr, -, hw⟩ := h.back hget
    rw [h.1, hw]
    exact hq.indexed hr
  index {w id} hact := by
    rw [h.1] at hact
    obtain ⟨r, hr, hw⟩ := hq.index hact
    have hid := h.2.2 id
    rw [hr] at hid
    obtain ⟨r', hr', he⟩ := map_eq_some_iff.mp hid
    simp only [Prod.mk.injEq] at he
    exact ⟨r', hr', he.2.trans hw⟩
  issued {id} hsome := by
    obtain ⟨r', hr'⟩ := isSome_iff_exists.mp hsome
    obtain ⟨r, hr, -, -⟩ := h.back hr'
    rw [h.2.1]
    exact hq.issued (by rw [hr]; rfl)

/-! ## Record changes -/

/-- What one operation issued in `q` can do to one record. -/
inductive RecordChange (q : InMemoryWorkflowStartQueue) (o : StartQueueOp) :
    Option WorkflowStartRecord → Option WorkflowStartRecord → Prop where
  | same (r : Option WorkflowStartRecord) : RecordChange q o r r
  | created {p : WorkflowStartEnqueueParams} {random : List (Fin 36)} {r : WorkflowStartRecord}
      (ho : o = .enqueue p random) (hfree : r.claimToken = none) (hnow : r.availableAt = none) :
      RecordChange q o none (some r)
  | requeued {p : WorkflowStartEnqueueParams} {random : List (Fin 36)} {r : WorkflowStartRecord}
      (ho : o = .enqueue p random) (hclaim : r.claimToken.isSome) :
      RecordChange q o (some r) (some { r with requeued := true })
  | undelayed {p : WorkflowStartEnqueueParams} {random : List (Fin 36)} {r : WorkflowStartRecord}
      (ho : o = .enqueue p random) (hfree : r.claimToken = none) :
      RecordChange q o (some r) (some (unclaimed r))
  | reclaimed {r : WorkflowStartRecord} (hstale : q.stale r = true) :
      RecordChange q o (some r) (some (unclaimed r))
  | claimed {p : WorkflowStartClaimParams} {uuids : Nat → String} {token : String}
      {r : WorkflowStartRecord} (ho : o = .claim p uuids)
      (hfree : q.stale r = true ∨ r.claimToken = none) :
      RecordChange q o (some r) (some (q.stamped p token r))
  | beat {ref : WorkflowStartClaimRef} {r : WorkflowStartRecord} (ho : o = .heartbeat ref)
      (hclaim : r.claimToken = some ref.claimToken) :
      RecordChange q o (some r) (some { r with heartbeatAt := some q.now })
  | finished {ref : WorkflowStartClaimRef} {r : WorkflowStartRecord} (ho : o = .complete ref)
      (hclaim : r.claimToken = some ref.claimToken) (hagain : r.requeued = true) :
      RecordChange q o (some r) (some (unclaimed r))
  | released {ref : WorkflowStartClaimRef} {delayMs : Option Int} {r : WorkflowStartRecord}
      (ho : o = .release ref delayMs) (hclaim : r.claimToken = some ref.claimToken) :
      RecordChange q o (some r) (some (q.released delayMs r))
  | removed {ref : WorkflowStartClaimRef} {r : WorkflowStartRecord} (ho : o = .complete ref)
      (hid : r.id = ref.id) (hclaim : r.claimToken = some ref.claimToken)
      (honce : r.requeued = false) : RecordChange q o (some r) none

theorem claims_records (q : InMemoryWorkflowStartQueue)
    (records : JsMap String WorkflowStartRecord) (p : WorkflowStartClaimParams)
    (r : WorkflowStartRecord) : claims { q with records := records } p r = q.claims p r := rfl

theorem stamped_records (q : InMemoryWorkflowStartQueue)
    (records : JsMap String WorkflowStartRecord) (p : WorkflowStartClaimParams) (token : String)
    (r : WorkflowStartRecord) :
    stamped { q with records := records } p token r = q.stamped p token r := rfl

theorem stamped_unclaimed (q : InMemoryWorkflowStartQueue) (p : WorkflowStartClaimParams)
    (token : String) (r : WorkflowStartRecord) :
    q.stamped p token (unclaimed r) = q.stamped p token r := rfl

theorem reclaimStale_get (q : InMemoryWorkflowStartQueue) (id : String) :
    q.reclaimStale.records.get id =
      (q.records.get id).map fun r => if q.stale r then unclaimed r else r :=
  get_mapValues _ _ _

theorem reclaimStale_rewrites (q : InMemoryWorkflowStartQueue) :
    RewritesRecords q q.reclaimStale := by
  refine ⟨rfl, rfl, fun id => ?_⟩
  rw [reclaimStale_get, map_map]
  congr 1
  funext r
  simp only [Function.comp_apply]
  split <;> rfl

private theorem reclaimStale_change (q : InMemoryWorkflowStartQueue) (o : StartQueueOp)
    (id : String) : RecordChange q o (q.records.get id) (q.reclaimStale.records.get id) := by
  rw [reclaimStale_get]
  cases q.records.get id with
  | none => exact .same none
  | some r =>
    rw [map_some]
    split
    · rename_i hstale
      exact .reclaimed hstale
    · exact .same _

private theorem claimLoop_spec (p : WorkflowStartClaimParams) (uuids : Nat → String)
    (l : List WorkflowStartRecord) (claimed : Nat) (q : InMemoryWorkflowStartQueue)
    (hnd : (l.map (·.id)).Nodup) :
    ∃ records, (claimLoop p uuids l claimed q).1 = { q with records := records } ∧
      ∀ id, records.get id = q.records.get id ∨
        ∃ r token, r ∈ l ∧ r.id = id ∧ q.claims p r = true ∧
          records.get id = some (q.stamped p token r) := by
  induction l generalizing claimed q with
  | nil => exact ⟨q.records, rfl, fun _ => .inl rfl⟩
  | cons rec rest ih =>
    simp only [map_cons, nodup_cons] at hnd
    simp only [claimLoop]
    split
    · exact ⟨q.records, rfl, fun _ => .inl rfl⟩
    · split
      · -- Held, of another worker, or delayed: skipped.
        obtain ⟨records, hq, hrows⟩ := ih claimed q hnd.2
        refine ⟨records, hq, fun id => ?_⟩
        rcases hrows id with h | ⟨r, token, hmem, hrest⟩
        · exact .inl h
        · exact .inr ⟨r, token, mem_cons_of_mem _ hmem, hrest⟩
      · rename_i hclaims
        split
        · exact ⟨q.records, rfl, fun _ => .inl rfl⟩
        · rename_i token _
          obtain ⟨records, hq, hrows⟩ := ih (claimed + 1)
            { q with records := q.records.set rec.id (q.stamped p token rec) } hnd.2
          simp only [claims_records, stamped_records] at hrows
          refine ⟨records, hq, fun id => ?_⟩
          rcases hrows id with h | ⟨r, token', hmem, hrest⟩
          · simp only [get_set] at h
            by_cases hid : rec.id = id
            · rw [if_pos hid] at h
              exact .inr ⟨rec, token, mem_cons_self, hid, by simpa using hclaims, h⟩
            · rw [if_neg hid] at h
              exact .inl h
          · exact .inr ⟨r, token', mem_cons_of_mem _ hmem, hrest⟩

private theorem claimLoop_takes (p : WorkflowStartClaimParams) (uuids : Nat → String)
    (l : List WorkflowStartRecord) (claimed : Nat) (q : InMemoryWorkflowStartQueue)
    (hnd : (l.map (·.id)).Nodup) (hid : p.claimId = none)
    (hlimit : (claimed : Int) + l.length ≤ p.limit) :
    ∀ r ∈ l, q.claims p r = true →
      ∃ token, (claimLoop p uuids l claimed q).1.records.get r.id =
        some (q.stamped p token r) := by
  induction l generalizing claimed q with
  | nil =>
    intro r hmem
    exact absurd hmem not_mem_nil
  | cons rec rest ih =>
    intro r hmem hr
    simp only [map_cons, nodup_cons, length_cons, Nat.cast_add,
      Nat.cast_one] at hnd hlimit
    simp only [claimLoop]
    rw [if_neg (by omega)]
    rcases mem_cons.mp hmem with rfl | hmem
    · rw [if_neg (by simp [hr])]
      simp only [hid, claimTokenFor]
      -- The rest of the loop leaves the record just taken alone.
      obtain ⟨records, hq, hrows⟩ := claimLoop_spec p uuids rest (claimed + 1)
        { q with records := q.records.set r.id (q.stamped p (uuids claimed) r) } hnd.2
      refine ⟨uuids claimed, ?_⟩
      rw [hq]
      rcases hrows r.id with h | ⟨r', token', hmem', hid', -⟩
      · simpa using h
      · exact absurd (mem_map.mpr ⟨r', hmem', hid'⟩) hnd.1
    · split
      · exact ih claimed q hnd.2 (by omega) r hmem hr
      · simp only [hid, claimTokenFor]
        have htakes := ih (claimed + 1)
          { q with records := q.records.set rec.id (q.stamped p (uuids claimed) rec) }
          hnd.2 (by push_cast; omega) r hmem
        rw [claims_records] at htakes
        simp only [stamped_records] at htakes
        exact htakes hr

private theorem Agree.nodup_ids (hq : Agree q) :
    (q.records.values.map (·.id)).Nodup := by
  have hkeys : q.records.values.map (·.id) = q.records.keys := by
    unfold JsMap.values JsMap.keys
    rw [List.map_map]
    apply map_congr_left
    rintro ⟨id, r⟩ hmem
    exact hq.own ((mem_entries_iff _ _ _).mp hmem)
  rw [hkeys]
  exact q.records.nodup

private theorem Agree.get_of_mem_values (hq : Agree q)
    (h : r ∈ q.records.values) : q.records.get r.id = some r := by
  obtain ⟨id, hget⟩ := (mem_values_iff _ _).mp h
  rw [hq.own hget]
  exact hget

theorem claims_free {p : WorkflowStartClaimParams}
    (h : q.claims p r = true) : r.claimToken = none := by
  simp only [claims, Bool.and_eq_true, isNone_iff_eq_none] at h
  exact h.1.1

theorem claim_spec (hq : Agree q) (p : WorkflowStartClaimParams) (uuids : Nat → String) :
    ∃ records, (q.claim p uuids).1 = { q with records := records } ∧
      ∀ id, records.get id = q.reclaimStale.records.get id ∨
        ∃ r token, q.reclaimStale.records.get id = some r ∧ r.claimToken = none ∧
          records.get id = some (q.stamped p token r) := by
  have hr : Agree q.reclaimStale := (reclaimStale_rewrites q).agree hq
  have hsame : ∃ records, q.reclaimStale = { q with records := records } ∧
      ∀ id, records.get id = q.reclaimStale.records.get id ∨
        ∃ r token, q.reclaimStale.records.get id = some r ∧ r.claimToken = none ∧
          records.get id = some (q.stamped p token r) :=
    ⟨q.reclaimStale.records, rfl, fun _ => .inl rfl⟩
  have hloop : ∃ records,
      (claimLoop p uuids q.reclaimStale.records.values 0 q.reclaimStale).1 =
        { q with records := records } ∧
      ∀ id, records.get id = q.reclaimStale.records.get id ∨
        ∃ r token, q.reclaimStale.records.get id = some r ∧ r.claimToken = none ∧
          records.get id = some (q.stamped p token r) := by
    obtain ⟨records, hrec, hrows⟩ := claimLoop_spec p uuids q.reclaimStale.records.values 0
      q.reclaimStale hr.nodup_ids
    refine ⟨records, hrec, fun id => ?_⟩
    rcases hrows id with h | ⟨r, token, hmem, hid, hclaims, h⟩
    · exact .inl h
    · exact .inr ⟨r, token, hid ▸ hr.get_of_mem_values hmem, claims_free hclaims, h⟩
  unfold claim
  simp only
  split
  · exact hloop
  · split
    · exact hsame
    · split
      · exact hsame
      · exact hloop

theorem claim_takes (hq : Agree q) {w : String}
    (hrec : recordOf q w = some r) {p : WorkflowStartClaimParams}
    (hclaims : q.claims p r = true) (hid : p.claimId = none)
    (hlimit : (q.records.size : Int) ≤ p.limit) (uuids : Nat → String) :
    ∃ token, recordOf (q.claim p uuids).1 w = some (q.stamped p token r) := by
  obtain ⟨hget, hw⟩ := hq.recordOf_eq_some_iff.mp hrec
  have hfree := claims_free hclaims
  have hr : Agree q.reclaimStale := (reclaimStale_rewrites q).agree hq
  have hget' : q.reclaimStale.records.get r.id = some r := by
    rw [reclaimStale_get, hget]
    simp [stale, hfree]
  have hmem : r ∈ q.reclaimStale.records.values := (mem_values_iff _ _).mpr ⟨r.id, hget'⟩
  have hlen : q.reclaimStale.records.values.length = q.records.size := by
    simp [reclaimStale, JsMap.values, JsMap.mapValues, JsMap.size]
  obtain ⟨token, htaken⟩ := claimLoop_takes p uuids q.reclaimStale.records.values 0
    q.reclaimStale hr.nodup_ids hid (by rw [hlen]; simpa using hlimit) r hmem hclaims
  refine ⟨token, ?_⟩
  have hclaim : (q.claim p uuids).1 =
      (claimLoop p uuids q.reclaimStale.records.values 0 q.reclaimStale).1 := by
    simp [claim, hid]
  obtain ⟨records, hloop, -⟩ := claimLoop_spec p uuids q.reclaimStale.records.values 0
    q.reclaimStale hr.nodup_ids
  have hidx : (q.claim p uuids).1.byWorkflowId = q.byWorkflowId := by
    rw [hclaim, hloop]
    rfl
  unfold recordOf
  rw [hidx, ← hw, hq.indexed hget, hclaim]
  exact htaken

private theorem claim_change (hq : Agree q)
    (p : WorkflowStartClaimParams) (uuids : Nat → String) (id : String) :
    RecordChange q (.claim p uuids) (q.records.get id) ((q.claim p uuids).1.records.get id) := by
  obtain ⟨records, hclaim, hrows⟩ := claim_spec hq p uuids
  rw [hclaim]
  show RecordChange q _ _ (records.get id)
  rcases hrows id with h | ⟨r, token, hget, hfree, h⟩
  · rw [h]
    exact reclaimStale_change q _ id
  · rw [h]
    rw [reclaimStale_get] at hget
    obtain ⟨r₀, hget₀, hr₀⟩ := map_eq_some_iff.mp hget
    rw [hget₀]
    -- Taken as it was, or reclaimed from a stale claim first.
    split at hr₀
    · rename_i hstale
      subst hr₀
      rw [stamped_unclaimed]
      exact .claimed rfl (.inl hstale)
    · subst hr₀
      exact .claimed rfl (.inr hfree)

private theorem claim_rewrites (hq : Agree q)
    (p : WorkflowStartClaimParams) (uuids : Nat → String) :
    RewritesRecords q (q.claim p uuids).1 := by
  obtain ⟨records, hclaim, hrows⟩ := claim_spec hq p uuids
  rw [hclaim]
  refine ⟨rfl, rfl, fun id => ?_⟩
  rw [← (reclaimStale_rewrites q).2.2 id]
  rcases hrows id with h | ⟨r, token, hget, -, h⟩
  · simp only [h]
  · simp only [h, hget, map_some, stamped, unclaimed]

theorem current_eq_some_iff {ref : WorkflowStartClaimRef} :
    q.current ref = some r ↔
      q.records.get ref.id = some r ∧ r.claimToken = some ref.claimToken := by
  unfold current
  cases hget : q.records.get ref.id with
  | none => simp
  | some r' =>
    by_cases htok : r'.claimToken = some ref.claimToken
    · simp only [htok, ↓reduceIte, Option.some.injEq]
      exact ⟨fun h => ⟨h, h ▸ htok⟩, fun h => h.1⟩
    · simp only [htok, ↓reduceIte, Option.some.injEq, reduceCtorEq, false_iff, not_and]
      intro h hr
      exact htok (h ▸ hr)

private theorem recordOf_change {o : StartQueueOp} (hindex : q'.byWorkflowId = q.byWorkflowId)
    (hrows : ∀ id, RecordChange q o (q.records.get id) (q'.records.get id)) (w : String) :
    RecordChange q o (recordOf q w) (recordOf q' w) := by
  unfold recordOf
  rw [hindex]
  cases q.byWorkflowId.get w with
  | none => exact .same none
  | some id => exact hrows id

private theorem set_spec (hq : Agree q) {o : StartQueueOp} {id₀ : String} (r' : WorkflowStartRecord)
    (hget : q.records.get id₀ = some r) (hid : r'.id = r.id) (hw : r'.workflowId = r.workflowId)
    (h : RecordChange q o (some r) (some r')) :
    Agree { q with records := q.records.set id₀ r' } ∧
      ∀ w, RecordChange q o (recordOf q w)
        (recordOf { q with records := q.records.set id₀ r' } w) := by
  constructor
  · refine RewritesRecords.agree (q := q) ⟨rfl, rfl, fun id => ?_⟩ hq
    by_cases he : id₀ = id
    · subst he
      simp only [get_set_self, hget, map_some, hid, hw]
    · simp only [get_set_ne _ _ he]
  · refine recordOf_change (q := q) rfl fun id => ?_
    by_cases he : id₀ = id
    · subst he
      simp only [hget, get_set_self]
      exact h
    · simp only [get_set_ne _ _ he]
      exact .same _

private theorem step_reclaimStale (hq : Agree q) (o : StartQueueOp) (w : String) :
    Agree q.reclaimStale ∧ RecordChange q o (recordOf q w) (recordOf q.reclaimStale w) :=
  ⟨(reclaimStale_rewrites q).agree hq,
    recordOf_change (reclaimStale_rewrites q).1 (reclaimStale_change q o) w⟩

private theorem step_heartbeat (hq : Agree q) (ref : WorkflowStartClaimRef) (w : String) :
    Agree (q.heartbeat ref).1 ∧
      RecordChange q (.heartbeat ref) (recordOf q w) (recordOf (q.heartbeat ref).1 w) := by
  obtain ⟨hagree, hreclaim⟩ := step_reclaimStale hq (.heartbeat ref) w
  unfold heartbeat
  simp only
  cases hcur : q.reclaimStale.current ref with
  | none => exact ⟨hagree, hreclaim⟩
  | some r =>
    obtain ⟨hget, htok⟩ := current_eq_some_iff.mp hcur
    refine ⟨(set_spec (o := .heartbeat ref) hagree { r with heartbeatAt := some q.now } hget
      rfl rfl (.beat rfl htok)).1, ?_⟩
    simp only
    refine recordOf_change (by rfl) (fun id => ?_) w
    by_cases hid : ref.id = id
    · subst hid
      -- A live claim survives the reclaim as it was.
      simp only [get_set_self]
      rw [reclaimStale_get] at hget
      obtain ⟨r₀, hget₀, hr₀⟩ := map_eq_some_iff.mp hget
      rw [hget₀]
      split at hr₀
      · subst hr₀
        cases htok
      · subst hr₀
        exact .beat rfl htok
    · simp only [get_set_ne _ _ hid]
      exact reclaimStale_change q _ id

/-! ## Any operation -/

theorem enqueue_cases (hq : Agree q) (p : WorkflowStartEnqueueParams) (random : List (Fin 36)) :
    (∃ r, recordOf q p.workflowId = some r ∧
      ((r.claimToken = none ∧ (q.enqueue p random).1 = q) ∨
        ∃ r', (q.enqueue p random).1 = { q with records := q.records.set r.id r' } ∧
          ((r.claimToken.isSome ∧ r' = { r with requeued := true }) ∨
            (r.claimToken = none ∧ r' = unclaimed r)))) ∨
    (recordOf q p.workflowId = none ∧ q.byWorkflowId.get p.workflowId = none ∧
      ∃ r, r.id = startId q.now (q.seq + 1) random ∧ r.workflowId = p.workflowId ∧
        r.claimToken = none ∧ r.availableAt = none ∧
        (q.enqueue p random).1 =
          { q with
            seq := q.seq + 1
            records := q.records.set r.id r
            byWorkflowId := q.byWorkflowId.set p.workflowId r.id }) := by
  cases hidx : q.byWorkflowId.get p.workflowId with
  | none =>
    refine .inr ⟨by simp [recordOf, hidx], rfl,
      q.newRecord (startId q.now (q.seq + 1) random) p, rfl, rfl, rfl, rfl, ?_⟩
    simp [enqueue, hidx, newRecord]
  | some existing =>
    obtain ⟨r, hget, hw⟩ := hq.index hidx
    have hid := hq.own hget
    subst hid
    refine .inl ⟨r, by simp [recordOf, hidx, hget], ?_⟩
    unfold enqueue
    rw [hidx]
    simp only [hget]
    split
    · rename_i hclaim
      exact .inr ⟨_, rfl, .inl ⟨hclaim, rfl⟩⟩
    · rename_i hclaim
      have hfree : r.claimToken = none := by simpa using hclaim
      split
      · split
        · exact .inr ⟨_, rfl, .inr ⟨hfree, rfl⟩⟩
        · exact .inl ⟨hfree, rfl⟩
      · exact .inl ⟨hfree, rfl⟩

/-- An enqueue changes the record of its workflow only, or creates it under a free id. -/
private theorem step_enqueue (hq : Agree q)
    (p : WorkflowStartEnqueueParams) (random : List (Fin 36)) (w : String) :
    Agree (q.enqueue p random).1 ∧
      RecordChange q (.enqueue p random) (recordOf q w) (recordOf (q.enqueue p random).1 w) := by
  rcases enqueue_cases hq p random with
    ⟨r, hrec, ⟨-, h⟩ | ⟨r', h, hr'⟩⟩ | ⟨-, hfree, r, hid, hw, htok, havail, h⟩
  · rw [h]
    exact ⟨hq, .same _⟩
  · rw [h]
    obtain ⟨hget, -⟩ := hq.recordOf_eq_some_iff.mp hrec
    have hchange : RecordChange q (.enqueue p random) (some r) (some r') := by
      rcases hr' with ⟨hclaim, rfl⟩ | ⟨hfree, rfl⟩
      · exact .requeued rfl hclaim
      · exact .undelayed rfl hfree
    have hkeep : r'.id = r.id ∧ r'.workflowId = r.workflowId := by
      rcases hr' with ⟨-, rfl⟩ | ⟨-, rfl⟩ <;> exact ⟨rfl, rfl⟩
    obtain ⟨hagree, hrec'⟩ := set_spec hq r' hget hkeep.1 hkeep.2 hchange
    exact ⟨hagree, hrec' w⟩
  · rw [h]
    -- no id counted later is in use, so the new record replaces none
    have hnew : q.records.get r.id = none := by
      rw [hid]
      exact hq.next_free q.now random
    constructor
    · constructor
      · intro id r₁ hget
        simp only [get_set] at hget
        split at hget
        · rename_i he
          cases hget
          exact he
        · exact hq.own hget
      · intro id r₁ hget
        simp only [get_set] at hget ⊢
        split at hget
        · rename_i he
          cases hget
          rw [if_pos hw.symm, he]
        · rw [if_neg, hq.indexed hget]
          intro he
          rw [he, hq.indexed hget] at hfree
          cases hfree
      · intro w id hact
        simp only [get_set] at hact
        split at hact
        · rename_i he
          cases hact
          exact ⟨r, get_set_self _ _ _, hw.trans he⟩
        · obtain ⟨r₁, hget, hw₁⟩ := hq.index hact
          have hne : r.id ≠ id := by
            rintro rfl
            rw [hnew] at hget
            cases hget
          exact ⟨r₁, by simp only [get_set_ne _ _ hne, hget], hw₁⟩
      · intro id hsome
        simp only [get_set] at hsome
        split at hsome
        · rename_i he
          exact ⟨q.now, q.seq + 1, random, Nat.succ_pos _, Nat.le_refl _, he.symm.trans hid⟩
        · obtain ⟨now, n, random', hpos, hle, hn⟩ := hq.issued hsome
          exact ⟨now, n, random', hpos, Nat.le_succ_of_le hle, hn⟩
    · by_cases hwp : p.workflowId = w
      · subst hwp
        have hbefore : recordOf q p.workflowId = none := by simp [recordOf, hfree]
        have hafter : recordOf { q with
            seq := q.seq + 1
            records := q.records.set r.id r
            byWorkflowId := q.byWorkflowId.set p.workflowId r.id } p.workflowId = some r := by
          simp [recordOf]
        rw [hbefore, hafter]
        exact .created rfl htok havail
      · have hsame : recordOf { q with
            seq := q.seq + 1
            records := q.records.set r.id r
            byWorkflowId := q.byWorkflowId.set p.workflowId r.id } w = recordOf q w := by
          unfold recordOf
          simp only [get_set_ne _ _ hwp]
          cases hidx : q.byWorkflowId.get w with
          | none => rfl
          | some id =>
            obtain ⟨r₁, hget, -⟩ := hq.index hidx
            have hne : r.id ≠ id := by
              rintro rfl
              rw [hnew] at hget
              cases hget
            exact get_set_ne _ _ hne
        rw [hsame]
        exact .same _

/-- A completion removes the claimed record, unless it was enqueued again meanwhile. -/
private theorem step_complete (hq : Agree q) (ref : WorkflowStartClaimRef) (w : String) :
    Agree (q.complete ref).1 ∧
      RecordChange q (.complete ref) (recordOf q w) (recordOf (q.complete ref).1 w) := by
  unfold complete
  cases hcur : q.current ref with
  | none => exact ⟨hq, .same _⟩
  | some r =>
    obtain ⟨hget, htok⟩ := current_eq_some_iff.mp hcur
    have hid := hq.own hget
    simp only
    split
    · rename_i hagain
      obtain ⟨hagree, hrec⟩ :=
        set_spec hq (unclaimed r) hget rfl rfl (.finished rfl htok hagain)
      exact ⟨hagree, hrec w⟩
    · rename_i honce
      have hidx := hq.indexed hget
      constructor
      · constructor
        · intro id r₁ hget₁
          simp only [get_delete] at hget₁
          split at hget₁
          · cases hget₁
          · exact hq.own hget₁
        · intro id r₁ hget₁
          simp only [get_delete] at hget₁ ⊢
          split at hget₁
          · cases hget₁
          · rename_i hne
            rw [if_neg, hq.indexed hget₁]
            intro he
            rw [he, hq.indexed hget₁] at hidx
            -- the index has one id for each workflow
            exact hne (Option.some.inj hidx).symm
        · intro w' id hact
          simp only [get_delete] at hact
          split at hact
          · cases hact
          · rename_i hne
            obtain ⟨r₁, hget₁, hw₁⟩ := hq.index hact
            refine ⟨r₁, ?_, hw₁⟩
            rw [get_delete_ne, hget₁]
            rintro rfl
            rw [hget] at hget₁
            cases hget₁
            exact hne hw₁
        · intro id hsome
          simp only [get_delete] at hsome
          split at hsome
          · cases hsome
          · exact hq.issued hsome
      · by_cases hw : r.workflowId = w
        · subst hw
          have hbefore : recordOf q r.workflowId = some r := by simp [recordOf, hidx, hget]
          have hafter : recordOf { q with
              records := q.records.delete ref.id
              byWorkflowId := q.byWorkflowId.delete r.workflowId } r.workflowId = none := by
            simp [recordOf]
          rw [hbefore, hafter]
          exact .removed rfl hid htok (by simpa using honce)
        · have hsame : recordOf { q with
              records := q.records.delete ref.id
              byWorkflowId := q.byWorkflowId.delete r.workflowId } w = recordOf q w := by
            unfold recordOf
            simp only [get_delete_ne _ hw]
            cases hidx' : q.byWorkflowId.get w with
            | none => rfl
            | some id =>
              obtain ⟨r₁, hget₁, hw₁⟩ := hq.index hidx'
              have hne : ref.id ≠ id := by
                rintro rfl
                rw [hget] at hget₁
                cases hget₁
                exact hw hw₁
              exact get_delete_ne _ hne
          rw [hsame]
          exact .same _

private theorem step_release (hq : Agree q)
    (ref : WorkflowStartClaimRef) (delayMs : Option Int) (w : String) :
    Agree (q.release ref delayMs).1 ∧
      RecordChange q (.release ref delayMs) (recordOf q w)
        (recordOf (q.release ref delayMs).1 w) := by
  unfold release
  cases hcur : q.current ref with
  | none => exact ⟨hq, .same _⟩
  | some r =>
    obtain ⟨hget, htok⟩ := current_eq_some_iff.mp hcur
    obtain ⟨hagree, hrec⟩ :=
      set_spec hq (q.released delayMs r) hget rfl rfl (.released rfl htok)
    exact ⟨hagree, hrec w⟩

/-- **What one operation of the queue can do to the record of one run**, and that it
    keeps the two maps in agreement. -/
theorem step_recordOf (hq : Agree q) (o : StartQueueOp) (w : String) :
    Agree (startQueue.next q o) ∧
      RecordChange q o (recordOf q w) (recordOf (startQueue.next q o) w) := by
  cases o with
  | advance ms => exact ⟨⟨hq.own, hq.indexed, hq.index, hq.issued⟩, .same _⟩
  | enqueue p random => exact step_enqueue hq p random w
  | claim p uuids =>
    have h := claim_rewrites hq p uuids
    exact ⟨h.agree hq, recordOf_change h.1 (claim_change hq p uuids) w⟩
  | heartbeat ref => exact step_heartbeat hq ref w
  | complete ref => exact step_complete hq ref w
  | release ref delayMs => exact step_release hq ref delayMs w
  | list limit => exact step_reclaimStale hq (.list limit) w

theorem run_agree (ops : List StartQueueOp) : Agree (startQueue.run (.new config) ops) :=
  Machine.run_induction (P := Agree) (fun _ o h => (step_recordOf h o "").1) ops
    (agree_new config)

end Promin.Distributed.StartQueue

/-!
## No wake-up is lost

An enqueue asks for one more drive of a run.
-/

namespace Promin.Distributed.StartQueue

open InMemoryWorkflowStartQueue Machine

/-! ## Claims of a run -/

/-- The start is claimed under the token. -/
def HeldUnder (w token : String) (q : InMemoryWorkflowStartQueue) : Prop :=
  ∃ r, recordOf q w = some r ∧ r.claimToken = some token

/-- The run is held under `token` and was enqueued again since. -/
def RequeuedUnder (w token : String) (q : InMemoryWorkflowStartQueue) : Prop :=
  ∃ r, recordOf q w = some r ∧ r.claimToken = some token ∧ r.requeued = true

/-- The start waits for nobody. -/
def ClaimableAtOnce (w : String) (q : InMemoryWorkflowStartQueue) : Prop :=
  ∃ r, recordOf q w = some r ∧ r.claimToken = none ∧ r.availableAt = none

/-- The operation is a claim call that takes the run under `token`. -/
def Takes (w token : String) (q : InMemoryWorkflowStartQueue) (o : StartQueueOp) : Prop :=
  (∃ p uuids, o = .claim p uuids) ∧
  (∃ r, recordOf q.reclaimStale w = some r ∧ r.claimToken = none) ∧
  HeldUnder w token (startQueue.next q o)

/-- The operation completes the claim of the run under `token`. -/
def Completes (w token : String) (q : InMemoryWorkflowStartQueue) (o : StartQueueOp) : Prop :=
  ∃ r, recordOf q w = some r ∧ r.claimToken = some token ∧ o = .complete ⟨r.id, token⟩ ∧
    startQueue.out q o = .done true

/-- The operation looks for stale claims first. -/
inductive Reclaims : StartQueueOp → Prop where
  | claim (p : WorkflowStartClaimParams) (uuids : Nat → String) : Reclaims (.claim p uuids)
  | heartbeat (ref : WorkflowStartClaimRef) : Reclaims (.heartbeat ref)
  | list (limit : Option Int) : Reclaims (.list limit)

/-- In the run `ops` from `q`, some claim of the run `w` was taken, held without a break
    and completed. -/
def Driven (w : String) (q : InMemoryWorkflowStartQueue) (ops : List StartQueueOp) : Prop :=
  ∃ token before o after, ops = before ++ o :: after ∧
    startQueue.Since (Takes w token) (HeldUnder w token) q before ∧
    Completes w token (startQueue.run q before) o

private theorem recordOf_reclaimStale (q : InMemoryWorkflowStartQueue) (w : String) :
    recordOf q.reclaimStale w =
      (recordOf q w).map fun r => if q.stale r then unclaimed r else r := by
  unfold recordOf
  rw [(reclaimStale_rewrites q).1]
  cases q.byWorkflowId.get w with
  | none => rfl
  | some id => exact reclaimStale_get q id

variable {q : InMemoryWorkflowStartQueue} {r : WorkflowStartRecord} {w : String} {o : StartQueueOp}

private theorem step_claim (hq : Agree q) (o : StartQueueOp) (hrec : recordOf q w = some r) :
    (∃ r', recordOf (startQueue.next q o) w = some r' ∧ r'.claimToken = none) ∨
    (∃ token, Takes w token q o) ∨
    (∃ r', recordOf (startQueue.next q o) w = some r' ∧ r'.claimToken = r.claimToken ∧
      (r.requeued = true → r'.requeued = true)) ∨
    (r.requeued = false ∧ ∃ token, r.claimToken = some token ∧ Completes w token q o) := by
  have hchange := (step_recordOf hq o w).2
  rw [hrec] at hchange
  generalize hafter : recordOf (startQueue.next q o) w = after at hchange
  cases hchange with
  | same => exact .inr (.inr (.inl ⟨r, rfl, rfl, id⟩))
  | requeued ho hclaim => exact .inr (.inr (.inl ⟨_, rfl, rfl, fun _ => rfl⟩))
  | undelayed ho hfree | reclaimed hstale | finished ho hclaim hagain | released ho hclaim =>
    exact .inl ⟨_, rfl, rfl⟩
  | @claimed p uuids token _ ho hfree =>
    refine .inr (.inl ⟨token, ⟨p, uuids, ho⟩, ?_, ⟨_, hafter, rfl⟩⟩)
    rw [recordOf_reclaimStale, hrec, Option.map_some]
    refine ⟨_, rfl, ?_⟩
    split
    · rfl
    · rename_i hlive
      exact hfree.resolve_left hlive
  | beat ho hclaim => exact .inr (.inr (.inl ⟨_, rfl, rfl, id⟩))
  | @removed ref _ ho hid hclaim honce =>
    refine .inr (.inr (.inr ⟨honce, ref.claimToken, hclaim, r, hrec, hclaim, ?_, ?_⟩))
    · rw [ho, hid]
    · subst ho
      have hget : q.records.get ref.id = some r := hid ▸ (hq.recordOf_eq_some_iff.mp hrec).1
      simp [startQueue, Machine.out, complete, current, hget, hclaim, honce]

private theorem step_enqueue_recordOf (hq : Agree q)
    (p : WorkflowStartEnqueueParams) (random : List (Fin 36)) :
    ∃ r', recordOf (startQueue.next q (.enqueue p random)) p.workflowId = some r' ∧
      ((r'.claimToken = none ∧ ∀ token, ¬ HeldUnder p.workflowId token q) ∨
        (r'.requeued = true ∧
          ∃ r, recordOf q p.workflowId = some r ∧ r'.claimToken = r.claimToken)) := by
  show ∃ r', recordOf (q.enqueue p random).1 p.workflowId = some r' ∧ _
  rcases enqueue_cases hq p random with
    ⟨r, hrec, ⟨hfree, h⟩ | ⟨r', h, hr'⟩⟩ | ⟨hnone, -, r, -, -, htok, -, h⟩
  · rw [h]
    refine ⟨r, hrec, .inl ⟨hfree, ?_⟩⟩
    rintro token ⟨r₀, hrec₀, htok₀⟩
    rw [hrec] at hrec₀
    cases hrec₀
    rw [hfree] at htok₀
    cases htok₀
  · rw [h]
    obtain ⟨hget, hw⟩ := hq.recordOf_eq_some_iff.mp hrec
    refine ⟨r', ?_, ?_⟩
    · simp [recordOf, ← hw, hq.indexed hget]
    · rcases hr' with ⟨-, rfl⟩ | ⟨hfree, rfl⟩
      · exact .inr ⟨rfl, r, hrec, rfl⟩
      · refine .inl ⟨rfl, ?_⟩
        rintro token ⟨r₀, hrec₀, htok₀⟩
        rw [hrec] at hrec₀
        cases hrec₀
        rw [hfree] at htok₀
        cases htok₀
  · rw [h]
    refine ⟨r, by simp [recordOf], .inl ⟨htok, ?_⟩⟩
    rintro token ⟨r₀, hrec₀, -⟩
    rw [hnone] at hrec₀
    cases hrec₀

/-! ## Every run after an enqueue -/

private theorem run_kept (hq : Agree q) (hrec : recordOf q w = some r)
    (hstart : r.claimToken = none ∨ r.requeued = true) (ops : List StartQueueOp) :
    Driven w q ops ∨ ∃ r, recordOf (startQueue.run q ops) w = some r ∧
      ∀ token, r.claimToken = some token → r.requeued = true ∨
        startQueue.Since (Takes w token) (HeldUnder w token) q ops := by
  induction ops using List.reverseRecOn with
  | nil =>
    refine .inr ⟨r, hrec, fun token htok => .inl ?_⟩
    rcases hstart with hfree | hmark
    · rw [hfree] at htok
      exact nomatch htok
    · exact hmark
  | append_singleton ops o ih =>
    have hagree : Agree (startQueue.run q ops) :=
      run_induction (P := Agree) (fun _ o h => (step_recordOf h o w).1) ops hq
    rcases ih with ⟨token, before, o', after, rfl, hsince, hdone⟩ | ⟨r₀, hrec₀, hheld⟩
    · exact .inl ⟨token, before, o', after ++ [o], by simp, hsince, hdone⟩
    · rw [run_snoc]
      rcases step_claim hagree o hrec₀ with
        ⟨r', hrec', hfree⟩ | ⟨token, htakes⟩ | ⟨r', hrec', htok', hmark⟩ |
          ⟨honce, token, htok, hdone⟩
      · refine .inr ⟨r', hrec', fun token htok => ?_⟩
        rw [hfree] at htok
        exact nomatch htok
      · obtain ⟨r', hrec', htok'⟩ := htakes.2.2
        refine .inr ⟨r', hrec', fun token' he => .inr ?_⟩
        rw [htok'] at he
        cases he
        refine since_last htakes ?_
        rw [run_snoc]
        exact ⟨r', hrec', htok'⟩
      · -- The claim goes on: the mark stays, and so does the time it was taken.
        refine .inr ⟨r', hrec', fun token he => ?_⟩
        rcases hheld token (htok' ▸ he) with hre | hsince
        · exact .inl (hmark hre)
        · refine .inr (since_snoc hsince ?_)
          rw [run_snoc]
          exact ⟨r', hrec', he⟩
      · rcases hheld token htok with hre | hsince
        · rw [honce] at hre
          exact nomatch hre
        · exact .inl ⟨token, ops, o, [], rfl, hsince, hdone⟩

private theorem step_claimableAtOnce (hq : Agree q) (h : ClaimableAtOnce w q)
    (hnot : ¬ ∃ token, Takes w token q o) : ClaimableAtOnce w (startQueue.next q o) := by
  obtain ⟨r, hrec, hfree, hnow⟩ := h
  have htakes := step_claim hq o hrec
  have hchange := (step_recordOf hq o w).2
  rw [hrec] at hchange
  generalize hafter : recordOf (startQueue.next q o) w = after at hchange htakes
  cases hchange with
  | same => exact ⟨r, hafter, hfree, hnow⟩
  | requeued ho hclaim
  | beat ho hclaim | finished ho hclaim | released ho hclaim | removed ho _ hclaim =>
    rw [hfree] at hclaim
    exact nomatch hclaim
  | undelayed ho hfree' | reclaimed hstale => exact ⟨_, hafter, rfl, rfl⟩
  | claimed ho hfree' =>
    rcases htakes with ⟨r', hr', hfree''⟩ | htakes | ⟨r', hr', htok, -⟩ | ⟨-, token, htok, -⟩
    · cases hr'
      exact nomatch hfree''
    · exact absurd htakes hnot
    · cases hr'
      rw [hfree] at htok
      exact nomatch htok
    · rw [hfree] at htok
      exact nomatch htok

private theorem step_requeuedUnder (hq : Agree q) {token : String} (h : RequeuedUnder w token q)
    (hnot : ¬ ∃ token, Takes w token q o) :
    RequeuedUnder w token (startQueue.next q o) ∨ ClaimableAtOnce w (startQueue.next q o) := by
  obtain ⟨r, hrec, htok, hmark⟩ := h
  have htakes := step_claim hq o hrec
  have hchange := (step_recordOf hq o w).2
  rw [hrec] at hchange
  generalize hafter : recordOf (startQueue.next q o) w = after at hchange htakes
  cases hchange with
  | same => exact .inl ⟨r, hafter, htok, hmark⟩
  | requeued ho hclaim => exact .inl ⟨_, hafter, htok, rfl⟩
  | undelayed ho hfree =>
    rw [hfree] at htok
    exact nomatch htok
  | reclaimed hstale | finished ho hclaim hagain => exact .inr ⟨_, hafter, rfl, rfl⟩
  | claimed ho hfree =>
    rcases htakes with ⟨r', hr', hfree'⟩ | htakes | ⟨r', hr', -, hre⟩ | ⟨honce, -⟩
    · cases hr'
      exact nomatch hfree'
    · exact absurd htakes hnot
    · cases hr'
      exact nomatch hre hmark
    · rw [honce] at hmark
      exact nomatch hmark
  | beat ho hclaim => exact .inl ⟨_, hafter, htok, hmark⟩
  | released ho hclaim =>
    refine .inr ⟨_, hafter, rfl, ?_⟩
    simp [released, hmark]
  | removed ho hid hclaim honce =>
    rw [hmark] at honce
    exact nomatch honce

private theorem requeuedUnder_ends (hq : Agree q) {token : String} (hrec : recordOf q w = some r)
    (htok : r.claimToken = some token) (hmark : r.requeued = true) :
    (startQueue.out q (.complete ⟨r.id, token⟩) = .done true ∧
      ClaimableAtOnce w (startQueue.next q (.complete ⟨r.id, token⟩))) ∧
    ∀ delayMs, startQueue.out q (.release ⟨r.id, token⟩ delayMs) = .done true ∧
      ClaimableAtOnce w (startQueue.next q (.release ⟨r.id, token⟩ delayMs)) := by
  obtain ⟨hget, hw⟩ := hq.recordOf_eq_some_iff.mp hrec
  have hcur : q.current ⟨r.id, token⟩ = some r := by simp [current, hget, htok]
  have hidx := hw ▸ hq.indexed hget
  refine ⟨⟨?_, unclaimed r, ?_, rfl, rfl⟩, fun delayMs => ⟨?_, q.released delayMs r, ?_, rfl, ?_⟩⟩
  · simp [startQueue, Machine.out, complete, hcur, hmark]
  · simp [startQueue, Machine.next, complete, hcur, hmark, recordOf, hidx]
  · simp [startQueue, Machine.out, release, hcur]
  · simp [startQueue, Machine.next, release, hcur, recordOf, hidx]
  · simp [released, hmark]

private theorem stale_ends (hq : Agree q) (hrec : recordOf q w = some r) (hstale : q.stale r = true)
    (ho : Reclaims o) :
    ClaimableAtOnce w (startQueue.next q o) ∨ ∃ token, Takes w token q o := by
  have hreclaim : recordOf q.reclaimStale w = some (unclaimed r) := by
    simp [recordOf_reclaimStale, hrec, hstale]
  obtain ⟨hget, hw⟩ := ((reclaimStale_rewrites q).agree hq).recordOf_eq_some_iff.mp hreclaim
  have hidx : q.byWorkflowId.get w = some r.id :=
    hw ▸ ((reclaimStale_rewrites q).agree hq).indexed hget
  cases ho with
  | list limit => exact .inl ⟨unclaimed r, hreclaim, rfl, rfl⟩
  | heartbeat ref =>
    refine .inl ⟨unclaimed r, ?_, rfl, rfl⟩
    show recordOf (q.heartbeat ref).1 w = _
    unfold heartbeat
    simp only
    cases hcur : q.reclaimStale.current ref with
    | none => exact hreclaim
    | some r₁ =>
      obtain ⟨hget₁, htok₁⟩ := current_eq_some_iff.mp hcur
      have hne : ref.id ≠ r.id := by
        intro he
        rw [he] at hget₁
        cases hget.symm.trans hget₁
        exact nomatch htok₁
      have hidx' : q.reclaimStale.byWorkflowId.get w = some r.id := hidx
      simp only [recordOf, hidx', Option.bind_some, JsMap.get_set_ne _ _ hne]
      exact hget
  | claim p uuids =>
    obtain ⟨records, hclaim, hrows⟩ := claim_spec hq p uuids
    have hafter : recordOf (startQueue.next q (.claim p uuids)) w = records.get r.id := by
      show recordOf (q.claim p uuids).1 w = _
      rw [hclaim]
      simp [recordOf, hidx]
    rcases hrows r.id with h | ⟨r₁, token, -, -, h⟩
    · exact .inl ⟨unclaimed r, (hafter.trans h).trans hget, rfl, rfl⟩
    · exact .inr ⟨token, ⟨p, uuids, rfl⟩, ⟨unclaimed r, hreclaim, rfl⟩, _, hafter.trans h, rfl⟩

/-- **No wake-up is lost.** Over every run from an empty queue: the two maps agree and
    hold one record a run; after an enqueue of a run its record stays until a claim of it
    taken after that enqueue has been completed under its token; an enqueue that meets a
    claimed record stays with it, through anything but a new claim, until the record is
    claimable at once, which is how completing the claim, releasing it with any delay and
    its going stale leave it; and a record that is claimable at once is taken by the next
    claim call that lists its workflow and has room. -/
theorem startQueue_loses_no_wakeup (config : InMemoryWorkflowStartQueueConfig)
    (ops : List StartQueueOp) :
    (∀ id id' r r', (startQueue.run (.new config) ops).records.get id = some r →
      (startQueue.run (.new config) ops).records.get id' = some r' →
      r.workflowId = r'.workflowId → id = id') ∧
    (∀ w id, (startQueue.run (.new config) ops).byWorkflowId.get w = some id ↔
      ∃ r, (startQueue.run (.new config) ops).records.get id = some r ∧ r.workflowId = w) ∧
    (∀ before p random after, ops = before ++ .enqueue p random :: after →
      Driven p.workflowId (startQueue.run (.new config) (before ++ [.enqueue p random])) after ∨
        (recordOf (startQueue.run (.new config) ops) p.workflowId).isSome) ∧
    (∀ before p random after token, ops = before ++ .enqueue p random :: after →
      HeldUnder p.workflowId token (startQueue.run (.new config) before) →
      startQueue.Always (fun q o => ¬ ∃ token, Takes p.workflowId token q o)
        (startQueue.run (.new config) (before ++ [.enqueue p random])) after →
      RequeuedUnder p.workflowId token (startQueue.run (.new config) ops) ∨
        ClaimableAtOnce p.workflowId (startQueue.run (.new config) ops)) ∧
    (∀ w r token, recordOf (startQueue.run (.new config) ops) w = some r →
      r.claimToken = some token → r.requeued = true →
      (startQueue.out (startQueue.run (.new config) ops) (.complete ⟨r.id, token⟩) =
          .done true ∧
        ClaimableAtOnce w
          (startQueue.next (startQueue.run (.new config) ops) (.complete ⟨r.id, token⟩))) ∧
      (∀ delayMs,
        startQueue.out (startQueue.run (.new config) ops) (.release ⟨r.id, token⟩ delayMs) =
          .done true ∧
        ClaimableAtOnce w
          (startQueue.next (startQueue.run (.new config) ops) (.release ⟨r.id, token⟩ delayMs))) ∧
      ((startQueue.run (.new config) ops).stale r = true → ∀ o, Reclaims o →
        ClaimableAtOnce w (startQueue.next (startQueue.run (.new config) ops) o) ∨
          ∃ token, Takes w token (startQueue.run (.new config) ops) o)) ∧
    (∀ w r p uuids, recordOf (startQueue.run (.new config) ops) w = some r →
      (startQueue.run (.new config) ops).claims p r = true → p.claimId = none →
      ((startQueue.run (.new config) ops).records.size : Int) ≤ p.limit →
      ∃ token, Takes w token (startQueue.run (.new config) ops) (.claim p uuids)) := by
  have hagree := run_agree config ops
  refine ⟨?_, ?_, ?_, ?_, ?_, ?_⟩
  · intro id id' r r' hget hget' hw
    have hidx := hagree.indexed hget
    rw [hw, hagree.indexed hget'] at hidx
    exact (Option.some.inj hidx).symm
  · intro w id
    exact ⟨hagree.index, fun ⟨r, hget, hw⟩ => hw ▸ hagree.indexed hget⟩
  · rintro before p random after rfl
    have hbefore := run_agree config before
    obtain ⟨r, hrec, hstart⟩ := step_enqueue_recordOf hbefore p random
    have hafter : Agree (startQueue.next (startQueue.run (.new config) before)
        (.enqueue p random)) := (step_recordOf hbefore _ p.workflowId).1
    rw [run_snoc, run_append, run_cons]
    rcases run_kept hafter hrec (hstart.imp And.left And.left) after with hdriven | ⟨r', hrec', -⟩
    · exact .inl hdriven
    · exact .inr (by rw [hrec']; rfl)
  · rintro before p random after token rfl ⟨r₀, hrec₀, htok₀⟩ hnot
    have hbefore := run_agree config before
    obtain ⟨r, hrec, hstart⟩ := step_enqueue_recordOf hbefore p random
    have hafter : Agree (startQueue.next (startQueue.run (.new config) before)
        (.enqueue p random)) := (step_recordOf hbefore _ p.workflowId).1
    have hmarked : RequeuedUnder p.workflowId token
        (startQueue.next (startQueue.run (.new config) before) (.enqueue p random)) := by
      -- the claim before the wake-up is the one it found
      rcases hstart with ⟨-, hnone⟩ | ⟨hmark, r₁, hrec₁, htok₁⟩
      · exact absurd ⟨r₀, hrec₀, htok₀⟩ (hnone token)
      · rw [hrec₀] at hrec₁
        cases hrec₁
        exact ⟨r, hrec, htok₁.trans htok₀, hmark⟩
    rw [run_snoc] at hnot
    rw [run_append, run_cons]
    refine (run_induction_always
      (P := fun q => Agree q ∧
        (RequeuedUnder p.workflowId token q ∨ ClaimableAtOnce p.workflowId q))
      (fun q o hc h => ⟨(step_recordOf h.1 o p.workflowId).1, ?_⟩) hnot ⟨hafter, .inl hmarked⟩).2
    rcases h.2 with h' | h'
    · exact step_requeuedUnder h.1 h' hc
    · exact .inr (step_claimableAtOnce h.1 h' hc)
  · intro w r token hrec htok hmark
    obtain ⟨hcomplete, hrelease⟩ := requeuedUnder_ends hagree hrec htok hmark
    exact ⟨hcomplete, hrelease, fun hstale o ho => stale_ends hagree hrec hstale ho⟩
  · intro w r p uuids hrec hclaims hid hlimit
    obtain ⟨token, htaken⟩ := claim_takes hagree hrec hclaims hid hlimit uuids
    have hfree := claims_free hclaims
    refine ⟨token, ⟨p, uuids, rfl⟩, ⟨r, ?_, hfree⟩, ⟨_, htaken, rfl⟩⟩
    simp [recordOf_reclaimStale, hrec, stale, hfree]

end Promin.Distributed.StartQueue
