import Promin.ForStd.SlidingWindow
import Promin.Agent.AgentStores

/-!
# Consolidations are rate limited

The reservations of the memory store are a sliding window for each namespace,
kind and resource, and for each namespace and kind. A reservation that is given
back (`releaseConsolidation`) counts no more.
-/

namespace Promin.Agent

open List SlidingWindow

variable {μ ρ : Type} {env : MemoryEnv μ ρ}

namespace InMemoryMemoryStore

variable {s : InMemoryMemoryStore μ}

def SameReservations (s s' : InMemoryMemoryStore μ) : Prop :=
  s'.now = s.now ∧ s'.reservations = s.reservations

/-- The operations that touch no reservation. -/
theorem apply_others (op : MemoryOp μ)
    (hreserve : ∀ request uuid, op ≠ .reserveConsolidation request uuid)
    (hrelease : ∀ ns id, op ≠ .releaseConsolidation ns id) :
    SameReservations s (s.apply env op).1 := by
  have hcreate : ∀ key init, SameReservations s (s.createThread key init).1 := by
    intro key init
    unfold createThread
    split <;> exact ⟨rfl, rfl⟩
  have hensure : ∀ key, SameReservations s (s.ensureThread key) := by
    intro key
    unfold ensureThread
    split
    · exact ⟨rfl, rfl⟩
    · exact hcreate key {}
  have hnamespace : ∀ ns, SameReservations s (s.ensureNamespace ns) := by
    intro ns
    unfold ensureNamespace
    split <;> exact ⟨rfl, rfl⟩
  have hresource : ∀ key, SameReservations s (s.ensureResource key) := by
    intro key
    unfold ensureResource
    split <;> exact ⟨rfl, rfl⟩
  have hupdated : ∀ key change,
      SameReservations s (updated (ρ := ρ) (s.updateThread key change)).1 := by
    intro key change
    unfold updateThread
    split <;> exact ⟨rfl, rfl⟩
  cases op with
  | reserveConsolidation request uuid => exact absurd rfl (hreserve request uuid)
  | releaseConsolidation ns id => exact absurd rfl (hrelease ns id)
  | createThread key init =>
    have hcreated := hcreate key init
    simp only [apply]
    cases hthread : s.createThread key init with
    | mk s' result =>
      rw [hthread] at hcreated
      cases result <;> exact hcreated
  | appendMessages key msgs idempotencyKey =>
    have hthread := hensure key
    simp only [apply, appendMessages]
    split <;> exact hthread
  | setThreadWorking key _ | setThreadTitle key _ | setThreadMetadata key _
  | setThreadInheritFromParent key _ | setThreadArchived key _ => exact hupdated key _
  | appendNamespaceFact ns _ _ | appendNamespaceEpisode ns _ _ => exact hnamespace ns
  | appendResourceFact key _ _ | appendResourceEpisode key _ _ => exact hresource key
  | appendThreadFact key _ _ | appendThreadEpisode key _ _ => exact hensure key
  | _ => exact ⟨rfl, rfl⟩

end InMemoryMemoryStore

/-! ## What is reserved -/

/-- The reservations of a kind in a namespace: those of one resource, or all. -/
structure LimitScope where
  namespaceId : String
  kind : String
  resourceId : Option String

/-- The reservation counts against the scope. -/
def LimitScope.has (c : LimitScope) (r : Reservation) : Bool :=
  r.namespaceId == c.namespaceId && r.kind == c.kind && c.resourceId.all (· == r.resourceId)

/-- The limit of a request for the scope. -/
def LimitScope.limit (c : LimitScope) (request : ConsolidationReservationRequest) : Option Int :=
  match c.resourceId with
  | none => request.maxPerNamespace
  | some _ => some request.maxPerResource

/-- The reservation that a request asks for. -/
def ConsolidationReservationRequest.row (request : ConsolidationReservationRequest) (id : String)
    (now : Int) : Reservation :=
  { id := id, namespaceId := request.namespaceId, resourceId := request.resourceId
    kind := request.kind, «at» := now }

/-- The reservations that were granted and not given back. -/
def recordReservation (held : List Reservation) (s : AgentStores μ) : AgentOp μ → List Reservation
  | .memory (.reserveConsolidation request uuid) =>
    match (s.memory.reserveConsolidation request uuid).2 with
    | .granted id => held ++ [request.row id s.memory.now]
    | .denied _ _ _ _ => held
  | .memory (.releaseConsolidation ns id) =>
    held.filter fun r => !(r.namespaceId == ns && r.id == id)
  | .memory _ | .lease _ | .advance _ => held

theorem LimitScope.has_iff {c : LimitScope} {r : Reservation} : c.has r = true ↔
    r.namespaceId = c.namespaceId ∧ r.kind = c.kind ∧ ∀ id ∈ c.resourceId, id = r.resourceId := by
  unfold LimitScope.has
  cases c.resourceId <;> simp [and_assoc]

/-- The rows of the scope that a request leaves. -/
def LimitScope.swept (c : LimitScope) (s : InMemoryMemoryStore μ)
    (request : ConsolidationReservationRequest) : List Reservation :=
  (s.reservations.filter c.has).filter fun r => !(r.namespaceId == request.namespaceId &&
    r.kind == request.kind && decide (r.at ≤ s.now - request.windowMs))

/-- What a request does to the rows of a scope. -/
structure Reserved (s : InMemoryMemoryStore μ) (c : LimitScope)
    (request : ConsolidationReservationRequest) (s' : InMemoryMemoryStore μ)
    (answer : ConsolidationReservation) : Prop where
  now : s'.now = s.now
  denied : (∀ id, answer ≠ .granted id) → s'.reservations.filter c.has = c.swept s request
  granted : ∀ id, answer = .granted id →
    s'.reservations.filter c.has = c.swept s request ++ [request.row id s.now].filter c.has ∧
      (c.has (request.row id s.now) = true →
        ∀ limit ∈ c.limit request, ((c.swept s request).length : Int) < limit)

theorem reserveConsolidation_spec (s : InMemoryMemoryStore μ) (c : LimitScope)
    (request : ConsolidationReservationRequest) (uuid : String) :
    Reserved s c request (s.reserveConsolidation request uuid).1
      (s.reserveConsolidation request uuid).2 := by
  have hkept : (s.reservations.filter _).filter c.has = c.swept s request := filter_comm _ _ _
  simp only [InMemoryMemoryStore.reserveConsolidation]
  split
  · exact ⟨rfl, fun _ => hkept, fun id h => by cases h⟩
  · rename_i hresource
    split
    · exact ⟨rfl, fun _ => hkept, fun id h => by cases h⟩
    · rename_i hfull
      refine ⟨rfl, fun h => absurd rfl (h uuid), fun id h => ?_⟩
      cases h
      refine ⟨by rw [filter_append, hkept]; rfl, fun hmine limit hlimit => ?_⟩
      obtain ⟨hns, hkind, hid⟩ := LimitScope.has_iff.mp hmine
      rw [← hkept]
      generalize s.reservations.filter _ = kept at *
      unfold LimitScope.limit at hlimit
      -- the request counted the rows of the scope
      cases hscope : c.resourceId with
      | none =>
        have hall : kept.filter c.has = kept.filter fun r =>
            r.namespaceId == request.namespaceId && r.kind == request.kind := by
          refine filter_congr fun r _ => ?_
          rw [LimitScope.has, hscope, ← hns, ← hkind]
          exact Bool.and_true _
        have hmax : request.maxPerNamespace = some limit := by simpa [hscope] using hlimit
        rw [hmax] at hfull
        simp only at hfull
        split at hfull
        · cases hfull
        · rw [hall]
          omega
      | some id =>
        obtain rfl : request.maxPerResource = limit := by simpa [hscope] using hlimit
        have hall : kept.filter c.has = (kept.filter fun r =>
            r.namespaceId == request.namespaceId && r.kind == request.kind).filter
              fun r => r.resourceId == request.resourceId := by
          rw [filter_filter]
          refine filter_congr fun r _ => ?_
          rw [LimitScope.has, hscope, ← hns, ← hkind, BEq.comm (a := r.resourceId)]
          rw [show request.resourceId = id from (hid id hscope).symm]
          exact Bool.and_comm _ _
        rw [hall]
        omega

/-! ## Over a run -/

/-- No window of a scope holds more reservations than every request about the scope allows, if no
request of its namespace and kind asks with a shorter window. -/
theorem reservations_capped (env : MemoryEnv μ ρ) (now : Int) (ops : List (AgentOp μ))
    (c : LimitScope) (w : Int) (max : Nat)
    (hops : ∀ request uuid, .memory (.reserveConsolidation request uuid) ∈ ops →
      (request.namespaceId = c.namespaceId → request.kind = c.kind → w ≤ request.windowMs) ∧
        ∀ id now, c.has (request.row id now) = true → ∃ limit ∈ c.limit request, limit ≤ max) :
    Capped (·.at) w max
      ((((agentStores env).withGhost recordReservation).run (.new now, []) ops).2.filter
        c.has) := by
  have hasked : ((agentStores env).withGhost recordReservation).Always
      (fun _ o => ∀ request uuid, o = .memory (.reserveConsolidation request uuid) →
        (request.namespaceId = c.namespaceId → request.kind = c.kind → w ≤ request.windowMs) ∧
          ∀ id now, c.has (request.row id now) = true → ∃ limit ∈ c.limit request, limit ≤ max)
      (.new now, []) ops :=
    Machine.always_of_mem (by rintro o ho request uuid rfl; exact hops request uuid ho) _
  -- what is held and recent is among the rows, so a request counts it
  have hrun := Machine.run_induction_always
    (P := fun p => Capped (·.at) w max (p.2.filter c.has) ∧
      Reaches (·.at) w p.1.memory.now (p.2.filter c.has) (p.1.memory.reservations.filter c.has))
    ?_ hasked ⟨fun _ => Nat.zero_le _, .nil⟩
  · exact hrun.1
  rintro ⟨s, held⟩ o ho ⟨hcapped, hreaches⟩
  dsimp only at hcapped hreaches
  cases o with
  | advance ms =>
    refine ⟨hcapped, hreaches.later ?_⟩
    show s.memory.now ≤ s.memory.now + ms
    omega
  | lease op => exact ⟨hcapped, hreaches⟩
  | memory op =>
    show Capped _ w max ((recordReservation held s (.memory op)).filter c.has) ∧
      Reaches _ w (s.memory.apply env op).1.now
        ((recordReservation held s (.memory op)).filter c.has)
        ((s.memory.apply env op).1.reservations.filter c.has)
    by_cases hreserve : ∃ request uuid, op = .reserveConsolidation request uuid
    · obtain ⟨request, uuid, rfl⟩ := hreserve
      obtain ⟨hwindow, hlimit⟩ := ho request uuid rfl
      have hspec := reserveConsolidation_spec s.memory c request uuid
      have hswept : Reaches (·.at) w s.memory.now (held.filter c.has)
          (c.swept s.memory request) := by
        refine hreaches.sweep fun r hr hdrop => ?_
        obtain ⟨hns, hkind, -⟩ := LimitScope.has_iff.mp (of_mem_filter hr)
        simp only [Bool.not_eq_false', Bool.and_eq_true, beq_iff_eq, decide_eq_true_eq] at hdrop
        have hlonger := hwindow (hdrop.1.1.symm.trans hns) (hdrop.1.2.symm.trans hkind)
        omega
      show _ ∧ Reaches _ w (s.memory.reserveConsolidation request uuid).1.now _
        ((s.memory.reserveConsolidation request uuid).1.reservations.filter c.has)
      rw [recordReservation, hspec.now]
      cases hanswer : (s.memory.reserveConsolidation request uuid).2 with
      | denied scope seen max retryAfterMs =>
        rw [hspec.denied fun id h => by rw [hanswer] at h; cases h]
        exact ⟨hcapped, hswept⟩
      | granted id =>
        obtain ⟨hrows, hroom⟩ := hspec.granted id hanswer
        dsimp only
        rw [hrows, filter_append, filter_cons, filter_nil]
        split
        · rename_i hmine
          obtain ⟨limit, hmem, hle⟩ := hlimit id _ hmine
          have hfree := hroom hmine limit hmem
          exact ⟨hcapped.append hswept (by omega) rfl, hswept.append rfl⟩
        · rw [append_nil, append_nil]
          exact ⟨hcapped, hswept⟩
    · by_cases hrelease : ∃ ns id, op = .releaseConsolidation ns id
      · obtain ⟨ns, id, rfl⟩ := hrelease
        show _ ∧ Reaches _ w s.memory.now _
          ((s.memory.reservations.filter fun r => !(r.namespaceId == ns && r.id == id)).filter
            c.has)
        rw [recordReservation, filter_comm, filter_comm (l := s.memory.reservations)]
        exact ⟨hcapped.sublist filter_sublist, hreaches.filter _⟩
      · have hheld : recordReservation held s (.memory op) = held := by
          cases op with
          | reserveConsolidation request uuid => exact absurd ⟨request, uuid, rfl⟩ hreserve
          | releaseConsolidation ns id => exact absurd ⟨ns, id, rfl⟩ hrelease
          | _ => rfl
        obtain ⟨hnow, hrows⟩ := @InMemoryMemoryStore.apply_others μ ρ env s.memory op
          (fun request uuid heq => hreserve ⟨request, uuid, heq⟩)
          fun ns id heq => hrelease ⟨ns, id, heq⟩
        rw [hnow, hrows, hheld]
        exact ⟨hcapped, hreaches⟩

/-- One reservation in 10 ms. -/
private def oneInTen : ConsolidationReservationRequest where
  namespaceId := "n"
  resourceId := "r"
  kind := "k"
  windowMs := 10
  maxPerResource := 1

theorem reservations_capped_oneInTen :
    let env : MemoryEnv Unit Unit := ⟨id, id, fun _ => none, fun _ => ()⟩
    let ops := [.memory (.reserveConsolidation oneInTen "u"), .advance 5,
      .memory (.reserveConsolidation oneInTen "v"), .advance 5,
      .memory (.reserveConsolidation oneInTen "w")]
    let held := (((agentStores env).withGhost recordReservation).run (.new 0, []) ops).2
    held.map (·.at) = [0, 10] ∧
      Capped (·.at) 10 1 (held.filter (LimitScope.mk "n" "k" (some "r")).has) := by
  refine ⟨by decide, reservations_capped _ 0 _ ⟨"n", "k", some "r"⟩ 10 1 fun request uuid h => ?_⟩
  obtain rfl : request = oneInTen := by
    simp only [mem_cons, AgentOp.memory.injEq, MemoryOp.reserveConsolidation.injEq, reduceCtorEq,
      not_mem_nil, or_false, false_or] at h
    rcases h with h | h | h <;> exact h.1
  exact ⟨fun _ _ => by decide, fun _ _ _ => ⟨1, rfl, by decide⟩⟩

end Promin.Agent
