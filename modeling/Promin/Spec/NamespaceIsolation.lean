import Mathlib.Data.String.Basic
import Promin.Agent.AgentStores

/-!
# Namespaces do not see each other

The view a namespace has of the stores is what lies under its keys.
-/

namespace Promin.Agent

open List JsMap MemoryAnswer

def ofNamespace (n k : String) : Bool := (n ++ "|").toList.isPrefixOf k.toList

/-- Neither namespace begins with the other and a `|`. -/
def KeysApart (n₁ n₂ : String) : Prop :=
  ¬ (n₁ ++ "|").toList <+: n₂.toList ∧ ¬ (n₂ ++ "|").toList <+: n₁.toList

instance (n₁ n₂ : String) : Decidable (KeysApart n₁ n₂) := inferInstanceAs (Decidable (_ ∧ _))

theorem joinKey_toList (n id : String) :
    (joinKey n id).toList = n.toList ++ '|' :: id.toList := by
  simp [joinKey]

theorem ofNamespace_iff (n k : String) :
    ofNamespace n k = true ↔ (n ++ "|").toList <+: k.toList := by
  simp [ofNamespace]

@[simp] theorem ofNamespace_joinKey (n id : String) : ofNamespace n (joinKey n id) = true := by
  rw [ofNamespace_iff, joinKey_toList]
  exact ⟨id.toList, by simp⟩

theorem ofNamespace_joinKey_of_ne {n n' : String} (hne : n ≠ n') (id : String)
    (h : ofNamespace n (joinKey n' id) = true) :
    (n ++ "|").toList <+: n'.toList ∨ (n' ++ "|").toList <+: n.toList := by
  rw [ofNamespace_iff, joinKey_toList] at h
  obtain ⟨rest, hrest⟩ := h
  have hsplit : n.toList ++ ('|' :: rest) = n'.toList ++ ('|' :: id.toList) := by
    simpa using hrest
  cases append_eq_append_iff.mp hsplit with
  | inl h =>
    obtain ⟨mid, hn', hmid⟩ := h
    cases mid with
    | nil => exact absurd (String.toList_inj.mp (by simpa using hn'.symm)) hne
    | cons c mid =>
      rw [cons_append, List.cons.injEq] at hmid
      obtain ⟨rfl, _⟩ := hmid
      left
      exact ⟨mid, by simp [hn']⟩
  | inr h =>
    obtain ⟨mid, hn, hmid⟩ := h
    cases mid with
    | nil => exact absurd (String.toList_inj.mp (by simpa using hn)) hne
    | cons c mid =>
      rw [cons_append, List.cons.injEq] at hmid
      obtain ⟨rfl, _⟩ := hmid
      right
      exact ⟨mid, by simp [hn]⟩

theorem KeysApart.not_ofNamespace {n₁ n₂ : String} (h : KeysApart n₁ n₂) (hne : n₁ ≠ n₂)
    (id : String) : ofNamespace n₂ (joinKey n₁ id) = false := by
  cases hs : ofNamespace n₂ (joinKey n₁ id) with
  | false => rfl
  | true =>
    cases ofNamespace_joinKey_of_ne (Ne.symm hne) id hs with
    | inl hprefix => exact absurd hprefix h.2
    | inr hprefix => exact absurd hprefix h.1

/-! ## The view of the memory store -/

variable {μ ρ : Type} {env : MemoryEnv μ ρ} {n : String}

namespace InMemoryMemoryStore

variable {s : InMemoryMemoryStore μ}

/-- What lies under the keys of a namespace. -/
def view (n : String) (s : InMemoryMemoryStore μ) : InMemoryMemoryStore μ where
  namespaces := s.namespaces.restrict (· == n)
  resources := s.resources.restrict (ofNamespace n)
  threads := s.threads.restrict (ofNamespace n)
  namespaceFacts := s.namespaceFacts.restrict (· == n)
  resourceFacts := s.resourceFacts.restrict (ofNamespace n)
  threadFacts := s.threadFacts.restrict (ofNamespace n)
  messages := s.messages.restrict (ofNamespace n)
  seqByThread := s.seqByThread.restrict (ofNamespace n)
  appendsByThread := s.appendsByThread.restrict (ofNamespace n)
  lastActiveByThread := s.lastActiveByThread.restrict (ofNamespace n)
  namespaceEpisodes := s.namespaceEpisodes.restrict (· == n)
  resourceEpisodes := s.resourceEpisodes.restrict (ofNamespace n)
  threadEpisodes := s.threadEpisodes.restrict (ofNamespace n)
  reservations := s.reservations.filter (·.namespaceId == n)
  now := s.now

/-- An operation acts on the view: inside it commutes with taking the view and answers the
    same; outside it changes nothing of the view. -/
structure ActsOnView (n : String) (inside : Bool) {α : Type}
    (f : InMemoryMemoryStore μ → InMemoryMemoryStore μ × α) : Prop where
  commutes : inside = true → ∀ s, view n (f s).1 = (f (view n s)).1 ∧ (f s).2 = (f (view n s)).2
  unseen : inside = false → ∀ s, view n (f s).1 = view n s

variable {α : Type} {s : InMemoryMemoryStore μ}

theorem ActsOnView.comp {inside : Bool} {e : InMemoryMemoryStore μ → InMemoryMemoryStore μ}
    {f : InMemoryMemoryStore μ → InMemoryMemoryStore μ × α}
    (he : ActsOnView n inside fun s => (e s, ())) (hf : ActsOnView n inside f) :
    ActsOnView n inside fun s => f (e s) := by
  constructor
  · intro h s
    have hrest := hf.commutes h (e s)
    have hfirst := (he.commutes h s).1
    simp only at hfirst
    rw [hrest.1, hrest.2, hfirst]
    exact ⟨rfl, rfl⟩
  · intro h s
    rw [hf.unseen h, he.unseen h s]

theorem upsertNamespace_acts (ns : String) (patch : NamespacePatch) :
    ActsOnView n (ns == n) fun s : InMemoryMemoryStore μ => s.upsertNamespace ns patch := by
  constructor
  · intro h s
    simp [upsertNamespace, view, get_restrict, restrict_set, h]
  · intro h s
    simp [upsertNamespace, view, restrict_set_outside, h]

theorem ensureNamespace_acts (ns : String) :
    ActsOnView n (ns == n) fun s : InMemoryMemoryStore μ => (s.ensureNamespace ns, ()) := by
  have hupsert := upsertNamespace_acts (n := n) (μ := μ) ns {}
  constructor
  · intro h s
    have hhas : (view n s).namespaces.has ns = s.namespaces.has ns := has_restrict _ h
    unfold ensureNamespace
    rw [hhas]
    split
    · exact ⟨rfl, rfl⟩
    · exact ⟨(hupsert.commutes h s).1, rfl⟩
  · intro h s
    unfold ensureNamespace
    split
    · rfl
    · exact hupsert.unseen h s

/-! ### Lists under keys -/

section Lists

variable {α : Type} {p : String → Bool} {k : String}
  (get : InMemoryMemoryStore μ → JsMap String (List α))
  (set : InMemoryMemoryStore μ → JsMap String (List α) → InMemoryMemoryStore μ)

theorem push_acts (make : InMemoryMemoryStore μ → α)
    (hget : ∀ s, get (view n s) = (get s).restrict p)
    (hset : ∀ s m, view n (set s m) = set (view n s) (m.restrict p))
    (hself : ∀ s, set s (get s) = s) (hmake : ∀ s, make (view n s) = make s) :
    ActsOnView n (p k) fun s => (set s ((get s).push k (make s)), make s) := by
  constructor
  · intro h s
    simp [hset, hget, hmake, restrict_push _ _ h]
  · intro h s
    simp only [hset, restrict_push_outside _ _ h]
    rw [← hset, hself]

theorem filterAt_acts (keep : α → Bool) (hget : ∀ s, get (view n s) = (get s).restrict p)
    (hset : ∀ s m, view n (set s m) = set (view n s) (m.restrict p))
    (hself : ∀ s, set s (get s) = s) :
    ActsOnView n (p k) fun s => (set s ((get s).filterAt k keep), ()) := by
  constructor
  · intro h s
    simp [hset, hget, restrict_filterAt _ _ h]
  · intro h s
    simp only [hset, restrict_filterAt_outside _ _ h]
    rw [← hset, hself]

end Lists

theorem appendNamespaceFact_acts (ns : String) (input : FactInput) (uuid : String) :
    ActsOnView n (ns == n)
      fun s : InMemoryMemoryStore μ => s.appendNamespaceFact ns input uuid :=
  (ensureNamespace_acts ns).comp (push_acts (p := (· == n)) (·.namespaceFacts)
    (fun s m => { s with namespaceFacts := m }) (·.makeFact input uuid)
    (fun _ => rfl) (fun _ _ => rfl) (fun _ => rfl) (fun _ => rfl))

theorem deleteNamespaceFact_acts (ns factId : String) :
    ActsOnView n (ns == n)
      fun s : InMemoryMemoryStore μ => (s.deleteNamespaceFact ns factId, ()) :=
  filterAt_acts (p := (· == n)) (·.namespaceFacts) (fun s m => { s with namespaceFacts := m })
    (·.id != factId) (fun _ => rfl) (fun _ _ => rfl) (fun _ => rfl)

theorem appendNamespaceEpisode_acts (ns : String) (input : EpisodeInput) (uuid : String) :
    ActsOnView n (ns == n)
      fun s : InMemoryMemoryStore μ => s.appendNamespaceEpisode ns input uuid :=
  (ensureNamespace_acts ns).comp (push_acts (p := (· == n)) (·.namespaceEpisodes)
    (fun s m => { s with namespaceEpisodes := m }) (·.makeEpisode input uuid)
    (fun _ => rfl) (fun _ _ => rfl) (fun _ => rfl) (fun _ => rfl))

theorem deleteNamespaceEpisode_acts (ns episodeId : String) :
    ActsOnView n (ns == n)
      fun s : InMemoryMemoryStore μ => (s.deleteNamespaceEpisode ns episodeId, ()) :=
  filterAt_acts (p := (· == n)) (·.namespaceEpisodes)
    (fun s m => { s with namespaceEpisodes := m })
    (·.id != episodeId) (fun _ => rfl) (fun _ _ => rfl) (fun _ => rfl)

/-! ### Resources -/

theorem upsertResource_acts (key : ScopedKey) (patch : NamespacePatch) :
    ActsOnView n (ofNamespace n key.resourceK)
      fun s : InMemoryMemoryStore μ => s.upsertResource key patch := by
  constructor
  · intro h s
    simp [upsertResource, view, get_restrict, restrict_set, h]
  · intro h s
    simp [upsertResource, view, restrict_set_outside, h]

theorem ensureResource_acts (key : ScopedKey) :
    ActsOnView n (ofNamespace n key.resourceK)
      fun s : InMemoryMemoryStore μ => (s.ensureResource key, ()) := by
  have hupsert := upsertResource_acts (n := n) (μ := μ) key {}
  constructor
  · intro h s
    have hhas : (view n s).resources.has key.resourceK = s.resources.has key.resourceK :=
      has_restrict _ h
    unfold ensureResource
    rw [hhas]
    split
    · exact ⟨rfl, rfl⟩
    · exact ⟨(hupsert.commutes h s).1, rfl⟩
  · intro h s
    unfold ensureResource
    split
    · rfl
    · exact hupsert.unseen h s

theorem appendResourceFact_acts (key : ScopedKey) (input : FactInput) (uuid : String) :
    ActsOnView n (ofNamespace n key.resourceK)
      fun s : InMemoryMemoryStore μ => s.appendResourceFact key input uuid :=
  (ensureResource_acts key).comp (push_acts (p := ofNamespace n) (·.resourceFacts)
    (fun s m => { s with resourceFacts := m }) (·.makeFact input uuid)
    (fun _ => rfl) (fun _ _ => rfl) (fun _ => rfl) (fun _ => rfl))

theorem deleteResourceFact_acts (key : ScopedKey) (factId : String) :
    ActsOnView n (ofNamespace n key.resourceK)
      fun s : InMemoryMemoryStore μ => (s.deleteResourceFact key factId, ()) :=
  filterAt_acts (p := ofNamespace n) (·.resourceFacts) (fun s m => { s with resourceFacts := m })
    (·.id != factId) (fun _ => rfl) (fun _ _ => rfl) (fun _ => rfl)

theorem appendResourceEpisode_acts (key : ScopedKey) (input : EpisodeInput) (uuid : String) :
    ActsOnView n (ofNamespace n key.resourceK)
      fun s : InMemoryMemoryStore μ => s.appendResourceEpisode key input uuid :=
  (ensureResource_acts key).comp (push_acts (p := ofNamespace n) (·.resourceEpisodes)
    (fun s m => { s with resourceEpisodes := m }) (·.makeEpisode input uuid)
    (fun _ => rfl) (fun _ _ => rfl) (fun _ => rfl) (fun _ => rfl))

theorem deleteResourceEpisode_acts (key : ScopedKey) (episodeId : String) :
    ActsOnView n (ofNamespace n key.resourceK)
      fun s : InMemoryMemoryStore μ => (s.deleteResourceEpisode key episodeId, ()) :=
  filterAt_acts (p := ofNamespace n) (·.resourceEpisodes)
    (fun s m => { s with resourceEpisodes := m })
    (·.id != episodeId) (fun _ => rfl) (fun _ _ => rfl) (fun _ => rfl)

/-! ### Threads -/

variable (key : ThreadKey)

theorem createThread_acts (init : ThreadInit) :
    ActsOnView n (ofNamespace n key.threadK)
      fun s : InMemoryMemoryStore μ => s.createThread key init := by
  constructor
  · intro h s
    have hhas : (view n s).threads.has key.threadK = s.threads.has key.threadK :=
      has_restrict _ h
    unfold createThread
    rw [hhas]
    split
    · exact ⟨rfl, rfl⟩
    · simp [view, newThread, restrict_set, h]
  · intro h s
    unfold createThread
    split
    · rfl
    · simp [view, restrict_set_outside, h]

theorem ensureThread_acts :
    ActsOnView n (ofNamespace n key.threadK)
      fun s : InMemoryMemoryStore μ => (s.ensureThread key, ()) := by
  have hcreate := createThread_acts (n := n) (μ := μ) key {}
  constructor
  · intro h s
    have hhas : (view n s).threads.has key.threadK = s.threads.has key.threadK :=
      has_restrict _ h
    unfold ensureThread
    rw [hhas]
    split
    · exact ⟨rfl, rfl⟩
    · exact ⟨(hcreate.commutes h s).1, rfl⟩
  · intro h s
    unfold ensureThread
    split
    · rfl
    · exact hcreate.unseen h s

theorem updateThread_acts (change : ThreadRow → ThreadRow) :
    ActsOnView n (ofNamespace n key.threadK)
      fun s : InMemoryMemoryStore μ => s.updateThread key change := by
  constructor
  · intro h s
    have hget : (view n s).getThread key = s.getThread key := get_restrict _ h
    unfold updateThread
    rw [hget]
    cases s.getThread key with
    | none => exact ⟨rfl, rfl⟩
    | some row => simp [view, restrict_set, h]
  · intro h s
    unfold updateThread
    cases s.getThread key with
    | none => rfl
    | some row => simp [view, restrict_set_outside, h]

theorem appendThreadFact_acts (input : FactInput) (uuid : String) :
    ActsOnView n (ofNamespace n key.threadK)
      fun s : InMemoryMemoryStore μ => s.appendThreadFact key input uuid :=
  (ensureThread_acts key).comp (push_acts (p := ofNamespace n) (·.threadFacts)
    (fun s m => { s with threadFacts := m }) (·.makeFact input uuid)
    (fun _ => rfl) (fun _ _ => rfl) (fun _ => rfl) (fun _ => rfl))

theorem deleteThreadFact_acts (factId : String) :
    ActsOnView n (ofNamespace n key.threadK)
      fun s : InMemoryMemoryStore μ => (s.deleteThreadFact key factId, ()) :=
  filterAt_acts (p := ofNamespace n) (·.threadFacts) (fun s m => { s with threadFacts := m })
    (·.id != factId) (fun _ => rfl) (fun _ _ => rfl) (fun _ => rfl)

theorem appendThreadEpisode_acts (input : EpisodeInput) (uuid : String) :
    ActsOnView n (ofNamespace n key.threadK)
      fun s : InMemoryMemoryStore μ => s.appendThreadEpisode key input uuid :=
  (ensureThread_acts key).comp (push_acts (p := ofNamespace n) (·.threadEpisodes)
    (fun s m => { s with threadEpisodes := m }) (·.makeEpisode input uuid)
    (fun _ => rfl) (fun _ _ => rfl) (fun _ => rfl) (fun _ => rfl))

theorem deleteThreadEpisode_acts (episodeId : String) :
    ActsOnView n (ofNamespace n key.threadK)
      fun s : InMemoryMemoryStore μ => (s.deleteThreadEpisode key episodeId, ()) :=
  filterAt_acts (p := ofNamespace n) (·.threadEpisodes)
    (fun s m => { s with threadEpisodes := m })
    (·.id != episodeId) (fun _ => rfl) (fun _ _ => rfl) (fun _ => rfl)

theorem storeMessages_acts (k : String) (msgs : List μ) (idempotencyKey : Option String) :
    ActsOnView n (ofNamespace n k)
      fun s : InMemoryMemoryStore μ => s.storeMessages k msgs idempotencyKey := by
  constructor
  · intro h s
    cases idempotencyKey <;>
      simp [storeMessages, appendsOf, view, get_restrict, restrict_set, h]
  · intro h s
    cases idempotencyKey <;> simp [storeMessages, view, restrict_set_outside, h]

theorem rememberedOrStored_acts (msgs : List μ) (idempotencyKey : Option String) :
    ActsOnView n (ofNamespace n key.threadK) fun s : InMemoryMemoryStore μ =>
      match idempotencyKey.bind (s.appendsOf key.threadK).get with
      | some done => (s, done)
      | none => s.storeMessages key.threadK msgs idempotencyKey := by
  have hstore := storeMessages_acts (n := n) key.threadK msgs idempotencyKey
  constructor
  · intro h s
    have happends : (view n s).appendsOf key.threadK = s.appendsOf key.threadK := by
      simp [appendsOf, view, get_restrict, h]
    simp only [happends]
    cases idempotencyKey.bind (s.appendsOf key.threadK).get with
    | some done => exact ⟨rfl, rfl⟩
    | none => exact hstore.commutes h s
  · intro h s
    cases idempotencyKey.bind (s.appendsOf key.threadK).get with
    | some done => rfl
    | none => exact hstore.unseen h s

theorem appendMessages_acts (msgs : List μ) (idempotencyKey : Option String) :
    ActsOnView n (ofNamespace n key.threadK)
      fun s : InMemoryMemoryStore μ => s.appendMessages key msgs idempotencyKey :=
  (ensureThread_acts key).comp (rememberedOrStored_acts key msgs idempotencyKey)

theorem deleteThread_acts :
    ActsOnView n (ofNamespace n key.threadK)
      fun s : InMemoryMemoryStore μ => (s.deleteThread key, ()) := by
  constructor
  · intro h s
    simp [deleteThread, view, restrict_delete]
  · intro h s
    simp [deleteThread, view, restrict_delete_outside, h]

/-! ### The consolidation rate limit -/

theorem reserveConsolidation_acts (request : ConsolidationReservationRequest) (uuid : String) :
    ActsOnView n (request.namespaceId == n)
      fun s : InMemoryMemoryStore μ => s.reserveConsolidation request uuid := by
  constructor
  · intro h s
    have hn : request.namespaceId = n := by simpa using h
    -- The reservations of the namespace are among those of its view.
    have hkept : ∀ q : Reservation → Bool,
        ((view n s).reservations.filter q).filter
            (fun r => r.namespaceId == request.namespaceId && r.kind == request.kind) =
          (s.reservations.filter q).filter
            (fun r => r.namespaceId == request.namespaceId && r.kind == request.kind) := by
      intro q
      simp only [view, filter_filter]
      apply filter_congr
      intro r _
      rw [hn]
      cases r.namespaceId == n <;> simp
    have hcomm : ∀ q : Reservation → Bool, (s.reservations.filter q).filter (·.namespaceId == n) =
        (view n s).reservations.filter q := by
      intro q
      simp only [view, filter_filter]
      exact filter_congr fun r _ => Bool.and_comm _ _
    have hnow : (view n s).now = s.now := rfl
    unfold reserveConsolidation
    simp only [hkept, hnow]
    split
    · exact ⟨by rw [view, hcomm]; rfl, rfl⟩
    · split
      · exact ⟨by rw [view, hcomm]; rfl, rfl⟩
      · constructor
        · simp only [view, filter_append, hcomm]
          simp [hn]
        · rfl
  · intro h s
    have hswept : ∀ q : Reservation → Bool, (∀ r : Reservation, r.namespaceId = n → q r = true) →
        (s.reservations.filter q).filter (·.namespaceId == n) =
          s.reservations.filter (·.namespaceId == n) := by
      intro q hq
      rw [filter_filter]
      apply filter_congr
      intro r _
      by_cases hr : r.namespaceId = n
      · simp [hr, hq r hr]
      · simp [hr]
    have hother : ∀ r : Reservation, r.namespaceId = n →
        (!(r.namespaceId == request.namespaceId && r.kind == request.kind &&
          decide (r.at ≤ s.now - request.windowMs))) = true := by
      intro r hr
      have hne : request.namespaceId ≠ n := by simpa using h
      simp [hr, hne.symm]
    unfold reserveConsolidation
    simp only
    split
    · simp only [view, hswept _ hother]
    · split
      · simp only [view, hswept _ hother]
      · simp only [view, filter_append, hswept _ hother]
        simp [h]

theorem releaseConsolidation_acts (ns reservationId : String) :
    ActsOnView n (ns == n)
      fun s : InMemoryMemoryStore μ => (s.releaseConsolidation ns reservationId, ()) := by
  constructor
  · intro _ s
    constructor
    · simp only [releaseConsolidation, view, filter_filter]
      congr 1
      exact filter_congr fun r _ => Bool.and_comm _ _
    · rfl
  · intro h s
    simp only [releaseConsolidation, view, filter_filter]
    congr 1
    apply filter_congr
    intro r _
    by_cases hr : r.namespaceId = n
    · have hne : ns ≠ n := by simpa using h
      simp [hr, hne.symm]
    · simp [hr]

/-! ### Reads -/

/-- Every thread is stored under its own key. -/
def RowsKeyed (s : InMemoryMemoryStore μ) : Prop :=
  ∀ k row, s.threads.get k = some row → k = joinKey row.namespaceId row.threadId

theorem listThreads_view (env : MemoryEnv μ ρ) {params : ListThreadsParams}
    (hn : params.namespaceId = n) (s : InMemoryMemoryStore μ) (hkeyed : s.RowsKeyed) :
    (view n s).listThreads env params = s.listThreads env params := by
  have hrows : (view n s).threads.values.filter (fun t => t.namespaceId == params.namespaceId) =
      s.threads.values.filter (fun t => t.namespaceId == params.namespaceId) := by
    have hentry : ∀ e ∈ s.threads.entries, e.2.namespaceId = n → ofNamespace n e.1 = true := by
      intro e he hrow
      have hkey := hkeyed e.1 e.2 ((mem_entries_iff _ _ _).mp he)
      rw [hkey, hrow]
      exact ofNamespace_joinKey _ _
    simp only [view, JsMap.restrict, JsMap.filter, JsMap.values, filter_map,
      filter_filter]
    congr 1
    apply filter_congr
    intro e he
    by_cases hrow : e.2.namespaceId = n
    · simp [hn, hrow, hentry e he hrow]
    · simp [hn, hrow]
  have hsummary : ∀ t : ThreadRow, t.namespaceId = n → (view n s).summary t = s.summary t := by
    intro t ht
    have hkey : ofNamespace n (joinKey t.namespaceId t.threadId) = true := by
      rw [ht]
      exact ofNamespace_joinKey _ _
    simp [summary, view, get_restrict, hkey]
  unfold listThreads
  simp only [hrows]
  have hmap : ((s.threads.values.filter fun t => t.namespaceId == params.namespaceId).filter
        (matchesFilter env params)).map (view n s).summary =
      ((s.threads.values.filter fun t => t.namespaceId == params.namespaceId).filter
        (matchesFilter env params)).map s.summary := by
    apply map_congr_left
    intro t ht
    have hrow := (mem_filter.mp (mem_filter.mp ht).1).2
    exact hsummary t (by simpa [hn] using hrow)
  rw [hmap]

theorem listNamespaceFacts_view {ns : String} (h : (ns == n) = true)
    (s : InMemoryMemoryStore μ) : (view n s).listNamespaceFacts ns = s.listNamespaceFacts ns := by
  show ((s.namespaceFacts.restrict (· == n)).get ns).getD [] = _
  rw [get_restrict (p := (· == n)) _ h]
  rfl

theorem listNamespaceEpisodes_view {ns : String} (h : (ns == n) = true)
    (s : InMemoryMemoryStore μ) (params : EpisodeListParams) :
    (view n s).listNamespaceEpisodes ns params = s.listNamespaceEpisodes ns params := by
  show queryEpisodes (((s.namespaceEpisodes.restrict (· == n)).get ns).getD []) params = _
  rw [get_restrict (p := (· == n)) _ h]
  rfl

theorem listResourceFacts_view {key : ScopedKey} (h : ofNamespace n key.resourceK = true)
    (s : InMemoryMemoryStore μ) : (view n s).listResourceFacts key = s.listResourceFacts key := by
  show ((s.resourceFacts.restrict (ofNamespace n)).get key.resourceK).getD [] = _
  rw [get_restrict _ h]
  rfl

theorem listResourceEpisodes_view {key : ScopedKey} (h : ofNamespace n key.resourceK = true)
    (s : InMemoryMemoryStore μ) (params : EpisodeListParams) :
    (view n s).listResourceEpisodes key params = s.listResourceEpisodes key params := by
  show queryEpisodes (((s.resourceEpisodes.restrict (ofNamespace n)).get key.resourceK).getD [])
    params = _
  rw [get_restrict _ h]
  rfl

theorem listThreadFacts_view {key : ThreadKey} (h : ofNamespace n key.threadK = true)
    (s : InMemoryMemoryStore μ) : (view n s).listThreadFacts key = s.listThreadFacts key := by
  show ((s.threadFacts.restrict (ofNamespace n)).get key.threadK).getD [] = _
  rw [get_restrict _ h]
  rfl

theorem listThreadEpisodes_view {key : ThreadKey} (h : ofNamespace n key.threadK = true)
    (s : InMemoryMemoryStore μ) (params : EpisodeListParams) :
    (view n s).listThreadEpisodes key params = s.listThreadEpisodes key params := by
  show queryEpisodes (((s.threadEpisodes.restrict (ofNamespace n)).get key.threadK).getD [])
    params = _
  rw [get_restrict _ h]
  rfl

theorem getMessages_view {key : ThreadKey} (h : ofNamespace n key.threadK = true)
    (s : InMemoryMemoryStore μ) (range : MessageRange) :
    (view n s).getMessages key range = s.getMessages key range := by
  simp [getMessages, view, get_restrict, h]

theorem readPages_view {key : ThreadKey} (h : ofNamespace n key.threadK = true)
    (s : InMemoryMemoryStore μ) (afterSeq : Int) (budget : TokenBudget μ) (fuel : Nat)
    (newestFirst : List (StoredMessage μ)) (total : Int) (beforeSeq : Option Int) :
    (view n s).readPages key afterSeq budget fuel newestFirst total beforeSeq =
      s.readPages key afterSeq budget fuel newestFirst total beforeSeq := by
  induction fuel generalizing newestFirst total beforeSeq with
  | zero => rfl
  | succ fuel ih =>
    simp only [readPages, getMessages_view h, ih]

theorem contextResource_key {key : ThreadKey} {thread : ThreadRow} {resourceKey : ScopedKey}
    (h : contextResource key thread = some resourceKey) :
    ofNamespace key.namespaceId resourceKey.resourceK = true := by
  unfold contextResource at h
  simp only at h
  split at h
  · cases h
    exact ofNamespace_joinKey _ _
  · exact nomatch h

theorem contextInput_view {key : ThreadKey} (hn : key.namespaceId = n)
    (s : InMemoryMemoryStore μ) (budget : TokenBudget μ) :
    (view n s).contextInput key budget = s.contextInput key budget := by
  subst hn
  have hkey : ofNamespace key.namespaceId key.threadK = true := ofNamespace_joinKey _ _
  have hself : (key.namespaceId == key.namespaceId) = true := by simp
  have hthread : (view key.namespaceId s).getThread key = s.getThread key :=
    get_restrict _ hkey
  have hnamespace : (view key.namespaceId s).getNamespace key.namespaceId =
      s.getNamespace key.namespaceId :=
    get_restrict _ hself
  have htail : ∀ afterSeq, (view key.namespaceId s).readMessageTail key afterSeq budget =
      s.readMessageTail key afterSeq budget := by
    intro afterSeq
    simp only [readMessageTail, getMessages_view hkey, readPages_view hkey]
  -- The resource layer, when the thread has one, lies under a key of the namespace too.
  unfold contextInput
  simp only [hthread, hnamespace, listNamespaceFacts_view hself, listThreadFacts_view hkey,
    listThreadEpisodes_view hkey, htail]
  cases hresource : contextResource key ((s.getThread key).getD (emptyThread key)) with
  | none => rfl
  | some resourceKey =>
    have hresourceKey := contextResource_key hresource
    have hrow : (view key.namespaceId s).getResource resourceKey = s.getResource resourceKey :=
      get_restrict _ hresourceKey
    simp only [Option.bind_some, Option.map_some, hrow, listResourceFacts_view hresourceKey,
      listResourceEpisodes_view hresourceKey]

/-! ### Any operation -/

@[simp] theorem updated_fst (r : InMemoryMemoryStore μ × Except String Unit) :
    (updated r : InMemoryMemoryStore μ × MemoryAnswer μ ρ).1 = r.1 := by
  obtain ⟨s, _ | _⟩ := r <;> rfl

section

variable (h : s.RowsKeyed)
include h

theorem RowsKeyed.set {s' : InMemoryMemoryStore μ} (row : ThreadRow) (hs' : s'.threads =
      s.threads.set (joinKey row.namespaceId row.threadId) row) : s'.RowsKeyed := by
  intro k row' hrow'
  rw [hs', get_set] at hrow'
  split at hrow'
  · rename_i hk
    cases hrow'
    exact hk.symm
  · exact h k row' hrow'

theorem RowsKeyed.of_threads {s' : InMemoryMemoryStore μ}
    (hs' : s'.threads = s.threads) : s'.RowsKeyed := by
  intro k row hrow
  exact h k row (hs' ▸ hrow)

theorem RowsKeyed.createThread (key : ThreadKey)
    (init : ThreadInit) : (s.createThread key init).1.RowsKeyed := by
  unfold InMemoryMemoryStore.createThread
  split
  · exact h
  · exact h.set (s.newThread key init) rfl

theorem RowsKeyed.ensureThread (key : ThreadKey) :
    (s.ensureThread key).RowsKeyed := by
  unfold InMemoryMemoryStore.ensureThread
  split
  · exact h
  · exact h.createThread key {}

theorem RowsKeyed.updateThread (key : ThreadKey)
    {change : ThreadRow → ThreadRow} (hchange : ∀ row, (change row).namespaceId = row.namespaceId ∧
      (change row).threadId = row.threadId) : (s.updateThread key change).1.RowsKeyed := by
  unfold InMemoryMemoryStore.updateThread
  cases hrow : s.getThread key with
  | none => exact h
  | some row =>
    have hkey : key.threadK = joinKey (change row).namespaceId (change row).threadId := by
      rw [(hchange row).1, (hchange row).2]
      exact h _ _ hrow
    apply h.set { change row with updatedAt := s.now }
    simp only [hkey]

theorem RowsKeyed.deleteThread (key : ThreadKey) :
    (s.deleteThread key).RowsKeyed := by
  intro k row hrow
  simp only [InMemoryMemoryStore.deleteThread, get_delete] at hrow
  split at hrow
  · cases hrow
  · exact h k row hrow

end

theorem ensureNamespace_threads (s : InMemoryMemoryStore μ) (ns : String) :
    (s.ensureNamespace ns).threads = s.threads := by
  unfold ensureNamespace
  split <;> rfl

theorem ensureResource_threads (s : InMemoryMemoryStore μ) (key : ScopedKey) :
    (s.ensureResource key).threads = s.threads := by
  unfold ensureResource
  split <;> rfl

theorem RowsKeyed.apply (h : s.RowsKeyed) (op : MemoryOp μ) :
    (s.apply env op).1.RowsKeyed := by
  cases op with
  | createThread key init =>
    have hcreate := h.createThread key init
    simp only [InMemoryMemoryStore.apply]
    cases hr : s.createThread key init with
    | mk s' answer =>
      rw [hr] at hcreate
      cases answer <;> exact hcreate
  | setThreadWorking key content | setThreadTitle key title | setThreadMetadata key metadata
  | setThreadInheritFromParent key inherit | setThreadArchived key archivedAt =>
    simp only [InMemoryMemoryStore.apply, updated_fst]
    exact h.updateThread key fun _ => ⟨rfl, rfl⟩
  | appendThreadFact key input uuid | appendThreadEpisode key input uuid =>
    exact (h.ensureThread key).of_threads rfl
  | appendMessages key msgs idempotencyKey =>
    have hensure := h.ensureThread key
    simp only [InMemoryMemoryStore.apply, InMemoryMemoryStore.appendMessages]
    split
    · exact hensure
    · exact hensure.of_threads rfl
  | deleteThread key => exact h.deleteThread key
  | appendNamespaceFact ns input uuid | appendNamespaceEpisode ns input uuid =>
    exact h.of_threads (ensureNamespace_threads s ns)
  | appendResourceFact key input uuid | appendResourceEpisode key input uuid =>
    exact h.of_threads (ensureResource_threads s key)
  | reserveConsolidation request uuid =>
    apply h.of_threads
    simp only [InMemoryMemoryStore.apply, reserveConsolidation]
    split
    · rfl
    · split <;> rfl
  | getNamespace _ | upsertNamespace _ _ | listNamespaceFacts _ | deleteNamespaceFact _ _
  | listNamespaceEpisodes _ _ | deleteNamespaceEpisode _ _ | getResource _ | upsertResource _ _
  | listResourceFacts _ | deleteResourceFact _ _ | listResourceEpisodes _ _
  | deleteResourceEpisode _ _ | getThread _ | listThreads _ | listThreadFacts _
  | deleteThreadFact _ _ | getMessages _ _ | listThreadEpisodes _ _ | deleteThreadEpisode _ _
  | releaseConsolidation _ _ | resolveContext _ _ => exact h.of_threads rfl

theorem setter_acts (change : ThreadRow → ThreadRow) :
    ActsOnView n (ofNamespace n key.threadK)
      fun s : InMemoryMemoryStore μ =>
        (updated (s.updateThread key change) : InMemoryMemoryStore μ × MemoryAnswer μ ρ) := by
  have hupdate := updateThread_acts (n := n) (μ := μ) key change
  have hanswer : ∀ r : InMemoryMemoryStore μ × Except String Unit,
      (updated r : InMemoryMemoryStore μ × MemoryAnswer μ ρ) = (r.1, match r.2 with
        | .ok () => .unit
        | .error message => .threw message) := by
    rintro ⟨s, _ | _⟩ <;> rfl
  simp only [hanswer]
  exact ⟨fun h s => ⟨(hupdate.commutes h s).1, by rw [(hupdate.commutes h s).2]⟩,
    fun h s => hupdate.unseen h s⟩

def inside (n : String) : MemoryOp μ → Bool
  | .getNamespace ns | .upsertNamespace ns _ | .appendNamespaceFact ns _ _
  | .listNamespaceFacts ns | .deleteNamespaceFact ns _ | .appendNamespaceEpisode ns _ _
  | .listNamespaceEpisodes ns _ | .deleteNamespaceEpisode ns _ | .releaseConsolidation ns _ =>
    ns == n
  | .getResource key | .upsertResource key _ | .appendResourceFact key _ _
  | .listResourceFacts key | .deleteResourceFact key _ | .appendResourceEpisode key _ _
  | .listResourceEpisodes key _ | .deleteResourceEpisode key _ => ofNamespace n key.resourceK
  | .createThread key _ | .getThread key | .setThreadWorking key _ | .setThreadTitle key _
  | .setThreadMetadata key _ | .setThreadInheritFromParent key _ | .setThreadArchived key _
  | .appendThreadFact key _ _ | .listThreadFacts key | .deleteThreadFact key _
  | .appendMessages key _ _ | .getMessages key _ | .appendThreadEpisode key _ _
  | .listThreadEpisodes key _ | .deleteThreadEpisode key _ | .deleteThread key =>
    ofNamespace n key.threadK
  | .listThreads params => params.namespaceId == n
  | .resolveContext key _ => key.namespaceId == n
  | .reserveConsolidation request _ => request.namespaceId == n

theorem ActsOnView.read {inside : Bool} {r : InMemoryMemoryStore μ → α}
    (h : inside = true → ∀ s, r (view n s) = r s) : ActsOnView n inside fun s => (s, r s) where
  commutes hinside s := ⟨rfl, (h hinside s).symm⟩
  unseen _ _ := rfl

theorem ActsOnView.answer {inside : Bool} {β : Type}
    {f : InMemoryMemoryStore μ → InMemoryMemoryStore μ × α} (h : ActsOnView n inside f)
    (g : α → β) : ActsOnView n inside fun s => ((f s).1, g (f s).2) where
  commutes hinside s :=
    ⟨(h.commutes hinside s).1, congrArg g (h.commutes hinside s).2⟩
  unseen hinside s := h.unseen hinside s

/-- Every operation but `listThreads` acts on the view of its namespace, and answers from it. -/
theorem apply_acts (op : MemoryOp μ) (hlist : ∀ params, op ≠ .listThreads params) :
    ActsOnView n (inside n op) fun s => s.apply env op := by
  cases op with
  | listThreads params => exact absurd rfl (hlist params)
  | getNamespace ns =>
    exact .read fun h s => congrArg MemoryAnswer.namespace (get_restrict _ h)
  | upsertNamespace ns patch =>
    exact (upsertNamespace_acts ns patch).answer
      fun row => MemoryAnswer.namespace (some row)
  | appendNamespaceFact ns input uuid =>
    exact (appendNamespaceFact_acts ns input uuid).answer fact
  | listNamespaceFacts ns =>
    exact .read fun h s => congrArg facts (listNamespaceFacts_view h s)
  | deleteNamespaceFact ns factId =>
    exact (deleteNamespaceFact_acts ns factId).answer fun _ => unit
  | appendNamespaceEpisode ns input uuid =>
    exact (appendNamespaceEpisode_acts ns input uuid).answer episode
  | listNamespaceEpisodes ns params =>
    exact .read fun h s => congrArg episodes (listNamespaceEpisodes_view h s params)
  | deleteNamespaceEpisode ns episodeId =>
    exact (deleteNamespaceEpisode_acts ns episodeId).answer fun _ => unit
  | getResource key =>
    exact .read fun h s => congrArg resource (get_restrict _ h)
  | upsertResource key patch =>
    exact (upsertResource_acts key patch).answer
      fun row => resource (some row)
  | appendResourceFact key input uuid =>
    exact (appendResourceFact_acts key input uuid).answer fact
  | listResourceFacts key =>
    exact .read fun h s => congrArg facts (listResourceFacts_view h s)
  | deleteResourceFact key factId =>
    exact (deleteResourceFact_acts key factId).answer fun _ => unit
  | appendResourceEpisode key input uuid =>
    exact (appendResourceEpisode_acts key input uuid).answer episode
  | listResourceEpisodes key params =>
    exact .read fun h s => congrArg episodes (listResourceEpisodes_view h s params)
  | deleteResourceEpisode key episodeId =>
    exact (deleteResourceEpisode_acts key episodeId).answer fun _ => unit
  | createThread key init =>
    -- a taken key makes the call throw, and leaves both stores as they are
    have hcreate := createThread_acts (n := n) (μ := μ) key init
    have hanswer := hcreate.answer (β := MemoryAnswer μ ρ) fun
      | .ok row => .thread (some row)
      | .error message => .threw message
    have hfun : (fun s : InMemoryMemoryStore μ => s.apply env (.createThread key init)) =
        fun s => ((s.createThread key init).1, match (s.createThread key init).2 with
          | .ok row => .thread (some row)
          | .error message => .threw message) := by
      funext s
      simp only [InMemoryMemoryStore.apply]
      obtain ⟨s', _ | _⟩ := s.createThread key init <;> rfl
    rw [hfun]
    exact hanswer
  | getThread key =>
    exact .read fun h s => congrArg thread (get_restrict _ h)
  | setThreadWorking key content | setThreadTitle key title | setThreadMetadata key metadata
  | setThreadInheritFromParent key inherit | setThreadArchived key archivedAt =>
    exact setter_acts key _
  | appendThreadFact key input uuid =>
    exact (appendThreadFact_acts key input uuid).answer fact
  | listThreadFacts key =>
    exact .read fun h s => congrArg facts (listThreadFacts_view h s)
  | deleteThreadFact key factId =>
    exact (deleteThreadFact_acts key factId).answer fun _ => unit
  | appendMessages key msgs idempotencyKey =>
    exact (appendMessages_acts key msgs idempotencyKey).answer MemoryAnswer.messages
  | getMessages key range =>
    exact .read fun h s => congrArg MemoryAnswer.messages (getMessages_view h s range)
  | appendThreadEpisode key input uuid =>
    exact (appendThreadEpisode_acts key input uuid).answer episode
  | listThreadEpisodes key params =>
    exact .read fun h s => congrArg episodes (listThreadEpisodes_view h s params)
  | deleteThreadEpisode key episodeId =>
    exact (deleteThreadEpisode_acts key episodeId).answer fun _ => unit
  | deleteThread key => exact (deleteThread_acts key).answer fun _ => unit
  | reserveConsolidation request uuid =>
    exact (reserveConsolidation_acts request uuid).answer reservation
  | releaseConsolidation ns reservationId =>
    exact (releaseConsolidation_acts ns reservationId).answer fun _ => unit
  | resolveContext key budget =>
    exact .read fun h s => by
      simp only [resolveContext, contextInput_view (by simpa [inside] using h)]

variable {op : MemoryOp μ}

theorem apply_commutes (h : inside n op = true) (s : InMemoryMemoryStore μ) :
    view n (s.apply env op).1 = ((view n s).apply env op).1 := by
  by_cases hlist : ∃ params, op = .listThreads params
  · obtain ⟨params, rfl⟩ := hlist
    rfl
  · exact ((apply_acts op fun params hop => hlist ⟨params, hop⟩).commutes h s).1

theorem apply_unseen (h : inside n op = false) (s : InMemoryMemoryStore μ) :
    view n (s.apply env op).1 = view n s := by
  by_cases hlist : ∃ params, op = .listThreads params
  · obtain ⟨params, rfl⟩ := hlist
    rfl
  · exact (apply_acts op fun params hop => hlist ⟨params, hop⟩).unseen h s

theorem apply_answer (h : inside n op = true) (s : InMemoryMemoryStore μ)
    (hkeyed : s.RowsKeyed) : (s.apply env op).2 = ((view n s).apply env op).2 := by
  by_cases hlist : ∃ params, op = .listThreads params
  · obtain ⟨params, rfl⟩ := hlist
    have hn : params.namespaceId = n := by simpa [inside] using h
    exact congrArg MemoryAnswer.threads (listThreads_view env hn s hkeyed).symm
  · exact ((apply_acts op fun params hop => hlist ⟨params, hop⟩).commutes h s).2

theorem inside_of_namespaceId (h : op.namespaceId = n) : inside n op = true := by
  subst h
  cases op <;>
    simp [inside, MemoryOp.namespaceId, ScopedKey.resourceK, ThreadKey.threadK]

theorem inside_of_keysApart {n' : String} (h : op.namespaceId = n')
    (hne : n' ≠ n) (happart : KeysApart n' n) : inside n op = false := by
  subst h
  cases op <;>
    simp [inside, MemoryOp.namespaceId, ScopedKey.resourceK, ThreadKey.threadK] at * <;>
    first
      | exact hne
      | exact happart.not_ofNamespace hne _

end InMemoryMemoryStore

end Promin.Agent
