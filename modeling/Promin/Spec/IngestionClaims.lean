import Promin.Agent.KnowledgeBaseStore
import Promin.ForStd.Machine

/-!
# Claims on sources

A row remembers the worker of its claim and not the claim.
-/

namespace Promin.Agent

open JsMap Option InMemoryKnowledgeBaseStore Function InMemorySource

structure IngestionClaim where
  workerId : String
  key : KnowledgeSourceKey
  deriving DecidableEq

/-- The store and the claims: all that were handed out, and for each source the number of the one
    that has not ended. -/
structure Ingestions where
  store : InMemoryKnowledgeBaseStore
  issued : List IngestionClaim
  live : KnowledgeSourceKey → Option Nat

/-- Calls of the ingestion; a claim is named by its number in the run. -/
inductive IngestionOp where
  | advance (ms : Nat)
  | saveSource (namespaceId baseId : String) (source : KnowledgeSourceRecord)
  | deleteSource (key : KnowledgeSourceKey)
  | claimSource (workerId : String) (staleAfterMs : Int)
  | heartbeatClaim (claim : Nat)
  | completeSource (claim : Nat) (source : KnowledgeSourceRecord)
  | releaseClaims (workerId : String)

namespace Ingestions

def new (now : Int) : Ingestions := ⟨⟨JsMap.empty, now⟩, [], fun _ => none⟩

def ended (s : Ingestions) (key : KnowledgeSourceKey) (store : InMemoryKnowledgeBaseStore) :
    Ingestions :=
  { s with store := store, live := update s.live key none }

def claimSource (s : Ingestions) (workerId : String) (staleAfterMs : Int) : Ingestions :=
  match s.store.claimSource workerId staleAfterMs with
  | (_, none) => s
  | (store, some claimed) =>
    { store := store
      issued := s.issued ++ [⟨workerId, claimed.key⟩]
      live := update s.live claimed.key (some s.issued.length) }

/-- The worker that was handed the claim renews it. -/
def heartbeatClaim (s : Ingestions) (claim : Nat) : Ingestions × Bool :=
  match s.issued[claim]? with
  | none => (s, false)
  | some c =>
    let r := s.store.heartbeatClaim c.key c.workerId
    ({ s with store := r.1 }, r.2)

def completeSource (s : Ingestions) (claim : Nat) (source : KnowledgeSourceRecord) :
    Ingestions × Bool :=
  match s.issued[claim]? with
  | none => (s, false)
  | some c =>
    let r := s.store.completeSource c.key.namespaceId c.key.baseId c.workerId
      { source with id := c.key.sourceId }
    (if r.2 then s.ended c.key r.1 else { s with store := r.1 }, r.2)

def releaseClaims (s : Ingestions) (workerId : String) : Ingestions :=
  { s with
    store := (s.store.releaseClaims workerId).1
    live := fun key => (s.live key).filter fun j =>
      (s.issued[j]?).map (·.workerId) != some workerId }

end Ingestions

/-- The store with every claim that was handed out. -/
def ingestions : Machine Ingestions IngestionOp Bool where
  step s
    | .advance ms => ({ s with store := { s.store with now := s.store.now + ms } }, true)
    | .saveSource namespaceId baseId source => (s.ended ⟨namespaceId, baseId, source.id⟩
        (s.store.saveSource namespaceId baseId source), true)
    | .deleteSource key => (s.ended key (s.store.deleteSource key), true)
    | .claimSource workerId staleAfterMs => (s.claimSource workerId staleAfterMs, true)
    | .heartbeatClaim claim => s.heartbeatClaim claim
    | .completeSource claim source => s.completeSource claim source
    | .releaseClaims workerId => (s.releaseClaims workerId, true)

/-- A call for a claim that has ended answers `false` and changes nothing. -/
def Ingestions.Fenced (s : Ingestions) (claim : Nat) : Prop :=
  ∀ c, s.issued[claim]? = some c → s.live c.key ≠ some claim →
    (∀ source, s.completeSource claim source = (s, false)) ∧ s.heartbeatClaim claim = (s, false)

/-! ## The rows of the store -/

namespace InMemoryKnowledgeBaseStore

variable {s : InMemoryKnowledgeBaseStore} {key : KnowledgeSourceKey}

theorem entry_put (entry : InMemorySource) (key' : KnowledgeSourceKey) :
    (s.put key entry).entry key' = if key = key' then some entry else s.entry key' := by
  obtain ⟨n, b, i⟩ := key
  obtain ⟨n', b', i'⟩ := key'
  by_cases hbase : (n, b) = (n', b')
  · cases hbase
    simp only [InMemoryKnowledgeBaseStore.entry, put, get_set_self, bind_some,
      get_set, KnowledgeSourceKey.mk.injEq, true_and]
    cases s.sources.get (n, b) <;> simp [JsMap.get, JsMap.empty, JsMap.lookup]
  · have hne : ¬ (n = n' ∧ b = b' ∧ i = i') := fun h => hbase (by rw [h.1, h.2.1])
    simp [InMemoryKnowledgeBaseStore.entry, put, get_set_ne _ _ hbase, hne]

theorem entry_deleteSource (key' : KnowledgeSourceKey) :
    (s.deleteSource key).entry key' = if key = key' then none else s.entry key' := by
  obtain ⟨n, b, i⟩ := key
  obtain ⟨n', b', i'⟩ := key'
  unfold deleteSource
  by_cases hbase : (n, b) = (n', b')
  · cases hbase
    cases hsources : s.sources.get (n, b) with
    | none => simp [entry, hsources]
    | some sources => simp [entry, hsources, get_delete]
  · have hne : ¬ (n = n' ∧ b = b' ∧ i = i') := fun h => hbase (by rw [h.1, h.2.1])
    cases hsources : s.sources.get (n, b) with
    | none => simp [hne]
    | some sources =>
      simp [entry, get_set_ne _ _ hbase, hne]

theorem entry_releaseClaims (workerId : String) :
    (s.releaseClaims workerId).1.entry key = (s.entry key).map (·.released workerId) := by
  simp only [entry, releaseClaims, get_mapValues]
  cases s.sources.get (key.namespaceId, key.baseId) <;> simp [get_mapValues]

theorem entry_best {staleAfterMs : Int} {entry : InMemorySource}
    (h : s.best staleAfterMs = some (key, entry)) : s.entry key = some entry := by
  have horder : Std.TransCmp fun a b : KnowledgeSourceKey × InMemorySource =>
      compare b.2.record.updatedAt a.2.record.updatedAt :=
    { eq_swap := Std.OrientedCmp.eq_swap
      isLE_trans := fun hab hbc => Std.TransCmp.isLE_trans hbc hab }
  have hne : s.rows.filter (fun row => row.2.claimable s.now staleAfterMs) ≠ [] := by
    intro hnil
    rw [best, hnil] at h
    cases h
  obtain ⟨row, hmem, hrow, -⟩ := @Comparators.greatest_spec _ _ _ horder hne
  cases h.symm.trans hrow
  obtain ⟨base, hbase, hsource⟩ := List.mem_flatMap.mp (List.mem_of_mem_filter hmem)
  obtain ⟨source, hentry, heq⟩ := List.mem_map.mp hsource
  cases heq
  simp only [entry,
    (mem_entries_iff s.sources base.1 base.2).mp hbase, bind_some]
  exact (mem_entries_iff base.2 source.1 source.2).mp hentry

end InMemoryKnowledgeBaseStore

/-! ## Rows and claims -/

structure Tracks (s : Ingestions) : Prop where
  ids : ∀ key entry, s.store.entry key = some entry → entry.record.id = key.sourceId
  rows : ∀ key entry claim, s.store.entry key = some entry → entry.claim = some claim →
    entry.record.status = .ingesting ∧
      ∃ j, s.live key = some j ∧ s.issued[j]? = some ⟨claim.workerId, key⟩
  live : ∀ key j, s.live key = some j → ∃ entry claim, s.store.entry key = some entry ∧
    entry.claim = some claim

section

variable {s : Ingestions} {key : KnowledgeSourceKey} {workerId : String}

theorem Tracks.heldBy_iff (h : Tracks s) : (s.store.entry key).any (·.heldBy workerId) = true ↔
    ∃ j, s.live key = some j ∧ s.issued[j]? = some ⟨workerId, key⟩ := by
  constructor
  · intro hheld
    obtain ⟨entry, hentry, hheld⟩ := (any_eq_true _ _).mp hheld
    simp only [heldBy, Bool.and_eq_true, beq_iff_eq, map_eq_some_iff] at hheld
    obtain ⟨-, claim, hclaim, rfl⟩ := hheld
    exact (h.rows key entry claim hentry hclaim).2
  · rintro ⟨j, hlive, hissued⟩
    obtain ⟨entry, claim, hentry, hclaim⟩ := h.live key j hlive
    obtain ⟨hstatus, j', hlive', hissued'⟩ := h.rows key entry claim hentry hclaim
    rw [hlive] at hlive'
    cases hlive'
    rw [hissued] at hissued'
    cases hissued'
    simp [hentry, heldBy, hstatus, hclaim]

/-- A row is written without a claim, or removed. -/
theorem Tracks.ended (h : Tracks s) {store : InMemoryKnowledgeBaseStore}
    {row? : Option InMemorySource} (hentry : ∀ key', store.entry key' =
      if key = key' then row? else s.store.entry key')
    (hrow : ∀ entry ∈ row?, entry.record.id = key.sourceId ∧ entry.claim = none) :
    Tracks (s.ended key store) where
  ids key' entry hget := by
    rw [Ingestions.ended, hentry] at hget
    split at hget
    · rename_i heq
      rw [← heq]
      exact (hrow entry hget).1
    · exact h.ids key' entry hget
  rows key' entry claim hget hclaim := by
    rw [Ingestions.ended, hentry] at hget
    split at hget
    · rw [(hrow entry hget).2] at hclaim
      cases hclaim
    · rename_i hne
      simp only [Ingestions.ended, update_of_ne (Ne.symm hne)]
      exact h.rows key' entry claim hget hclaim
  live key' j hlive := by
    by_cases heq : key = key'
    · subst heq
      simp [Ingestions.ended] at hlive
    · simp only [Ingestions.ended, update_of_ne (Ne.symm heq)] at hlive
      simp only [Ingestions.ended, hentry, if_neg heq]
      exact h.live key' j hlive

theorem Tracks.claimed (h : Tracks s) {record : KnowledgeSourceRecord} {at_ : Int}
    {issued : List IngestionClaim} {live : KnowledgeSourceKey → Option Nat}
    (hid : record.id = key.sourceId) (hstatus : record.status = .ingesting)
    (hissued : ∀ (j : Nat) (c : IngestionClaim), s.issued[j]? = some c → issued[j]? = some c)
    (hlive : ∀ key', key ≠ key' → live key' = s.live key')
    (hown : ∃ j, live key = some j ∧ issued[j]? = some ⟨workerId, key⟩) :
    Tracks ⟨s.store.put key { record := record, claim := some ⟨workerId, at_⟩ }, issued, live⟩ where
  ids key' entry hget := by
    rw [entry_put] at hget
    split at hget
    · rename_i heq
      cases hget
      rw [← heq]
      exact hid
    · exact h.ids key' entry hget
  rows key' entry claim hget hclaim := by
    rw [entry_put] at hget
    split at hget
    · rename_i heq
      cases hget
      cases hclaim
      subst heq
      exact ⟨hstatus, hown⟩
    · rename_i hne
      obtain ⟨hstatus, j, hj, hclaimed⟩ := h.rows key' entry claim hget hclaim
      exact ⟨hstatus, j, (hlive key' hne).trans hj, hissued j _ hclaimed⟩
  live key' j hj := by
    simp only [entry_put]
    split
    · exact ⟨_, _, rfl, rfl⟩
    · rename_i hne
      exact h.live key' j ((hlive key' hne).symm.trans hj)

theorem Tracks.claimSource (h : Tracks s) (workerId : String) (staleAfterMs : Int) :
    Tracks (s.claimSource workerId staleAfterMs) := by
  unfold Ingestions.claimSource InMemoryKnowledgeBaseStore.claimSource
  cases hbest : s.store.best staleAfterMs with
  | none => exact h
  | some row =>
    obtain ⟨key, entry⟩ := row
    have hid := h.ids key entry (entry_best hbest)
    have hkey : (⟨key.namespaceId, key.baseId, entry.record.id⟩ : KnowledgeSourceKey) = key := by
      rw [hid]
    simp only [ClaimedKnowledgeSource.key, hkey]
    refine h.claimed hid rfl (fun j c hc => ?_)
      (fun key' hne => update_of_ne (Ne.symm hne) _ _) ⟨s.issued.length, by simp, by simp⟩
    rw [List.getElem?_append_left (List.getElem?_eq_some_iff.mp hc).1]
    exact hc

theorem Tracks.heartbeatClaim (h : Tracks s) (claim : Nat) :
    Tracks (s.heartbeatClaim claim).1 := by
  unfold Ingestions.heartbeatClaim
  cases hissued : s.issued[claim]? with
  | none => exact h
  | some c =>
    simp only [InMemoryKnowledgeBaseStore.heartbeatClaim]
    cases hheld : (s.store.entry c.key).filter (·.heldBy c.workerId) with
    | none => exact h
    | some entry =>
      obtain ⟨hentry, hheld⟩ := filter_eq_some_iff.mp hheld
      have hown := h.heldBy_iff.mp ((any_eq_true _ _).mpr ⟨entry, hentry, hheld⟩)
      simp only [heldBy, Bool.and_eq_true, beq_iff_eq] at hheld
      exact h.claimed (h.ids c.key entry hentry) hheld.1 (fun _ _ hc => hc) (fun _ _ => rfl) hown

theorem Tracks.releaseClaims (h : Tracks s) (workerId : String) :
    Tracks (s.releaseClaims workerId) := by
  have hentry : ∀ key entry, (s.releaseClaims workerId).store.entry key = some entry →
      ∃ old, s.store.entry key = some old ∧ entry = old.released workerId := by
    intro key entry hget
    simp only [Ingestions.releaseClaims, entry_releaseClaims,
      map_eq_some_iff] at hget
    obtain ⟨old, hold, heq⟩ := hget
    exact ⟨old, hold, heq.symm⟩
  constructor
  · intro key entry hget
    obtain ⟨old, hold, rfl⟩ := hentry key entry hget
    rw [released]
    split <;> exact h.ids key old hold
  · intro key entry claim hget hclaim
    obtain ⟨old, hold, rfl⟩ := hentry key entry hget
    rw [released] at hclaim ⊢
    split at hclaim
    · cases hclaim
    · rename_i hheld
      obtain ⟨hstatus, j, hlive, hissued⟩ := h.rows key old claim hold hclaim
      rw [if_neg hheld]
      refine ⟨hstatus, j, ?_, hissued⟩
      have hother : claim.workerId ≠ workerId := by
        rintro rfl
        simp [heldBy, hstatus, hclaim] at hheld
      simp [Ingestions.releaseClaims, hlive, hissued, hother]
  · intro key j hlive
    simp only [Ingestions.releaseClaims, filter_eq_some_iff, bne_iff_ne, ne_eq] at hlive
    obtain ⟨hlive, hother⟩ := hlive
    obtain ⟨entry, claim, hget, hclaim⟩ := h.live key j hlive
    obtain ⟨hstatus, j', hlive', hissued⟩ := h.rows key entry claim hget hclaim
    rw [hlive] at hlive'
    cases hlive'
    simp only [hissued, map_some, Option.some.injEq] at hother
    refine ⟨entry, claim, ?_, hclaim⟩
    simp only [Ingestions.releaseClaims, entry_releaseClaims, hget,
      map_some]
    simp [released, heldBy, hclaim, hother]

theorem Tracks.completeSource (h : Tracks s) (claim : Nat) (source : KnowledgeSourceRecord) :
    Tracks (s.completeSource claim source).1 := by
  unfold Ingestions.completeSource
  cases hissued : s.issued[claim]? with
  | none => exact h
  | some c =>
    simp only [InMemoryKnowledgeBaseStore.completeSource]
    by_cases hheld : (s.store.entry c.key).any (·.heldBy c.workerId) = true
    · simp only [hheld, if_true]
      exact h.ended (fun key' => entry_put _ key') fun entry he => by
        cases he
        exact ⟨rfl, rfl⟩
    · simp only [hheld, if_false, Bool.false_eq_true]
      exact h

/-- Every step keeps the rows and the claims together. -/
theorem tracks_step (h : Tracks s) (o : IngestionOp) : Tracks (ingestions.next s o) := by
  cases o with
  | advance ms => exact ⟨h.ids, h.rows, h.live⟩
  | saveSource namespaceId baseId source =>
    refine h.ended (fun key' => entry_put _ key') fun entry he => ?_
    cases he
    exact ⟨rfl, rfl⟩
  | deleteSource key =>
    exact h.ended (fun key' => entry_deleteSource key') fun _ he => nomatch he
  | claimSource workerId staleAfterMs => exact h.claimSource workerId staleAfterMs
  | heartbeatClaim claim => exact h.heartbeatClaim claim
  | completeSource claim source => exact h.completeSource claim source
  | releaseClaims workerId => exact h.releaseClaims workerId

/-! ## Calls for claims that have ended -/

theorem Tracks.fenced_iff (h : Tracks s) (claim : Nat) : s.Fenced claim ↔
    ∀ c, s.issued[claim]? = some c → ∀ j later, s.live c.key = some j →
      s.issued[j]? = some later → later.workerId = c.workerId → j = claim := by
  unfold Ingestions.Fenced
  refine forall_congr' fun c => forall_congr' fun hissued => ?_
  by_cases hheld : (s.store.entry c.key).any (·.heldBy c.workerId) = true
  · -- Another claim of the worker is live, and the call is taken for one under it.
    obtain ⟨j, hlive, hj⟩ := h.heldBy_iff.mp hheld
    constructor
    · intro hfenced j' later hlive' hlater hworker
      by_contra hne
      have hended : s.live c.key ≠ some claim := by
        rw [hlive']
        exact fun heq => hne (Option.some.inj heq)
      obtain ⟨entry, -, -⟩ := (any_eq_true _ _).mp hheld
      have hanswer := congrArg Prod.snd ((hfenced hended).1 entry.record)
      simp only [Ingestions.completeSource, hissued,
        InMemoryKnowledgeBaseStore.completeSource] at hanswer
      rw [if_pos hheld] at hanswer
      cases hanswer
    · intro hsame hended
      rw [hlive] at hended
      exact absurd (congrArg some (hsame j _ hlive hj rfl)) hended
  · refine iff_of_true (fun _ => ⟨fun source => ?_, ?_⟩) fun j later hlive hlater hworker => ?_
    · simp only [Ingestions.completeSource, hissued, InMemoryKnowledgeBaseStore.completeSource]
      rw [if_neg hheld]
      rfl
    · have hnone : (s.store.entry c.key).filter (·.heldBy c.workerId) = none := by
        cases hentry : s.store.entry c.key <;> simp_all
      simp only [Ingestions.heartbeatClaim, hissued, InMemoryKnowledgeBaseStore.heartbeatClaim,
        hnone]
    · obtain ⟨entry, claim', hentry, hclaim⟩ := h.live c.key j hlive
      obtain ⟨-, j', hlive', hj⟩ := h.rows c.key entry claim' hentry hclaim
      rw [hlive] at hlive'
      cases hlive'
      rw [hlater] at hj
      cases hj
      exact absurd (h.heldBy_iff.mpr ⟨j, hlive, hworker ▸ hlater⟩) hheld

end

theorem tracks_new (now : Int) : Tracks (.new now) where
  ids _ _ h := nomatch h
  rows _ _ _ h := nomatch h
  live _ _ h := nomatch h

/-- In every state of every run: the calls for a claim are turned away once it has ended, exactly
    when its source is not under another claim of the same worker. -/
theorem ingestion_fenced_iff (now : Int) (ops : List IngestionOp) (claim : Nat) :
    (ingestions.run (.new now) ops).Fenced claim ↔
      ∀ c, (ingestions.run (.new now) ops).issued[claim]? = some c →
        ∀ j later, (ingestions.run (.new now) ops).live c.key = some j →
          (ingestions.run (.new now) ops).issued[j]? = some later →
            later.workerId = c.workerId → j = claim := by
  have htracks : Tracks (ingestions.run (.new now) ops) :=
    Machine.run_induction (P := Tracks) (fun _ o h => tracks_step h o) ops (tracks_new now)
  exact htracks.fenced_iff claim

def pendingText (text : String) : KnowledgeSourceRecord where
  id := "s"
  text := text
  status := .pending
  createdAt := 0
  updatedAt := 0

/-- A source that is rewritten while its worker ingests it, and claimed again by that worker. -/
def rewrittenSource : List IngestionOp :=
  [.saveSource "ns" "kb" (pendingText "old"), .claimSource "w" 60000,
    .saveSource "ns" "kb" (pendingText "new"), .claimSource "w" 60000]

/-- The outcome for the old text is written over the new one. -/
theorem ingestion_fenced_counterexample : ¬ (ingestions.run (.new 0) rewrittenSource).Fenced 0 := by
  intro h
  have hlive :
      (ingestions.run (.new 0) rewrittenSource).live ⟨"ns", "kb", "s"⟩ = some 1 := by decide
  have hissued : (ingestions.run (.new 0) rewrittenSource).issued[0]? =
      some ⟨"w", ⟨"ns", "kb", "s"⟩⟩ := by decide
  have hanswer := congrArg Prod.snd ((h _ hissued (by rw [hlive]; decide)).1
    { pendingText "old" with status := .ready })
  revert hanswer
  decide

end Promin.Agent
