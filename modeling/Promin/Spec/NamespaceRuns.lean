import Promin.Spec.NamespaceIsolation

/-!
# Runs without the operations of a namespace

A lease id leads to the key it was granted for, so `extend` and `release` act on
the view of the namespace the id was issued for.
-/

namespace Promin.Agent

open List JsMap InMemoryLeaseStore InMemoryMemoryStore AgentOp

variable {μ ρ : Type} {env : MemoryEnv μ ρ} {n : String}

/-! ## The view of the lease store -/

namespace InMemoryLeaseStore

variable {s : InMemoryLeaseStore}

def view (n : String) (s : InMemoryLeaseStore) : InMemoryLeaseStore where
  byKey := s.byKey.restrict (ofNamespace n)
  leaseIdToKey := s.leaseIdToKey.filter fun _ k => ofNamespace n k
  now := s.now

/-- A stored lease is found under its own key. -/
def LeadsBack (s : InMemoryLeaseStore) : Prop :=
  ∀ k lease k', s.byKey.get k = some lease → s.leaseIdToKey.get lease.leaseId = some k' → k' = k

/-- Nothing carries the id. -/
def Unused (s : InMemoryLeaseStore) (uuid : String) : Prop :=
  s.leaseIdToKey.get uuid = none ∧ ∀ k lease, s.byKey.get k = some lease → lease.leaseId ≠ uuid

variable {k : String} {additionalMs ttlMs : Int}

@[simp] theorem view_byKey_get (h : ofNamespace n k = true) :
    (view n s).byKey.get k = s.byKey.get k :=
  get_restrict _ h

variable {leaseId : String}

theorem view_get :
    (view n s).leaseIdToKey.get leaseId =
      (s.leaseIdToKey.get leaseId).filter (ofNamespace n ·) :=
  get_filter _ _ _

variable {ownerId uuid : String} {key : ThreadLeaseKey}

theorem view_grant {stolen : JsMap String String} (h : ofNamespace n key.encodeKey = true)
    (hnew : stolen.get uuid = none) :
    view n (s.grant key ownerId ttlMs uuid stolen).1 =
      ((view n s).grant key ownerId ttlMs uuid (stolen.filter fun _ k => ofNamespace n k)).1 := by
  simp only [view, grant]
  rw [restrict_set _ _ h, filter_set hnew h]

theorem view_grant_outside {stolen : JsMap String String} (h : ofNamespace n key.encodeKey = false)
    (hnew : stolen.get uuid = none)
    (hstolen : (stolen.filter fun _ k => ofNamespace n k) = (view n s).leaseIdToKey) :
    view n (s.grant key ownerId ttlMs uuid stolen).1 = view n s := by
  have hids : ((stolen.set uuid key.encodeKey).filter fun _ k => ofNamespace n k) =
      (view n s).leaseIdToKey :=
    (filter_set_outside hnew h).trans hstolen
  simp only [view] at hids ⊢
  simp only [grant, restrict_set_outside _ _ h, hids]

theorem acquire_commutes (h : ofNamespace n key.encodeKey = true) (hunused : s.Unused uuid) :
    view n (s.acquire key ownerId ttlMs uuid).1 =
        ((view n s).acquire key ownerId ttlMs uuid).1 ∧
      (s.acquire key ownerId ttlMs uuid).2 = ((view n s).acquire key ownerId ttlMs uuid).2 := by
  unfold acquire
  rw [view_byKey_get h]
  cases s.byKey.get key.encodeKey with
  | none => exact ⟨view_grant h hunused.1, rfl⟩
  | some existing =>
    have hnow : (view n s).now = s.now := rfl
    simp only [hnow]
    split
    · exact ⟨rfl, rfl⟩
    · have hnew : (s.leaseIdToKey.delete existing.leaseId).get uuid = none := by
        rw [get_delete, hunused.1]
        split <;> rfl
      constructor
      · rw [view_grant h hnew]
        simp only [view, JsMap.delete]
        rw [filter_filter_comm]
      · rfl

theorem acquire_unseen
    (h : ofNamespace n key.encodeKey = false) (hunused : s.Unused uuid) (hback : s.LeadsBack) :
    view n (s.acquire key ownerId ttlMs uuid).1 = view n s := by
  unfold acquire
  cases hheld : s.byKey.get key.encodeKey with
  | none => exact view_grant_outside h hunused.1 rfl
  | some existing =>
    simp only
    split
    · rfl
    · -- The stolen lease's id leads back to the key, which lies outside.
      have hstolen : ((s.leaseIdToKey.delete existing.leaseId).filter
          fun _ k => ofNamespace n k) = (view n s).leaseIdToKey := by
        apply filter_delete_outside
        intro k' hk'
        rw [hback _ _ _ hheld hk']
        exact h
      have hnew : (s.leaseIdToKey.delete existing.leaseId).get uuid = none := by
        rw [get_delete, hunused.1]
        split <;> rfl
      exact view_grant_outside h hnew hstolen

theorem extend_commutes (h : ∀ k, s.leaseIdToKey.get leaseId = some k → ofNamespace n k = true) :
    view n (s.extend leaseId additionalMs).1 = ((view n s).extend leaseId additionalMs).1 ∧
      (s.extend leaseId additionalMs).2 = ((view n s).extend leaseId additionalMs).2 := by
  unfold extend
  rw [view_get]
  cases hk : s.leaseIdToKey.get leaseId with
  | none => exact ⟨rfl, rfl⟩
  | some k =>
    have hin := h k hk
    have hdelete : view n { s with leaseIdToKey := s.leaseIdToKey.delete leaseId } =
        { view n s with leaseIdToKey := (view n s).leaseIdToKey.delete leaseId } := by
      simp only [view, JsMap.delete]
      rw [filter_filter_comm]
    have hnow : (view n s).now = s.now := rfl
    simp only [Option.filter_some, hin, ↓reduceIte, view_byKey_get hin, hnow]
    cases s.byKey.get k with
    | none => exact ⟨hdelete, rfl⟩
    | some current =>
      simp only
      split
      · exact ⟨hdelete, rfl⟩
      · split
        · exact ⟨rfl, rfl⟩
        · constructor
          · simp only [view, restrict_set _ _ hin]
          · rfl

theorem extend_unseen (hk : s.leaseIdToKey.get leaseId = some k) (h : ofNamespace n k = false) :
    view n (s.extend leaseId additionalMs).1 = view n s := by
  have hdelete : view n { s with leaseIdToKey := s.leaseIdToKey.delete leaseId } = view n s := by
    simp only [view]
    rw [filter_delete_outside]
    intro k' hk'
    rw [hk] at hk'
    cases hk'
    exact h
  unfold extend
  simp only [hk]
  cases s.byKey.get k with
  | none => exact hdelete
  | some current =>
    simp only
    split
    · exact hdelete
    · split
      · rfl
      · simp only [view, restrict_set_outside _ _ h]

theorem extend_view :
    view n (s.extend leaseId additionalMs).1 = ((view n s).extend leaseId additionalMs).1 := by
  by_cases hin : ∀ k, s.leaseIdToKey.get leaseId = some k → ofNamespace n k = true
  · exact (extend_commutes hin).1
  · simp only [not_forall, Bool.not_eq_true] at hin
    obtain ⟨k, hk, hout⟩ := hin
    have hnone : (view n s).leaseIdToKey.get leaseId = none := by
      simp [view_get, hk, hout]
    rw [extend_unseen hk hout]
    simp [extend, hnone]

theorem release_commutes (h : ∀ k, s.leaseIdToKey.get leaseId = some k → ofNamespace n k = true) :
    view n (s.release leaseId) = (view n s).release leaseId := by
  unfold release
  rw [view_get]
  cases hk : s.leaseIdToKey.get leaseId with
  | none => rfl
  | some k =>
    have hin := h k hk
    have hdelete : view n { s with leaseIdToKey := s.leaseIdToKey.delete leaseId } =
        { view n s with leaseIdToKey := (view n s).leaseIdToKey.delete leaseId } := by
      simp only [view, JsMap.delete]
      rw [filter_filter_comm]
    simp only [Option.filter_some, hin, ↓reduceIte, view_byKey_get hin]
    cases s.byKey.get k with
    | none => exact hdelete
    | some current =>
      simp only
      split
      · have hids : ((s.leaseIdToKey.delete leaseId).filter fun _ k => ofNamespace n k) =
            (view n s).leaseIdToKey.delete leaseId :=
          filter_filter_comm _ _ _
        simp only [view] at hids ⊢
        rw [restrict_delete, hids]
      · exact hdelete

theorem release_unseen {leaseId : String} (hk : s.leaseIdToKey.get leaseId = some k)
    (h : ofNamespace n k = false) : view n (s.release leaseId) = view n s := by
  have hids : ((s.leaseIdToKey.delete leaseId).filter fun _ k => ofNamespace n k) =
      s.leaseIdToKey.filter fun _ k => ofNamespace n k := by
    apply filter_delete_outside
    intro k' hk'
    rw [hk] at hk'
    cases hk'
    exact h
  unfold release
  simp only [hk]
  cases s.byKey.get k with
  | none => simp only [view, hids]
  | some current =>
    simp only
    split
    · simp only [view, hids, restrict_delete_outside _ h]
    · simp only [view, hids]

theorem release_view :
    view n (s.release leaseId) = (view n s).release leaseId := by
  by_cases hin : ∀ k, s.leaseIdToKey.get leaseId = some k → ofNamespace n k = true
  · exact release_commutes hin
  · simp only [not_forall, Bool.not_eq_true] at hin
    obtain ⟨k, hk, hout⟩ := hin
    have hnone : (view n s).leaseIdToKey.get leaseId = none := by
      simp [view_get, hk, hout]
    rw [release_unseen hk hout]
    simp [release, hnone]

end InMemoryLeaseStore

/-! ## What holds along a run -/

def drawnIds (ops : List (AgentOp μ)) : List String := (ops.filterMap drawn).map Prod.fst

/-- No lease id is drawn twice. -/
def FreshIds (ops : List (AgentOp μ)) : Prop := (drawnIds ops).Nodup

instance (ops : List (AgentOp μ)) : Decidable (FreshIds ops) :=
  inferInstanceAs (Decidable (drawnIds ops).Nodup)

/-- The operations left of a run draw new ids, which the run draws for the same
    namespaces. -/
structure RestOk (all rest : List (AgentOp μ)) : Prop where
  fresh : FreshIds rest
  issued : ∀ o ∈ rest, ∀ uuid ns, o.drawn = some (uuid, ns) → issuedFor all uuid = some ns

/-- What the lease store holds before the operations left of a run. -/
structure LeasesOk (all rest : List (AgentOp μ)) (s : InMemoryLeaseStore) : Prop where
  /-- A lease id leads to a key of the namespace it was drawn for. -/
  keyed : ∀ leaseId k, s.leaseIdToKey.get leaseId = some k →
    ∃ ns threadId, issuedFor all leaseId = some ns ∧ k = joinKey ns threadId
  back : s.LeadsBack
  unused : ∀ uuid ∈ drawnIds rest, s.Unused uuid

variable {all rest : List (AgentOp μ)} {o : AgentOp μ} {s s' : InMemoryLeaseStore}
  {op : LeaseOp} {n' uuid : String} {ops : List (AgentOp μ)}

theorem restOk_all (h : FreshIds ops) : RestOk ops ops where
  fresh := h
  issued o ho _ _ hdrawn :=
    lookup_of_mem h (mem_filterMap.mpr ⟨o, ho, hdrawn⟩)

theorem mem_drawnIds_cons (h : uuid ∈ drawnIds rest) :
    uuid ∈ drawnIds (o :: rest) := by
  simp only [drawnIds, filterMap_cons]
  cases o.drawn with
  | none => exact h
  | some d => exact mem_cons_of_mem _ h

theorem RestOk.tail (h : RestOk all (o :: rest)) : RestOk all rest := by
  constructor
  · have hfresh := h.fresh
    simp only [FreshIds, drawnIds, filterMap_cons] at hfresh ⊢
    cases hdrawn : o.drawn with
    | none => simpa [hdrawn] using hfresh
    | some d =>
      simp only [hdrawn, map_cons, nodup_cons] at hfresh
      exact hfresh.2
  · exact fun o' ho' => h.issued o' (mem_cons_of_mem _ ho')

theorem RestOk.not_mem {ns : String} (h : RestOk all (o :: rest))
    (hdrawn : o.drawn = some (uuid, ns)) : uuid ∉ drawnIds rest := by
  have hfresh := h.fresh
  simp only [FreshIds, drawnIds, filterMap_cons, hdrawn, map_cons,
    nodup_cons] at hfresh
  exact hfresh.1

theorem LeasesOk.of_sub (h : LeasesOk all (o :: rest) s)
    (hids : ∀ leaseId k, s'.leaseIdToKey.get leaseId = some k →
      s.leaseIdToKey.get leaseId = some k) (hleases : ∀ k lease, s'.byKey.get k = some lease →
      ∃ before, s.byKey.get k = some before ∧ before.leaseId = lease.leaseId) :
    LeasesOk all rest s' := by
  constructor
  · exact fun leaseId k hk => h.keyed leaseId k (hids leaseId k hk)
  · intro k lease k' hlease hk'
    obtain ⟨before, hbefore, hsame⟩ := hleases k lease hlease
    exact h.back k before k' hbefore (hsame ▸ hids _ _ hk')
  · intro uuid huuid
    have hunused := h.unused uuid (mem_drawnIds_cons huuid)
    constructor
    · cases hget : s'.leaseIdToKey.get uuid with
      | none => rfl
      | some k => exact absurd (hids uuid k hget) (by simp [hunused.1])
    · intro k lease hlease
      obtain ⟨before, hbefore, hsame⟩ := hleases k lease hlease
      exact hsame ▸ hunused.2 k before hbefore

theorem LeasesOk.grant {key : ThreadLeaseKey} {ownerId : String} {ttlMs : Int}
    {stolen : JsMap String String}
    (h : LeasesOk all (.lease (.acquire key ownerId ttlMs uuid) :: rest) s)
    (hrest : RestOk all (.lease (.acquire key ownerId ttlMs uuid) :: rest))
    (hstolen : ∀ leaseId k, stolen.get leaseId = some k → s.leaseIdToKey.get leaseId = some k) :
    LeasesOk all rest (s.grant key ownerId ttlMs uuid stolen).1 := by
  have hissued : issuedFor all uuid = some key.namespaceId :=
    hrest.issued _ mem_cons_self uuid key.namespaceId rfl
  have hnew : s.Unused uuid := h.unused uuid (by simp [drawnIds, drawn])
  constructor
  · intro leaseId k hk
    simp only [InMemoryLeaseStore.grant, get_set] at hk
    split at hk
    · rename_i heq
      cases hk
      exact ⟨key.namespaceId, key.threadId, heq ▸ hissued, rfl⟩
    · exact h.keyed leaseId k (hstolen leaseId k hk)
  · intro k lease k' hlease hk'
    simp only [InMemoryLeaseStore.grant, get_set] at hlease hk'
    split at hlease
    · rename_i heq
      cases hlease
      simp only [↓reduceIte, Option.some.injEq] at hk'
      rw [← hk', heq]
    · have hne : uuid ≠ lease.leaseId := (hnew.2 k lease hlease).symm
      simp only [hne, ↓reduceIte] at hk'
      exact h.back k lease k' hlease (hstolen _ _ hk')
  · intro uuid' huuid'
    have hne : uuid ≠ uuid' := by
      intro heq
      exact hrest.not_mem rfl (heq ▸ huuid')
    have hunused := h.unused uuid' (mem_drawnIds_cons huuid')
    constructor
    · simp only [InMemoryLeaseStore.grant, get_set, hne, ↓reduceIte]
      cases hget : stolen.get uuid' with
      | none => rfl
      | some k => exact absurd (hstolen uuid' k hget) (by simp [hunused.1])
    · intro k lease hlease
      simp only [InMemoryLeaseStore.grant, get_set] at hlease
      split at hlease
      · cases hlease
        exact hne
      · exact hunused.2 k lease hlease

/-- Every lease in the store was granted under an id no later operation hands out again. -/
theorem LeasesOk.apply (h : LeasesOk all (.lease op :: rest) s)
    (hrest : RestOk all (.lease op :: rest)) : LeasesOk all rest (s.apply op).1 := by
  have hdeleted : ∀ leaseId id k, (s.leaseIdToKey.delete leaseId).get id = some k →
      s.leaseIdToKey.get id = some k := by
    intro leaseId id k hk
    rw [get_delete] at hk
    split at hk
    · cases hk
    · exact hk
  have hsame : LeasesOk all rest s := h.of_sub (fun _ _ hk => hk) fun _ lease hl => ⟨lease, hl, rfl⟩
  have hdropped : ∀ leaseId, LeasesOk all rest
      { s with leaseIdToKey := s.leaseIdToKey.delete leaseId } := fun leaseId =>
    h.of_sub (hdeleted leaseId) fun _ lease hl => ⟨lease, hl, rfl⟩
  cases op with
  | acquire key ownerId ttlMs uuid =>
    simp only [InMemoryLeaseStore.apply, InMemoryLeaseStore.acquire]
    cases s.byKey.get key.encodeKey with
    | none => exact h.grant hrest fun _ _ hk => hk
    | some existing =>
      simp only
      split
      · exact hsame
      · exact h.grant hrest (hdeleted existing.leaseId)
  | extend leaseId additionalMs =>
    simp only [InMemoryLeaseStore.apply, InMemoryLeaseStore.extend]
    cases s.leaseIdToKey.get leaseId with
    | none => exact hsame
    | some k =>
      simp only
      cases hcurrent : s.byKey.get k with
      | none => exact hdropped leaseId
      | some current =>
        simp only
        split
        · exact hdropped leaseId
        · split
          · exact hsame
          · apply LeasesOk.of_sub h
            · exact fun _ _ hk => hk
            intro k' lease hlease
            simp only [get_set] at hlease
            split at hlease
            · rename_i heq
              cases hlease
              exact ⟨current, heq ▸ hcurrent, rfl⟩
            · exact ⟨lease, hlease, rfl⟩
  | release leaseId =>
    simp only [InMemoryLeaseStore.apply, InMemoryLeaseStore.release]
    cases s.leaseIdToKey.get leaseId with
    | none => exact hsame
    | some k =>
      simp only
      cases s.byKey.get k with
      | none => exact hdropped leaseId
      | some current =>
        simp only
        split
        · apply h.of_sub (hdeleted leaseId)
          intro k' lease hlease
          rw [get_delete] at hlease
          split at hlease
          · cases hlease
          · exact ⟨lease, hlease, rfl⟩
        · exact hdropped leaseId
  | get key => exact hsame

theorem LeasesOk.skip (h : LeasesOk all (o :: rest) s) (hbyKey : s'.byKey = s.byKey)
    (hids : s'.leaseIdToKey = s.leaseIdToKey) : LeasesOk all rest s' :=
  h.of_sub (fun _ _ hk => hids ▸ hk) fun _ lease hl => ⟨lease, hbyKey ▸ hl, rfl⟩

/-! ## One lease operation -/

theorem lease_sameView {t : InMemoryLeaseStore}
    (hs : LeasesOk all (.lease op :: rest) s) (ht : LeasesOk all (.lease op :: rest) t)
    (hview : s.view n = t.view n) : (s.apply op).1.view n = (t.apply op).1.view n := by
  cases op with
  | acquire key ownerId ttlMs uuid =>
    have hdrawn : uuid ∈ drawnIds (.lease (.acquire key ownerId ttlMs uuid) :: rest) := by
      simp [drawnIds, drawn]
    have hsUnused := hs.unused uuid hdrawn
    have htUnused := ht.unused uuid hdrawn
    show (s.acquire key ownerId ttlMs uuid).1.view n = (t.acquire key ownerId ttlMs uuid).1.view n
    cases hin : ofNamespace n key.encodeKey with
    | true =>
      rw [(acquire_commutes hin hsUnused).1,
        (acquire_commutes hin htUnused).1, hview]
    | false =>
      rw [acquire_unseen hin hsUnused hs.back,
        acquire_unseen hin htUnused ht.back, hview]
  | extend leaseId additionalMs =>
    show (s.extend leaseId additionalMs).1.view n = (t.extend leaseId additionalMs).1.view n
    rw [extend_view, extend_view, hview]
  | release leaseId =>
    show (s.release leaseId).view n = (t.release leaseId).view n
    rw [release_view, release_view, hview]
  | get key => exact hview

theorem lease_answer (h : LeasesOk all (.lease op :: rest) s)
    (hop : (lease op : AgentOp μ).namespaceId all = some n) :
    (s.apply op).2 = ((s.view n).apply op).2 := by
  cases op with
  | acquire key ownerId ttlMs uuid =>
    have hunused : s.Unused uuid := h.unused uuid (by simp [drawnIds, drawn])
    have hin : ofNamespace n key.encodeKey = true := by
      cases hop
      exact ofNamespace_joinKey _ _
    exact congrArg LeaseAnswer.acquired (acquire_commutes hin hunused).2
  | extend leaseId additionalMs =>
    have hin : ∀ k, s.leaseIdToKey.get leaseId = some k → ofNamespace n k = true := by
      intro k hk
      obtain ⟨ns, threadId, hns, rfl⟩ := h.keyed leaseId k hk
      rw [show issuedFor all leaseId = some n from hop] at hns
      cases hns
      exact ofNamespace_joinKey _ _
    exact congrArg LeaseAnswer.extended (extend_commutes hin).2
  | release leaseId => rfl
  | get key =>
    have hin : ofNamespace n key.encodeKey = true := by
      cases hop
      exact ofNamespace_joinKey _ _
    exact congrArg LeaseAnswer.lease (view_byKey_get hin).symm

theorem lease_unseen (h : LeasesOk all (.lease op :: rest) s)
    (hop : (lease op : AgentOp μ).namespaceId all = some n') (hne : n' ≠ n)
    (happart : KeysApart n' n) : (s.apply op).1.view n = s.view n := by
  -- The key an issued id leads to lies outside.
  have hout : ∀ leaseId, issuedFor all leaseId = some n' → ∀ k,
      s.leaseIdToKey.get leaseId = some k → ofNamespace n k = false := by
    intro leaseId hissued k hk
    obtain ⟨ns, threadId, hns, rfl⟩ := h.keyed leaseId k hk
    rw [hissued] at hns
    cases hns
    exact happart.not_ofNamespace hne _
  cases op with
  | acquire key ownerId ttlMs uuid =>
    have hunused : s.Unused uuid := h.unused uuid (by simp [drawnIds, drawn])
    have hkey : ofNamespace n key.encodeKey = false := by
      cases hop
      exact happart.not_ofNamespace hne _
    exact acquire_unseen hkey hunused h.back
  | extend leaseId additionalMs =>
    show (s.extend leaseId additionalMs).1.view n = s.view n
    cases hk : s.leaseIdToKey.get leaseId with
    | none => simp [InMemoryLeaseStore.extend, hk]
    | some k => exact extend_unseen hk (hout leaseId hop k hk)
  | release leaseId =>
    show (s.release leaseId).view n = s.view n
    cases hk : s.leaseIdToKey.get leaseId with
    | none => simp [InMemoryLeaseStore.release, hk]
    | some k => exact release_unseen hk (hout leaseId hop k hk)
  | get key => rfl

/-! ## Two runs -/

/-- The answers a run gives to the operations issued for a namespace. -/
def answersTo (env : MemoryEnv μ ρ) (n : String) (all : List (AgentOp μ)) (now : Int)
    (ops : List (AgentOp μ)) : List (AgentAnswer μ ρ) :=
  (agentStores env).trace
    (fun s o => if o.namespaceId all = some n then [(agentStores env).out s o] else [])
    (.new now) ops

/-- The run without the operations issued for a namespace. -/
def without (n : String) (ops : List (AgentOp μ)) : List (AgentOp μ) :=
  ops.filter fun o => !decide (o.namespaceId ops = some n)

/-- Leaving out what is issued for `n₁` leaves every answer given to `n₂` as it is. -/
def Isolated (env : MemoryEnv μ ρ) (n₁ n₂ : String) (now : Int) (ops : List (AgentOp μ)) : Prop :=
  answersTo env n₂ ops now ops = answersTo env n₂ ops now (without n₁ ops)

/-- The full run and the run without some operations, before the operations left. -/
structure SameView (n : String) (all rest : List (AgentOp μ)) (s t : AgentStores μ) : Prop where
  memory : s.memory.view n = t.memory.view n
  leases : s.leases.view n = t.leases.view n
  sKeyed : s.memory.RowsKeyed
  tKeyed : t.memory.RowsKeyed
  sLeases : LeasesOk all rest s.leases
  tLeases : LeasesOk all rest t.leases
  restOk : RestOk all rest

variable {s t : AgentStores μ}

theorem SameView.new (h : FreshIds ops) (now : Int) :
    SameView n ops ops (.new now) (.new now) := by
  have hleases : LeasesOk ops ops (InMemoryLeaseStore.new now) :=
    { keyed := fun _ _ hk => nomatch hk
      back := fun _ _ _ hlease => nomatch hlease
      unused := fun _ _ => ⟨rfl, fun _ _ hlease => nomatch hlease⟩ }
  exact {
    memory := rfl
    leases := rfl
    sKeyed := fun _ _ hrow => nomatch hrow
    tKeyed := fun _ _ hrow => nomatch hrow
    sLeases := hleases
    tLeases := hleases
    restOk := restOk_all h }

theorem memory_sameView {a b : InMemoryMemoryStore μ} (h : a.view n = b.view n)
    (op : MemoryOp μ) : (a.apply env op).1.view n = (b.apply env op).1.view n := by
  cases hin : InMemoryMemoryStore.inside n op with
  | true =>
    rw [apply_commutes hin, apply_commutes hin, h]
  | false => rw [apply_unseen hin, apply_unseen hin, h]

section

variable (h : SameView n all (o :: rest) s t)
include h

/-- An operation both runs take. -/
theorem SameView.kept :
    SameView n all rest ((agentStores env).next s o) ((agentStores env).next t o) := by
  cases o with
  | advance ms =>
    exact {
      memory := congrArg (fun a : InMemoryMemoryStore μ => { a with now := a.now + ms }) h.memory
      leases := congrArg (fun a : InMemoryLeaseStore => { a with now := a.now + ms }) h.leases
      sKeyed := h.sKeyed.of_threads rfl
      tKeyed := h.tKeyed.of_threads rfl
      sLeases := h.sLeases.skip rfl rfl
      tLeases := h.tLeases.skip rfl rfl
      restOk := h.restOk.tail }
  | memory op =>
    exact {
      memory := memory_sameView h.memory op
      leases := h.leases
      sKeyed := h.sKeyed.apply op
      tKeyed := h.tKeyed.apply op
      sLeases := h.sLeases.skip rfl rfl
      tLeases := h.tLeases.skip rfl rfl
      restOk := h.restOk.tail }
  | lease op =>
    exact {
      memory := h.memory
      leases := lease_sameView h.sLeases h.tLeases h.leases
      sKeyed := h.sKeyed
      tKeyed := h.tKeyed
      sLeases := h.sLeases.apply h.restOk
      tLeases := h.tLeases.apply h.restOk
      restOk := h.restOk.tail }

theorem SameView.removed
    (ho : o.namespaceId all = some n') (hne : n' ≠ n) (happart : KeysApart n' n) :
    SameView n all rest ((agentStores env).next s o) t := by
  cases o with
  | advance ms => exact nomatch ho
  | memory op =>
    have hout : InMemoryMemoryStore.inside n op = false :=
      inside_of_keysApart (Option.some.inj ho) hne happart
    exact {
      memory := (apply_unseen hout s.memory).trans h.memory
      leases := h.leases
      sKeyed := h.sKeyed.apply op
      tKeyed := h.tKeyed
      sLeases := h.sLeases.skip rfl rfl
      tLeases := h.tLeases.skip rfl rfl
      restOk := h.restOk.tail }
  | lease op =>
    exact {
      memory := h.memory
      leases := (lease_unseen h.sLeases ho hne happart).trans h.leases
      sKeyed := h.sKeyed
      tKeyed := h.tKeyed
      sLeases := h.sLeases.apply h.restOk
      tLeases := h.tLeases.skip rfl rfl
      restOk := h.restOk.tail }

theorem SameView.answer (ho : o.namespaceId all = some n) :
    (agentStores env).out s o = (agentStores env).out t o := by
  cases o with
  | advance ms => exact nomatch ho
  | memory op =>
    have hin : InMemoryMemoryStore.inside n op = true :=
      inside_of_namespaceId (Option.some.inj ho)
    have hs : (s.memory.apply env op).2 = ((s.memory.view n).apply env op).2 :=
      apply_answer hin s.memory h.sKeyed
    have ht : (t.memory.apply env op).2 = ((t.memory.view n).apply env op).2 :=
      apply_answer hin t.memory h.tKeyed
    rw [← h.memory] at ht
    exact congrArg AgentAnswer.memory (hs.trans ht.symm)
  | lease op =>
    have hs := lease_answer h.sLeases ho
    have ht := lease_answer h.tLeases ho
    rw [← h.leases] at ht
    exact congrArg AgentAnswer.lease (hs.trans ht.symm)

end

theorem isolated_of_keysApart {n₁ n₂ : String} (hne : n₁ ≠ n₂) (happart : KeysApart n₁ n₂)
    (now : Int) (hfresh : FreshIds ops) :
    Isolated env n₁ n₂ now ops := by
  apply Machine.trace_purge (R := SameView n₂ ops) _ _ _ _ (SameView.new hfresh now)
  · intro o os s t h _
    by_cases ho : o.namespaceId ops = some n₂
    · have hanswer : (agentStores env).out s o = (agentStores env).out t o := h.answer ho
      simp only [ho, ↓reduceIte, hanswer]
    · simp only [ho, ↓reduceIte]
  · intro o os s t _ ho
    have hn₁ : o.namespaceId ops = some n₁ := by simpa using ho
    have hother : o.namespaceId ops ≠ some n₂ := by
      rw [hn₁]
      simpa using hne
    simp only [hother, ↓reduceIte]
  · exact fun o os s t h _ => h.kept
  · intro o os s t h ho
    exact h.removed (by simpa using ho) hne happart

/-! ## Shared keys -/

/-- The one namespace makes a thread, the other looks its own up. -/
def createdAndRead (n₁ t₁ n₂ t₂ : String) : List (AgentOp μ) :=
  [.memory (.createThread { namespaceId := n₁, threadId := t₁ } {}),
    .memory (.getThread { namespaceId := n₂, threadId := t₂ })]

theorem not_isolated_of_sharedKey (env : MemoryEnv μ ρ) {n₁ n₂ : String} (hne : n₁ ≠ n₂)
    {t₁ t₂ : String} (hkey : joinKey n₁ t₁ = joinKey n₂ t₂) (now : Int) :
    ¬ Isolated env n₁ n₂ now (createdAndRead n₁ t₁ n₂ t₂) := by
  have hwithout : without n₁ (createdAndRead (μ := μ) n₁ t₁ n₂ t₂) =
      [.memory (.getThread { namespaceId := n₂, threadId := t₂ })] := by
    simp [without, createdAndRead, namespaceId, MemoryOp.namespaceId, hne.symm]
  intro h
  rw [Isolated, hwithout] at h
  simp [answersTo, createdAndRead, Machine.trace, Machine.out, Machine.next, agentStores,
    namespaceId, MemoryOp.namespaceId, hne, AgentStores.new, InMemoryMemoryStore.new,
    InMemoryMemoryStore.apply, InMemoryMemoryStore.createThread, InMemoryMemoryStore.getThread,
    ThreadKey.threadK, hkey, JsMap.has] at h

theorem sharedKey_of_prefix {n : String} (h : (n ++ "|").toList <+: n'.toList) :
    ∃ t t', joinKey n t = joinKey n' t' := by
  obtain ⟨rest, hrest⟩ := h
  exists String.ofList rest ++ "|", ""
  apply String.toList_inj.mp
  rw [joinKey_toList, joinKey_toList, ← hrest]
  simp

/-- Whatever two namespaces do, the one's operations change no answer given to the other,
    exactly when no key of one is a key of the other. -/
theorem namespaces_isolated (env : MemoryEnv μ ρ) (n₁ n₂ : String) (hne : n₁ ≠ n₂) :
    (∀ now ops, FreshIds ops → Isolated env n₁ n₂ now ops) ↔ KeysApart n₁ n₂ := by
  constructor
  · intro h
    have hkeys : ∀ t₁ t₂, joinKey n₁ t₁ ≠ joinKey n₂ t₂ := by
      intro t₁ t₂ hkey
      have hfresh : FreshIds (createdAndRead (μ := μ) n₁ t₁ n₂ t₂) := nodup_nil
      exact not_isolated_of_sharedKey env hne hkey 0 (h 0 _ hfresh)
    constructor
    · intro hprefix
      obtain ⟨t₁, t₂, hkey⟩ := sharedKey_of_prefix hprefix
      exact hkeys t₁ t₂ hkey
    · intro hprefix
      obtain ⟨t₂, t₁, hkey⟩ := sharedKey_of_prefix hprefix
      exact hkeys t₁ t₂ hkey.symm
  · intro happart now ops hfresh
    exact isolated_of_keysApart hne happart now hfresh

/-- String functions that do nothing, and contexts of no content. -/
def plainEnv : MemoryEnv String Unit where
  trim := id
  toLowerCase := id
  parseThreadCursor _ := none
  resolveContext _ := ()

theorem namespaces_isolated_acme_globex :
    KeysApart "acme" "globex" ∧ ((∀ now ops, FreshIds ops →
      Isolated plainEnv "acme" "globex" now ops) ↔ KeysApart "acme" "globex") :=
  ⟨by decide, namespaces_isolated plainEnv "acme" "globex" (by decide)⟩

/-- Namespace `acme` makes the thread `eu|7`, and namespace `acme|eu` finds it as its
    thread `7`. -/
theorem joined_key_counterexample :
    "acme" ≠ "acme|eu" ∧
      ¬ Isolated plainEnv "acme" "acme|eu" 0 (createdAndRead "acme" "eu|7" "acme|eu" "7") :=
  ⟨by decide, not_isolated_of_sharedKey plainEnv (by decide) (by decide) 0⟩

end Promin.Agent
