import Promin.Shared.JsonText
import Promin.Spec.StorageFrame

/-!
# The index of idempotency keys

The storage keeps one workflow id for each namespace, workflow name and key.
-/

namespace Promin.Durable

open InMemoryWorkflowStorage JsMap Option

/-! ## Index keys -/

private theorem toList_idempotencyIndexKey (ns : Option String) (workflowName key : String) :
    (idempotencyIndexKey ns workflowName key).toList =
      '[' :: ((ns.elim "null" quoted).toList ++
        (',' :: ((quoted workflowName).toList ++ (',' :: ((quoted key).toList ++ [']']))))) := by
  cases ns <;>
    simp [idempotencyIndexKey, stringify, stringifyItems, String.intercalate_cons_cons]

variable {now : Int} {key name : String} {ns : Option String} {wf : MutableWorkflow}

theorem idempotencyIndexKey_inj {ns' : Option String} {name' key' : String}
    (h : idempotencyIndexKey ns name key = idempotencyIndexKey ns' name' key') :
    ns = ns' ∧ name = name' ∧ key = key' := by
  have hlist := congrArg String.toList h
  rw [toList_idempotencyIndexKey, toList_idempotencyIndexKey] at hlist
  have htail := (List.cons.inj hlist).2
  have hscope : ns = ns' ∧
      ',' :: ((quoted name).toList ++ (',' :: ((quoted key).toList ++ [']']))) =
        ',' :: ((quoted name').toList ++ (',' :: ((quoted key').toList ++ [']']))) := by
    cases ns with
    | none =>
      cases ns' with
      | none => exact ⟨rfl, List.append_cancel_left htail⟩
      | some n' => simp [toList_quoted] at htail
    | some n =>
      cases ns' with
      | none => simp [toList_quoted] at htail
      | some n' =>
        obtain ⟨hn, hrest⟩ := quoted_append_inj htail
        exact ⟨congrArg some hn, hrest⟩
  obtain ⟨hns, hrest⟩ := hscope
  obtain ⟨hname, hkeys⟩ := quoted_append_inj (List.cons.inj hrest).2
  obtain ⟨hkey, -⟩ := quoted_append_inj (List.cons.inj hkeys).2
  exact ⟨hns, hname, hkey⟩

/-! ## Claims -/

def HoldsKey (ns : Option String) (workflowName key : String) (now : Int)
    (wf : MutableWorkflow) : Prop :=
  wf.ns = ns ∧ wf.workflowName = workflowName ∧ wf.idempotencyKey = some key ∧
    ∃ expiresAt, wf.idempotencyExpiresAt = some expiresAt ∧ now < expiresAt

/-- A stored run that holds the key. -/
def StoredClaim (s : InMemoryWorkflowStorage) (ns : Option String) (workflowName key : String)
    (now : Int) (x : String) : Prop :=
  ∃ wf, s.workflows.get x = some wf ∧ HoldsKey ns workflowName key now wf

/-- Rows are stored under their ids, and the index finds every claim on a key that is not
empty; it holds nothing for the empty key. -/
structure ClaimsIndexed (s : InMemoryWorkflowStorage) : Prop where
  ids : ∀ x wf, s.workflows.get x = some wf → wf.workflowId = x
  claims : ∀ ns name key x, key ≠ "" → StoredClaim s ns name key s.now x →
    s.idempotencyIndex.get (idempotencyIndexKey ns name key) = some x
  noEmptyKey : ∀ ns name, s.idempotencyIndex.get (idempotencyIndexKey ns name "") = none

theorem HoldsKey.earlier {later : Int} (h : HoldsKey ns name key later wf) (hle : now ≤ later) :
    HoldsKey ns name key now wf := by
  obtain ⟨hns, hname, hkey, t, ht, hlt⟩ := h
  exact ⟨hns, hname, hkey, t, ht, by omega⟩

theorem HoldsKey.of_identity {wf' : MutableWorkflow} (h : HoldsKey ns name key now wf)
    (hsame : identity wf' = identity wf) : HoldsKey ns name key now wf' := by
  simp only [identity, RunIdentity.mk.injEq] at hsame
  obtain ⟨-, hname, -, hns, hkey, hexpires⟩ := hsame
  unfold HoldsKey
  rw [hns, hname, hkey, hexpires]
  exact h

theorem idempotencyClaim_eq_some (s : InMemoryWorkflowStorage) (ns : Option String)
    (name key : String) (now : Int) (wf : MutableWorkflow) :
    s.idempotencyClaim ns name key now = some wf ↔
      (∃ x, s.idempotencyIndex.get (idempotencyIndexKey ns name key) = some x ∧
        s.workflows.get x = some wf) ∧ HoldsKey ns name key now wf := by
  unfold idempotencyClaim HoldsKey
  cases hfound : (s.idempotencyIndex.get (idempotencyIndexKey ns name key)).bind
      s.workflows.get with
  | none =>
    simp only [reduceCtorEq, false_iff, not_and]
    intro hx
    obtain ⟨x, hx, hget⟩ := hx
    simp [hx, hget] at hfound
  | some found =>
    rw [bind_eq_some_iff] at hfound
    obtain ⟨x, hx, hget⟩ := hfound
    simp only [map_eq_some_iff, decide_eq_true_eq, gt_iff_lt,
      ite_none_right_eq_some, Option.some.injEq]
    constructor
    · intro h
      obtain ⟨hheld, rfl⟩ := h
      exact ⟨⟨x, hx, hget⟩, hheld⟩
    · intro h
      obtain ⟨⟨x', hx', hget'⟩, hheld⟩ := h
      rw [hx] at hx'
      cases hx'
      rw [hget] at hget'
      cases hget'
      exact ⟨hheld, rfl⟩

variable {s : InMemoryWorkflowStorage}

/-- A lookup answers what a scan over the rows answers. -/
theorem ClaimsIndexed.find (h : ClaimsIndexed s)
    (ns : Option String) (name key : String) (hnow : s.now ≤ now) (w : String) :
    s.findWorkflowByIdempotencyKey ns name key now = some w ↔
      key ≠ "" ∧ StoredClaim s (s.resolveNamespace ns) name key now w := by
  simp only [findWorkflowByIdempotencyKey, map_eq_some_iff, idempotencyClaim_eq_some]
  constructor
  · intro hfound
    obtain ⟨wf, ⟨⟨x, hx, hget⟩, hheld⟩, rfl⟩ := hfound
    have hkey : key ≠ "" := by
      intro hempty
      rw [hempty, h.noEmptyKey] at hx
      cases hx
    refine ⟨hkey, wf, ?_, hheld⟩
    rw [h.ids x wf hget]
    exact hget
  · intro hstored
    obtain ⟨hkey, wf, hget, hheld⟩ := hstored
    have hx := h.claims _ name key w hkey ⟨wf, hget, hheld.earlier hnow⟩
    exact ⟨wf, ⟨⟨w, hx, hget⟩, hheld⟩, h.ids w wf hget⟩

theorem ClaimsIndexed.unique (h : ClaimsIndexed s) (hnow : s.now ≤ now) (hkey : key ≠ "")
    {x y : String} (hx : StoredClaim s ns name key now x) (hy : StoredClaim s ns name key now y) :
    x = y := by
  have hindexed : ∀ z, StoredClaim s ns name key now z →
      s.idempotencyIndex.get (idempotencyIndexKey ns name key) = some z := by
    intro z hz
    obtain ⟨wf, hget, hheld⟩ := hz
    exact h.claims ns name key z hkey ⟨wf, hget, hheld.earlier hnow⟩
  exact Option.some.inj ((hindexed x hx).symm.trans (hindexed y hy))

/-! ## One lemma per call -/

theorem ClaimsIndexed.of_sameIndexes {s s' : InMemoryWorkflowStorage} (hs : ClaimsIndexed s)
    (h : SameIndexes s s') : ClaimsIndexed s' := by
  obtain ⟨-, hindex, -, hnow, hruns⟩ := h
  have hrow : ∀ x wf', s'.workflows.get x = some wf' →
      ∃ wf, s.workflows.get x = some wf ∧ identity wf = identity wf' := by
    intro x wf' hget
    have heq := hruns x
    rw [hget, map_some, eq_comm, map_eq_some_iff] at heq
    exact heq
  constructor
  · intro x wf' hget
    obtain ⟨wf, hwf, hsame⟩ := hrow x wf' hget
    have hid := congrArg RunIdentity.workflowId hsame
    exact hid.symm.trans (hs.ids x wf hwf)
  · intro ns name key x hkey hstored
    obtain ⟨wf', hget, hheld⟩ := hstored
    obtain ⟨wf, hwf, hsame⟩ := hrow x wf' hget
    rw [hindex]
    exact hs.claims ns name key x hkey ⟨wf, hwf, (hheld.of_identity hsame).earlier hnow⟩
  · intro ns name
    rw [hindex]
    exact hs.noEmptyKey ns name

theorem createRun_claimsIndexed (h : ClaimsIndexed s)
    (p : CreateWorkflowParams) : ClaimsIndexed (s.createRun p).1 := by
  simp only [createRun]
  split
  · exact h
  · rename_i hfree
    rw [or_eq_none_iff] at hfree
    obtain ⟨hclaim, hnone⟩ := hfree
    constructor
    · intro x wf hget
      rw [get_set] at hget
      split at hget
      · rename_i hx
        cases hget
        exact hx
      · exact h.ids x wf hget
    · intro ns name key x hkey hstored
      obtain ⟨wf, hget, hheld⟩ := hstored
      rw [get_set] at hget
      split at hget
      · -- The new run: its claim was indexed with it.
        rename_i hx
        cases hget
        obtain ⟨hns, hname, hnew, -⟩ := hheld
        have hp : p.idempotencyKey = some key := hnew
        have htruthy : truthy p.idempotencyKey = true := by simp [hp, truthy, hkey]
        rw [if_pos htruthy, hp, getD_some]
        show (s.idempotencyIndex.set (idempotencyIndexKey (s.resolveNamespace p.ns) p.workflowName
          key) p.workflowId).get (idempotencyIndexKey ns name key) = _
        rw [← hns, ← hname, ← hx]
        exact get_set_self _ _ _
      · -- An older run: the new one took no key with an unexpired claim.
        have hold := h.claims ns name key x hkey ⟨wf, hget, hheld⟩
        split
        · rename_i htruthy
          rw [if_pos htruthy] at hclaim
          rw [get_set]
          split
          · rename_i heq
            obtain ⟨hns, hname, hkeys⟩ := idempotencyIndexKey_inj heq
            rw [hns, hname, hkeys] at hclaim
            have hfound := (idempotencyClaim_eq_some s ns name key s.now wf).mpr
              ⟨⟨x, hold, hget⟩, hheld⟩
            rw [hclaim] at hfound
            exact nomatch hfound
          · exact hold
        · exact hold
    · intro ns name
      split
      · rename_i htruthy
        rw [get_set]
        split
        · rename_i heq
          have hempty := (idempotencyIndexKey_inj heq).2.2
          cases hp : p.idempotencyKey with
          | none => simp [hp, truthy] at htruthy
          | some key =>
            simp only [hp, getD_some] at hempty
            simp [hp, truthy, hempty] at htruthy
        · exact h.noEmptyKey ns name
      · exact h.noEmptyKey ns name

theorem deleteRun_claimsIndexed (h : ClaimsIndexed s) {id : String}
    (hget : s.workflows.get id = some wf) :
    ClaimsIndexed (s.deleteRun id wf) := by
  have hid := h.ids id wf hget
  -- The index loses at most the entry that names the deleted run.
  have hindex : ∀ k x, s.idempotencyIndex.get k = some x → x ≠ id →
      (s.deleteRun id wf).idempotencyIndex.get k = some x := by
    intro k x hk hx
    simp only [deleteRun, forgetIndexes, hid]
    cases wf.idempotencyKey with
    | none => exact hk
    | some key =>
      simp only
      split
      · rename_i hown
        rw [get_delete]
        split
        · rename_i heq
          rw [heq, hk] at hown
          exact absurd (Option.some.inj hown) hx
        · exact hk
      · exact hk
  have hkept : ∀ k, s.idempotencyIndex.get k = none →
      (s.deleteRun id wf).idempotencyIndex.get k = none := by
    intro k hk
    simp only [deleteRun, forgetIndexes]
    cases wf.idempotencyKey with
    | none => exact hk
    | some key =>
      simp only
      split
      · rw [get_delete, hk]
        split <;> rfl
      · exact hk
  have hrow : ∀ x wf', (s.deleteRun id wf).workflows.get x = some wf' →
      x ≠ id ∧ s.workflows.get x = some wf' := by
    intro x wf' hget'
    have hdel : (s.workflows.delete id).get x = some wf' := hget'
    rw [get_delete] at hdel
    split at hdel
    · cases hdel
    · rename_i hne
      exact ⟨fun heq => hne heq.symm, hdel⟩
  constructor
  · intro x wf' hget'
    exact h.ids x wf' (hrow x wf' hget').2
  · intro ns name key x hkey hstored
    obtain ⟨wf', hget', hheld⟩ := hstored
    obtain ⟨hne, hstored'⟩ := hrow x wf' hget'
    exact hindex _ x (h.claims ns name key x hkey ⟨wf', hstored', hheld⟩) hne
  · intro ns name
    exact hkept _ (h.noEmptyKey ns name)

theorem step_claimsIndexed (o : StorageOp) (h : ClaimsIndexed s) :
    ClaimsIndexed (storage.next s o) := by
  by_cases htree : TreeCall o
  · cases o with
    | createWorkflow p g =>
      show ClaimsIndexed (s.createWorkflow p g).1
      unfold createWorkflow
      simp only
      split
      · split
        · exact h
        · exact fenced_state h (createRun_claimsIndexed h p)
      · exact createRun_claimsIndexed h p
    | purgeCompleted window limit =>
      exact purge_state window limit (fun _ _ _ hs hget _ => deleteRun_claimsIndexed hs hget) h
    | _ => exact htree.elim
  · exact h.of_sameIndexes (step_sameIndexes s htree)

theorem run_claimsIndexed (config : StorageConfig) (ops : List StorageOp) :
    ClaimsIndexed (storage.run (.new config) ops) := by
  apply Machine.run_induction fun s o => step_claimsIndexed o
  constructor
  · intro x wf hget
    simp [InMemoryWorkflowStorage.new] at hget
  · intro ns name key x hkey hstored
    obtain ⟨wf, hget, -⟩ := hstored
    simp [InMemoryWorkflowStorage.new] at hget
  · exact fun _ _ => rfl

/-- In every reachable state a lookup answers what a scan over the rows answers, and a key that
is not empty is claimed by one run at most. -/
theorem idempotencyIndex_scan (config : StorageConfig) (ops : List StorageOp)
    (ns : Option String) (name key : String) (now : Int)
    (hnow : (storage.run (.new config) ops).now ≤ now) :
    (∀ w, (storage.run (.new config) ops).findWorkflowByIdempotencyKey ns name key now = some w ↔
      key ≠ "" ∧ StoredClaim (storage.run (.new config) ops)
        ((storage.run (.new config) ops).resolveNamespace ns) name key now w) ∧
    (key ≠ "" → ∀ scope x y, StoredClaim (storage.run (.new config) ops) scope name key now x →
      StoredClaim (storage.run (.new config) ops) scope name key now y → x = y) := by
  have h := run_claimsIndexed config ops
  exact ⟨h.find ns name key hnow, fun hkey _ _ _ hx hy => h.unique hnow hkey hx hy⟩

def createdWithKey (key : String) : InMemoryWorkflowStorage :=
  storage.run (.new { instanceId := "i" })
    [.createWorkflow { workflowId := "w", workflowName := "flow", input := .null
                       idempotencyKey := some key, idempotencyExpiresAt := some 10 } none]

theorem idempotencyIndex_scan_createdWithKey :
    (createdWithKey "k").findWorkflowByIdempotencyKey none "flow" "k" 5 = some "w" ↔
      "k" ≠ "" ∧ StoredClaim (createdWithKey "k")
        ((createdWithKey "k").resolveNamespace none) "flow" "k" 5 "w" :=
  (idempotencyIndex_scan { instanceId := "i" } _ none "flow" "k" 5 (by decide)).1 "w"

/-- A run created with the empty key holds it, and is not found by it. -/
theorem empty_key_counterexample : ¬ ∀ (config : StorageConfig) (ops : List StorageOp)
    (ns : Option String) (name key : String) (now : Int),
    (storage.run (.new config) ops).now ≤ now → ∀ w,
      ((storage.run (.new config) ops).findWorkflowByIdempotencyKey ns name key now = some w ↔
        StoredClaim (storage.run (.new config) ops)
          ((storage.run (.new config) ops).resolveNamespace ns) name key now w) := by
  intro h
  have hscan := h { instanceId := "i" }
    [.createWorkflow { workflowId := "w", workflowName := "flow", input := .null
                       idempotencyKey := some "", idempotencyExpiresAt := some 10 } none]
    none "flow" "" 5 (by decide) "w"
  have hstored : StoredClaim (createdWithKey "") none "flow" "" 5 "w" :=
    ⟨_, rfl, rfl, rfl, rfl, 10, rfl, by decide⟩
  have hfound : (createdWithKey "").findWorkflowByIdempotencyKey none "flow" "" 5 = some "w" :=
    hscan.mpr hstored
  exact absurd hfound (by decide)

end Promin.Durable
