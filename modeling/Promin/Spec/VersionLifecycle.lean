import Promin.Durable.WorkflowVersionRegistry

/-!
# The lifecycle of workflow versions

At most one version of a name is active and the latest version is a registered
one, whatever is called.
-/

namespace Promin.Durable

open WorkflowVersionRegistry JsMap Option List Machine VersionCount

variable {δ : Type} {r : WorkflowVersionRegistry δ} {config : WorkflowVersionRegistryConfig}

def ActiveIn (r : WorkflowVersionRegistry δ) (name version : String) : Prop :=
  ∃ e, r.entry name version = some e ∧ e.status = .active

/-- What holds of a registry between any two calls. -/
structure RegistryOk (r : WorkflowVersionRegistry δ) : Prop where
  oneActive : ∀ name v v', ActiveIn r name v → ActiveIn r name v' → v = v'
  /-- While any version is registered, the latest is a registered one. -/
  latest : ∀ name v, (r.entry name v).isSome → ∃ l, r.latest name = some l ∧
    (r.entry name l).isSome

/-! ## Entries after a call -/

theorem entry_set (r : WorkflowVersionRegistry δ) (name : String)
    (versions : JsMap String (VersionEntry δ)) (name' v : String) :
    (({ r with definitions := r.definitions.set name versions } :
      WorkflowVersionRegistry δ).entry name' v) =
        if name = name' then versions.get v else r.entry name' v := by
  unfold entry
  simp only [get_set]
  split <;> rfl

variable {r' : WorkflowVersionRegistry δ}

theorem entry_of_definitions
    (h : r'.definitions = r.definitions) (name v : String) : r'.entry name v = r.entry name v := by
  unfold entry
  rw [h]

theorem isRoutable_eq (r : WorkflowVersionRegistry δ) (name v : String) :
    r.isRoutable name v = true ↔ r.latest name = some v ∨ ActiveIn r name v := by
  unfold isRoutable ActiveIn latest
  rw [Bool.or_eq_true, beq_iff_eq]
  cases r.entry name v with
  | none => simp
  | some e => simp

variable {c : Nat} {name' v version : String}

theorem entry_of_get {name : String} {versions : JsMap String (VersionEntry δ)}
    (h : r.definitions.get name = some versions) : r.entry name v = versions.get v := by
  simp [entry, h]

/-! ### Registering -/

private theorem register_some (r : WorkflowVersionRegistry δ) (definition : δ) (name : String)
    (contentHash : Option String) (hversion : version ≠ "") :
    let r' := (r.register definition name (some version) contentHash).1
    (∀ name' v, r'.entry name' v = if name = name' ∧ version = v then
      some (r.registeredEntry definition contentHash (r.entry name version))
      else r.entry name' v) ∧
    (∀ name', r'.latest name' = if name = name' then some version else r.latest name') ∧
    r'.counting = r.counting := by
  have hfilter : (some version).filter (· ≠ "") = some version := by simp [hversion]
  have hold : ((r.definitions.get name).getD JsMap.empty).get version = r.entry name version := by
    unfold entry
    cases r.definitions.get name with
    | none => rfl
    | some versions => rfl
  simp only [register, hfilter]
  refine ⟨?_, ?_, trivial⟩
  · intro name' v
    unfold entry
    simp only [get_set]
    by_cases hname : name = name'
    · subst hname
      simp only [↓reduceIte, bind_some, get_set, true_and]
      split
      · rw [hold]
        rfl
      · cases r.definitions.get name with
        | none => rfl
        | some versions => rfl
    · simp only [hname, ↓reduceIte, false_and]
  · intro name'
    simp only [latest, get_set]

/-! ### Promoting and rolling back -/

structure MadeActive (r r' : WorkflowVersionRegistry δ) (name version : String) : Prop where
  target : (r.entry name version).isSome
  active : ActiveIn r' name version
  only : RegistryOk r → ∀ v, ActiveIn r' name v → v = version
  registered : ∀ v, (r'.entry name v).isSome = (r.entry name v).isSome
  other : ∀ name', name ≠ name' → ∀ v, r'.entry name' v = r.entry name' v
  latest : r'.latestVersions = r.latestVersions
  counting : r'.counting = r.counting

private theorem promote_cases (r : WorkflowVersionRegistry δ) (name version : String) :
    (r.promote name version).1 = r ∨ MadeActive r (r.promote name version).1 name version ∧
      ∃ record, (r.promote name version).2 = .promoted record := by
  unfold promote
  cases hname : r.definitions.get name with
  | none => exact .inl rfl
  | some versions =>
    simp only
    cases htarget : versions.get version with
    | none => exact .inl rfl
    | some target =>
      simp only
      split
      · exact .inl rfl
      · refine .inr ⟨?_, _, rfl⟩
        have hold : r.entry name version = some target := by rw [entry_of_get hname, htarget]
        constructor
        · rw [hold]
          rfl
        · exact ⟨r.activated target, by rw [entry_set, if_pos rfl, get_set_self], rfl⟩
        · rintro - v ⟨e, he, hstatus⟩
          rw [entry_set, if_pos rfl, get_set] at he
          split at he
          · rename_i hsame
            exact hsame.symm
          · -- The entry was active, and is so no longer.
            rename_i hne
            rw [get_mapValues] at he
            obtain ⟨old, -, rfl⟩ := map_eq_some_iff.mp he
            split at hstatus
            · cases hstatus
            · rename_i hinactive
              exact absurd ⟨Ne.symm hne, hstatus⟩ hinactive
        · intro v
          rw [entry_set, if_pos rfl, get_set]
          split
          · rename_i hv
            subst hv
            rw [hold]
            rfl
          · rw [get_mapValues, isSome_map, entry_of_get hname]
        · intro name' hne v
          rw [entry_set, if_neg hne]
        · rfl
        · rfl

private theorem previousActive_some {versions : JsMap String (VersionEntry δ)}
    {toVersion : String} {e : VersionEntry δ}
    (h : previousActive versions toVersion = some (v, e)) :
    versions.get v = some e ∧ e.status = .active ∧ v ≠ toVersion := by
  have hmem := mem_of_getLast? h
  obtain ⟨hentry, hp⟩ := mem_filter.mp hmem
  simp only [Bool.and_eq_true, beq_iff_eq, bne_iff_ne] at hp
  exact ⟨(mem_entries_iff _ _ _).mp hentry, hp⟩

private theorem rollback_cases (r : WorkflowVersionRegistry δ) (name toVersion : String) :
    (r.rollback name toVersion).1 = r ∨
    MadeActive r (r.rollback name toVersion).1 name toVersion ∧
      ∃ before after, (r.rollback name toVersion).2 = .rolledBack before after := by
  unfold rollback
  cases hname : r.definitions.get name with
  | none => exact .inl rfl
  | some versions =>
    simp only
    cases htarget : versions.get toVersion with
    | none => exact .inl rfl
    | some target =>
      simp only
      cases hprevious : previousActive versions toVersion with
      | none => exact .inl rfl
      | some p =>
        obtain ⟨previousVersion, previous⟩ := p
        obtain ⟨hget, hwas, hne⟩ := previousActive_some hprevious
        refine .inr ⟨?_, _, _, rfl⟩
        have hold : r.entry name toVersion = some target := by rw [entry_of_get hname, htarget]
        have hbefore : r.entry name previousVersion = some previous := by
          rw [entry_of_get hname, hget]
        constructor
        · rw [hold]
          rfl
        · exact ⟨r.activated target, by rw [entry_set, if_pos rfl, get_set_self], rfl⟩
        · -- The one active version is archived, so the target is the only one left.
          rintro hok v ⟨e, he, hstatus⟩
          rw [entry_set, if_pos rfl, get_set, get_set] at he
          split at he
          · rename_i hsame
            exact hsame.symm
          · split at he
            · cases he
              cases hstatus
            · rename_i hother
              exact absurd (hok.oneActive name previousVersion v ⟨previous, hbefore, hwas⟩
                ⟨e, by rw [entry_of_get hname, he], hstatus⟩) hother
        · intro v
          rw [entry_set, if_pos rfl, get_set, get_set]
          split
          · rename_i hv
            subst hv
            rw [hold]
            rfl
          · split
            · rename_i hv
              subst hv
              rw [hbefore]
              rfl
            · rw [entry_of_get hname]
        · intro name' hne' v
          rw [entry_set, if_neg hne']
        · rfl
        · rfl

/-! ### Deregistering -/

private theorem deregisterNow_entry (r : WorkflowVersionRegistry δ)
    (name version name' v : String) :
    (r.deregisterNow name version).entry name' v =
      if name = name' ∧ version = v then none else r.entry name' v := by
  unfold deregisterNow entry
  cases hname : r.definitions.get name with
  | none =>
    simp only
    split
    · rename_i hsame
      rw [← hsame.1, hname]
      rfl
    · rfl
  | some versions =>
    simp only [get_set]
    by_cases hsame : name = name'
    · subst hsame
      simp only [↓reduceIte, bind_some, get_delete, true_and, hname]
    · simp only [hsame, ↓reduceIte, false_and]

private theorem deregisterNow_latest (r : WorkflowVersionRegistry δ) (name version name' : String) :
    (r.latest name' ≠ some version ∨ name ≠ name' →
      (r.deregisterNow name version).latest name' = r.latest name') ∧
    (r.latest name = some version → ∀ v, ((r.deregisterNow name version).entry name v).isSome →
      ∃ l, (r.deregisterNow name version).latest name = some l ∧
        ((r.deregisterNow name version).entry name l).isSome) := by
  constructor
  · intro h
    simp only [deregisterNow, latest]
    split
    · rename_i hlatest
      have hne : name ≠ name' := by
        rintro rfl
        rcases h with h | h
        · exact h hlatest
        · exact h rfl
      split
      · exact get_delete_ne _ hne
      · exact get_set_ne _ _ hne
    · rfl
  · intro hlatest v hv
    have hlatest' : r.latestVersions.get name = some version := hlatest
    simp only [deregisterNow, latest, hlatest', ↓reduceIte]
    cases hname : r.definitions.get name with
    | none =>
      rw [deregisterNow_entry, entry, hname] at hv
      simp at hv
    | some versions =>
      have hentry : ∀ w, (r.deregisterNow name version).entry name w =
          (versions.delete version).get w := by
        intro w
        rw [deregisterNow_entry, get_delete, entry_of_get hname]
        simp only [true_and]
      rw [hentry] at hv
      simp only [get_set_self, map_some, bind_some]
      cases hlast : (versions.delete version).keys.getLast? with
      | none =>
        have hempty := getLast?_eq_none_iff.mp hlast
        have hmem := (mem_keys_iff _ _).mpr hv
        rw [hempty] at hmem
        cases hmem
      | some l =>
        have hl := (mem_keys_iff _ _).mp (mem_of_getLast? hlast)
        refine ⟨l, by simp, ?_⟩
        have hget := hentry l
        simp only [deregisterNow, hlatest', ↓reduceIte, hname, get_set_self, map_some,
          bind_some, hlast] at hget
        rw [hget]
        exact hl

/-! ## At most one active version, and a registered latest one -/

section

variable (h : RegistryOk r)
include h

private theorem RegistryOk.same
    (hdefinitions : r'.definitions = r.definitions)
    (hlatest : r'.latestVersions = r.latestVersions) :
    RegistryOk r' := by
  have hentry := entry_of_definitions hdefinitions
  constructor
  · intro name v v' hv hv'
    simp only [ActiveIn, hentry] at hv hv'
    exact h.oneActive name v v' hv hv'
  · intro name v hv
    rw [hentry] at hv
    obtain ⟨l, hl, hregistered⟩ := h.latest name v hv
    refine ⟨l, ?_, ?_⟩
    · show r'.latestVersions.get name = some l
      rw [hlatest]
      exact hl
    · rwa [hentry]

private theorem register_ok (definition : δ) (name : String) (version contentHash : Option String) :
    RegistryOk (r.register definition name version contentHash).1 := by
  cases hfilter : version.filter (· ≠ "") with
  | none =>
    simp only [register, hfilter]
    exact h
  | some v₀ =>
    obtain ⟨rfl, hne⟩ := filter_eq_some_iff.mp hfilter
    obtain ⟨hentry, hlatest, -⟩ := register_some r definition name contentHash
      (of_decide_eq_true hne)
    -- A registration keeps the status of an old entry, and a new one is inactive.
    have hactive : ∀ name' v,
        ActiveIn (r.register definition name (some v₀) contentHash).1 name' v →
        ActiveIn r name' v := by
      intro name' v ⟨e, he, hstatus⟩
      rw [hentry] at he
      split at he
      · rename_i hsame
        obtain ⟨rfl, rfl⟩ := hsame
        cases hold : r.entry name v₀ with
        | none =>
          rw [hold] at he
          cases he
          exact nomatch hstatus
        | some old =>
          rw [hold] at he
          cases he
          exact ⟨old, hold, hstatus⟩
      · exact ⟨e, he, hstatus⟩
    constructor
    · intro name' v v' hv hv'
      exact h.oneActive name' v v' (hactive _ _ hv) (hactive _ _ hv')
    · intro name' v hv
      rw [hlatest]
      by_cases hsame : name = name'
      · subst hsame
        refine ⟨v₀, if_pos rfl, ?_⟩
        rw [hentry, if_pos ⟨rfl, rfl⟩]
        rfl
      · rw [hentry, if_neg fun hboth => hsame hboth.1] at hv
        obtain ⟨l, hl, hregistered⟩ := h.latest name' v hv
        refine ⟨l, by rw [if_neg hsame, hl], ?_⟩
        rwa [hentry, if_neg fun hboth => hsame hboth.1]

private theorem MadeActive.ok {name : String} (hs : MadeActive r r' name version) :
    RegistryOk r' := by
  have hregistered : ∀ name' v, (r'.entry name' v).isSome = (r.entry name' v).isSome := by
    intro name' v
    by_cases hsame : name = name'
    · subst hsame
      exact hs.registered v
    · rw [hs.other name' hsame]
  constructor
  · intro name' v v' hv hv'
    by_cases hsame : name = name'
    · subst hsame
      rw [hs.only h v hv, hs.only h v' hv']
    · simp only [ActiveIn, hs.other name' hsame] at hv hv'
      exact h.oneActive name' v v' hv hv'
  · intro name' v hv
    rw [hregistered] at hv
    obtain ⟨l, hl, hreg⟩ := h.latest name' v hv
    refine ⟨l, ?_, ?_⟩
    · rw [WorkflowVersionRegistry.latest, hs.latest]
      exact hl
    · rwa [hregistered]

private theorem deregisterNow_ok (name version : String) :
    RegistryOk (r.deregisterNow name version) := by
  have hentry := deregisterNow_entry r name version
  constructor
  · intro name' v v' ⟨e, he, hstatus⟩ ⟨e', he', hstatus'⟩
    rw [hentry] at he he'
    split at he
    · exact nomatch he
    · split at he'
      · exact nomatch he'
      · exact h.oneActive name' v v' ⟨e, he, hstatus⟩ ⟨e', he', hstatus'⟩
  · intro name' v hv
    have hbefore : (r.entry name' v).isSome := by
      rw [hentry] at hv
      split at hv
      · exact nomatch hv
      · exact hv
    obtain ⟨l, hl, hregistered⟩ := h.latest name' v hbefore
    obtain ⟨hkeep, hnew⟩ := deregisterNow_latest r name version name'
    by_cases hgone : name = name' ∧ version = l
    · obtain ⟨rfl, rfl⟩ := hgone
      exact hnew hl v hv
    · refine ⟨l, ?_, ?_⟩
      · rw [hkeep, hl]
        by_cases hname : name = name'
        · exact .inl fun heq => hgone ⟨hname, (Option.some.inj (hl.symm.trans heq)).symm⟩
        · exact .inr hname
      · rw [hentry, if_neg hgone]
        exact hregistered

private theorem drained_ok (name version : String) :
    RegistryOk (r.drained config name version) := by
  unfold drained
  split
  · exact deregisterNow_ok h name version
  · exact h

theorem RegistryOk.next (o : RegistryCall δ) :
    RegistryOk ((workflowVersionRegistry config).next r o) := by
  cases o with
  | advance ms => exact h.same rfl rfl
  | register definition name version contentHash =>
    exact register_ok h definition name version contentHash
  | promote name version =>
    show RegistryOk (r.promote name version).1
    rcases promote_cases r name version with heq | ⟨hs, -⟩
    · rwa [heq]
    · exact hs.ok h
  | rollback name toVersion =>
    show RegistryOk (r.rollback name toVersion).1
    rcases rollback_cases r name toVersion with heq | ⟨hs, -⟩
    · rwa [heq]
    · exact hs.ok h
  | deregister name version => exact deregisterNow_ok h name version
  | countByVersion c name answer =>
    simp only [Machine.next, workflowVersionRegistry, countByVersion]
    split
    · exact h
    · split
      · exact h
      · exact h.same rfl rfl
  | look c =>
    simp only [Machine.next, workflowVersionRegistry, look]
    split
    · exact h
    · split
      · exact h
      · exact h.same rfl rfl
      · rename_i call _ _ version rest _ _
        simp only [lookAt]
        split
        · exact h.same rfl rfl
        · split
          · exact h.same rfl rfl
          · split
            · exact h.same rfl rfl
            · split
              · exact h.same rfl rfl
              · apply drained_ok
                exact h.same rfl rfl
  | hookDone c outcome =>
    simp only [Machine.next, workflowVersionRegistry, hookDone]
    split
    · exact h
    · split
      · exact h
      · exact h.same rfl rfl
      · apply drained_ok
        exact h.same rfl rfl

end

/-! ## Counts -/

def VersionCount.passed (call : VersionCount) (version : String) : Bool :=
  (call.counts version).running == 0 && !call.rest.contains version &&
    call.awaiting != some version

/-- The call makes another version the latest or the active one in place of this one, which
    is then neither. -/
def unroutes (r : WorkflowVersionRegistry δ) (o : RegistryCall δ) (name version : String) : Bool :=
  let isActive := (r.entry name version).any fun e => e.status == .active
  match o with
  | .register _ name' version' _ =>
    name == name' && r.latest name == some version && !isActive &&
      (version'.filter (· ≠ "")).any (· ≠ version)
  | .promote name' version' =>
    name == name' && isActive && r.latest name != some version && version' != version &&
      (r.entry name version').isSome
  | .rollback name' version' =>
    name == name' && isActive && r.latest name != some version && version' != version &&
      (r.entry name version').isSome
  | .advance _ | .deregister _ _ | .countByVersion _ _ _ | .look _ | .hookDone _ _ => false

def skipsDrained (r : WorkflowVersionRegistry δ) (c : Nat) : Bool :=
  match r.counting.get c with
  | none => false
  | some call =>
    match call.awaiting, call.rest with
    | none, version :: _ => (r.entry call.name version).isSome &&
        (call.counts version).running == 0 &&
        r.drainedNotified.contains (drainKey call.name version) && !r.isRoutable call.name version
    | _, _ => false

/-- The steps on which counts keep their word: no hook throws, and with `autoDeregister` no
    version a count has passed loses its place and no count skips a drained version that has
    lost it. -/
def drainsOnce (config : WorkflowVersionRegistryConfig) (r : WorkflowVersionRegistry δ)
    (o : RegistryCall δ) : Bool :=
  (match o with
    | .hookDone _ (.error _) => false
    | _ => true) &&
  (!config.autoDeregister ||
    (r.counting.values.all fun call => (r.versionsOf call.name).all fun version =>
      !(unroutes r o call.name version && call.passed version)) &&
    match o with
    | .look c => !skipsDrained r c
    | _ => true)

def PassedRoutable (r : WorkflowVersionRegistry δ) : Prop :=
  ∀ c call, r.counting.get c = some call → ∀ v, (r.entry call.name v).isSome →
    call.passed v = true → r.isRoutable call.name v = true

theorem mem_versionsOf (r : WorkflowVersionRegistry δ) (name v : String) :
    v ∈ r.versionsOf name ↔ (r.entry name v).isSome := by
  unfold versionsOf entry
  cases r.definitions.get name with
  | none => simp
  | some versions =>
    simp only [map_some, getD_some, bind_some]
    exact mem_keys_iff _ _

variable {o : RegistryCall δ}

private theorem drainsOnce_unroutes (hauto : config.autoDeregister = true)
    (h : drainsOnce config r o = true) {call : VersionCount}
    (hcall : r.counting.get c = some call) (hv : (r.entry call.name v).isSome)
    (hpassed : call.passed v = true) : unroutes r o call.name v = false := by
  simp only [drainsOnce, hauto, Bool.not_true, Bool.false_or, Bool.and_eq_true,
    List.all_eq_true] at h
  have hmem : call ∈ r.counting.values := (mem_values_iff _ _).mpr ⟨c, hcall⟩
  have hnot := h.2.1 call hmem v ((mem_versionsOf _ _ _).mpr hv)
  simpa [hpassed] using hnot

private theorem drainsOnce_look (hauto : config.autoDeregister = true)
    (h : drainsOnce config r (.look c) = true) : skipsDrained r c = false := by
  simp only [drainsOnce, hauto, Bool.not_true, Bool.false_or, Bool.and_eq_true] at h
  simpa using h.2.2

private theorem isActive_iff (r : WorkflowVersionRegistry δ) (name v : String) :
    ((r.entry name v).any fun e => e.status == .active) = true ↔ ActiveIn r name v := by
  unfold ActiveIn
  cases r.entry name v with
  | none => simp
  | some e => simp

/-! ### What a call leaves of the routed versions

A version that is routed to when the call comes, unless it is not registered, and that the
call does not take the place of, is routed to afterwards. -/

private theorem register_routable (definition : δ) (name : String)
    (version contentHash : Option String)
    (hv : ((r.register definition name version contentHash).1.entry name' v).isSome)
    (hbefore : (r.entry name' v).isSome → r.isRoutable name' v = true)
    (hkeeps : (r.entry name' v).isSome →
      unroutes r (.register definition name version contentHash) name' v = false) :
    (r.register definition name version contentHash).1.isRoutable name' v = true := by
  cases hfilter : version.filter (· ≠ "") with
  | none =>
    simp only [register, hfilter] at hv ⊢
    exact hbefore hv
  | some v₀ =>
    obtain ⟨rfl, hne⟩ := filter_eq_some_iff.mp hfilter
    obtain ⟨hentry, hlatest, -⟩ := register_some r definition name contentHash
      (of_decide_eq_true hne)
    rw [isRoutable_eq, hlatest]
    by_cases hself : name = name' ∧ v₀ = v
    · obtain ⟨rfl, rfl⟩ := hself
      exact .inl (if_pos rfl)
    · rw [hentry, if_neg hself] at hv
      have hactive : ActiveIn r name' v →
          ActiveIn (r.register definition name (some v₀) contentHash).1 name' v := by
        rintro ⟨e, he, hstatus⟩
        exact ⟨e, by rw [hentry, if_neg hself, he], hstatus⟩
      rcases (isRoutable_eq r name' v).mp (hbefore hv) with hl | ha
      · by_cases hname : name = name'
        · -- The version loses its place as the latest one, so it is active as well.
          subst hname
          have hv₀ : v₀ ≠ v := fun heq => hself ⟨rfl, heq⟩
          have hlost := hkeeps hv
          simp only [unroutes, beq_self_eq_true, hl, Bool.true_and, hfilter, any_some, hv₀,
            ne_eq, not_false_eq_true, decide_true, Bool.and_true, Bool.not_eq_false'] at hlost
          exact .inr (hactive ((isActive_iff _ _ _).mp hlost))
        · exact .inl (by rw [if_neg hname, hl])
      · exact .inr (hactive ha)

private theorem MadeActive.routable {name : String} (hs : MadeActive r r' name version)
    (hv : (r'.entry name' v).isSome)
    (hbefore : (r.entry name' v).isSome → r.isRoutable name' v = true)
    (hkeeps : (r.entry name' v).isSome → unroutes r (.promote name version) name' v = false) :
    r'.isRoutable name' v = true := by
  rw [isRoutable_eq, WorkflowVersionRegistry.latest, hs.latest]
  by_cases hname : name = name'
  · subst hname
    by_cases hversion : version = v
    · exact .inr (hversion ▸ hs.active)
    · rw [hs.registered] at hv
      rcases (isRoutable_eq r name v).mp (hbefore hv) with hl | ha
      · exact .inl hl
      · have hlost := hkeeps hv
        have hactive := (isActive_iff _ _ _).mpr ha
        simp only [unroutes, beq_self_eq_true, Bool.true_and, hactive, hs.target,
          Bool.and_true, Bool.and_eq_false_iff, bne_eq_false_iff_eq, hversion, or_false] at hlost
        exact .inl hlost
  · rw [hs.other name' hname] at hv
    rcases (isRoutable_eq r name' v).mp (hbefore hv) with hl | ⟨e, he, hstatus⟩
    · exact .inl hl
    · exact .inr ⟨e, by rw [hs.other name' hname, he], hstatus⟩

def Spared (r r' : WorkflowVersionRegistry δ) : Prop :=
  ∀ name v, (r'.entry name v).isSome →
    (r.entry name v).isSome ∧ (r.isRoutable name v = true → r'.isRoutable name v = true)

theorem Spared.of_same (hdefinitions : r'.definitions = r.definitions)
    (hlatest : r'.latestVersions = r.latestVersions) : Spared r r' := by
  intro name v hv
  rw [entry_of_definitions hdefinitions] at hv
  refine ⟨hv, fun hroutable => ?_⟩
  rw [isRoutable, hlatest, entry_of_definitions hdefinitions]
  exact hroutable

theorem Spared.trans {r' r'' : WorkflowVersionRegistry δ} (h : Spared r r') (h' : Spared r' r'') :
    Spared r r'' := by
  intro name v hv
  obtain ⟨hv', hkeep'⟩ := h' name v hv
  obtain ⟨hv₀, hkeep⟩ := h name v hv'
  exact ⟨hv₀, fun hroutable => hkeep' (hkeep hroutable)⟩

private theorem deregisterNow_spared (r : WorkflowVersionRegistry δ) (name version : String) :
    Spared r (r.deregisterNow name version) := by
  intro name' v hv
  have hentry := deregisterNow_entry r name version
  have hne : ¬ (name = name' ∧ version = v) := by
    intro hself
    rw [hentry, if_pos hself] at hv
    exact nomatch hv
  rw [hentry, if_neg hne] at hv
  refine ⟨hv, fun hroutable => (isRoutable_eq _ _ _).mpr ?_⟩
  rcases (isRoutable_eq r name' v).mp hroutable with hl | ⟨e, he, hstatus⟩
  · left
    rw [(deregisterNow_latest r name version name').1, hl]
    -- The version that goes is another one, or one of another name.
    by_cases hname : name = name'
    · exact .inl fun heq => hne ⟨hname, Option.some.inj (heq.symm.trans hl)⟩
    · exact .inr hname
  · exact .inr ⟨e, by rw [hentry, if_neg hne, he], hstatus⟩

private theorem drained_spared (r : WorkflowVersionRegistry δ) (name version : String) :
    Spared r (r.drained config name version) := by
  unfold drained
  split
  · exact deregisterNow_spared r name version
  · exact .of_same rfl rfl

@[simp] theorem drained_counting (r : WorkflowVersionRegistry δ) (name version : String) :
    (r.drained config name version).counting = r.counting := by
  unfold drained
  split <;> rfl

private theorem drained_routable (hauto : config.autoDeregister = true) {name : String}
    (hv : ((r.drained config name version).entry name version).isSome) :
    (r.drained config name version).isRoutable name version = true := by
  unfold drained at hv ⊢
  rw [hauto, Bool.true_and] at hv ⊢
  cases hroutable : r.isRoutable name version with
  | true => simpa using hroutable
  | false =>
    simp only [hroutable, Bool.not_false, ↓reduceIte] at hv
    rw [deregisterNow_entry, if_pos ⟨rfl, rfl⟩] at hv
    exact nomatch hv

/-! ### Passed versions stay routed to -/

private theorem PassedRoutable.count (h : PassedRoutable r)
    (hspared : Spared r r') {call : VersionCount} (hcounting : r'.counting = r.counting.set c call)
    (hnew : ∀ v, (r.entry call.name v).isSome → (r'.entry call.name v).isSome →
      call.passed v = true → r.isRoutable call.name v = true ∨ r'.isRoutable call.name v = true) :
    PassedRoutable r' := by
  intro c' call' hcall' v hv hpassed
  obtain ⟨hv', hkeep⟩ := hspared call'.name v hv
  rw [hcounting, get_set] at hcall'
  split at hcall'
  · cases hcall'
    rcases hnew v hv' hv hpassed with hbefore | hafter
    · exact hkeep hbefore
    · exact hafter
  · exact hkeep (h c' call' hcall' v hv' hpassed)

private theorem PassedRoutable.call (h : PassedRoutable r) (hauto : config.autoDeregister = true)
    (hdrains : drainsOnce config r o = true) (hcounting : r'.counting = r.counting)
    (hroutable : ∀ name v, (r'.entry name v).isSome →
      ((r.entry name v).isSome → r.isRoutable name v = true) →
      ((r.entry name v).isSome → unroutes r o name v = false) → r'.isRoutable name v = true) :
    PassedRoutable r' := by
  intro c call hcall v hv hpassed
  rw [hcounting] at hcall
  apply hroutable call.name v hv
  · intro hv'
    exact h c call hcall v hv' hpassed
  · intro hv'
    exact drainsOnce_unroutes hauto hdrains hcall hv' hpassed

private theorem passed_next {call : VersionCount} {rest : List String}
    (hawaiting : call.awaiting = none) (hrest : call.rest = version :: rest)
    {awaiting : Option String} (hne : v ≠ version)
    (hpassed : ({ call with rest := rest, awaiting := awaiting } : VersionCount).passed v = true) :
    call.passed v = true := by
  simp only [passed, counts, hawaiting, hrest, Bool.and_eq_true,
    beq_iff_eq, Bool.not_eq_true', contains_eq_mem, decide_eq_false_iff_not, bne_iff_ne,
    mem_cons, not_or] at hpassed ⊢
  obtain ⟨⟨hcounts, hnot⟩, -⟩ := hpassed
  exact ⟨⟨hcounts, hne, hnot⟩, by simp⟩

section

variable (h : PassedRoutable r)
include h

private theorem lookAt_passed (hauto : config.autoDeregister = true)
    {call : VersionCount} {rest : List String}
    (hcall : r.counting.get c = some call) (hawaiting : call.awaiting = none)
    (hrest : call.rest = version :: rest) (hskips : skipsDrained r c = false) :
    PassedRoutable (r.lookAt config c call version rest) := by
  have hpast : ∀ v (awaiting : Option String), v ≠ version → (r.entry call.name v).isSome →
      ({ call with rest := rest, awaiting := awaiting } : VersionCount).passed v = true →
      r.isRoutable call.name v = true := by
    intro v awaiting hne hv hpassed
    exact h c call hcall v hv (passed_next hawaiting hrest hne hpassed)
  simp only [lookAt]
  split
  · -- It is gone already.
    rename_i hnone
    refine h.count (.of_same rfl rfl) rfl ?_
    intro v hv _ hpassed
    refine .inl (hpast v call.awaiting ?_ hv hpassed)
    rintro rfl
    rw [isNone_iff_eq_none.mp hnone] at hv
    exact nomatch hv
  · split
    · -- It has runs in flight.
      rename_i hrunning
      refine h.count (.of_same rfl rfl) rfl ?_
      intro v hv _ hpassed
      refine .inl (hpast v call.awaiting ?_ hv hpassed)
      rintro rfl
      simp only [passed, counts, Bool.and_eq_true, beq_iff_eq] at hpassed
      have hzero := hpassed.1.1
      unfold counts at hrunning
      omega
    · rename_i hidle
      split
      · -- Its drain was notified before: it is still to be spared.
        rename_i hmarked
        refine h.count (.of_same rfl rfl) rfl ?_
        intro v hv _ hpassed
        by_cases hne : v = version
        · subst hne
          have hzero : (call.counts v).running = 0 := by omega
          have hsome : (r.entry call.name v).isSome = true := hv
          simp only [skipsDrained, hcall, hawaiting, hrest, hsome, hzero, beq_self_eq_true,
            hmarked, Bool.true_and, Bool.not_eq_false'] at hskips
          exact .inl hskips
        · exact .inl (hpast v call.awaiting hne hv hpassed)
      · split
        · -- It waits for the hook.
          refine h.count (.of_same rfl rfl) rfl ?_
          intro v hv _ hpassed
          refine .inl (hpast v (some version) ?_ hv hpassed)
          rintro rfl
          simp [passed] at hpassed
        · refine h.count ((Spared.of_same rfl rfl).trans (drained_spared _ _ _))
            (drained_counting _ _ _) ?_
          intro v hv hv' hpassed
          by_cases hne : v = version
          · subst hne
            exact .inr (drained_routable hauto hv')
          · exact .inl (hpast v call.awaiting hne hv hpassed)

private theorem hookDone_passed (hauto : config.autoDeregister = true)
    {call : VersionCount} (hcall : r.counting.get c = some call)
    (hawaiting : call.awaiting = some version) :
    PassedRoutable
      ((r.setCount c { call with awaiting := none }).drained config call.name version) := by
  refine h.count ((Spared.of_same rfl rfl).trans (drained_spared _ _ _)) (drained_counting _ _ _) ?_
  intro v hv hv' hpassed
  by_cases hne : v = version
  · subst hne
    exact .inr (drained_routable hauto hv')
  · refine .inl (h c call hcall v hv ?_)
    simp only [passed, counts, hawaiting, Bool.and_eq_true, bne_iff_ne,
      ne_eq, Option.some.injEq] at hpassed ⊢
    exact ⟨hpassed.1, fun heq => hne heq.symm⟩

private theorem PassedRoutable.delete
    (hdefinitions : r'.definitions = r.definitions) (hlatest : r'.latestVersions = r.latestVersions)
    (hcounting : ∀ c call, r'.counting.get c = some call → r.counting.get c = some call) :
    PassedRoutable r' := by
  intro c call hcall v hv hpassed
  obtain ⟨hv', hkeep⟩ := Spared.of_same hdefinitions hlatest call.name v hv
  exact hkeep (h c call (hcounting c call hcall) v hv' hpassed)

private theorem endCount_passed (c : Nat) :
    PassedRoutable (r.endCount c) := by
  refine h.delete rfl rfl ?_
  intro c' call hcall
  simp only [endCount, get_delete] at hcall
  split at hcall
  · cases hcall
  · exact hcall

private theorem PassedRoutable.next (hauto : config.autoDeregister = true)
    (hdrains : drainsOnce config r o = true) :
    PassedRoutable ((workflowVersionRegistry config).next r o) := by
  cases o with
  | advance ms => exact h.delete rfl rfl fun _ _ hcall => hcall
  | register definition name version contentHash =>
    apply h.call hauto hdrains
    · show (r.register definition name version contentHash).1.counting = r.counting
      unfold register
      split <;> rfl
    · intro name' v
      exact register_routable definition name version contentHash
  | promote name version =>
    rcases promote_cases r name version with heq | ⟨hs, -⟩
    · show PassedRoutable (r.promote name version).1
      rwa [heq]
    · exact h.call hauto hdrains hs.counting fun _ _ => hs.routable
  | rollback name version =>
    rcases rollback_cases r name version with heq | ⟨hs, -⟩
    · show PassedRoutable (r.rollback name version).1
      rwa [heq]
    · exact h.call hauto hdrains hs.counting fun _ _ => hs.routable
  | deregister name version =>
    intro c call hcall v hv hpassed
    obtain ⟨hv', hkeep⟩ := deregisterNow_spared r name version call.name v hv
    exact hkeep (h c call hcall v hv' hpassed)
  | countByVersion c name answer =>
    simp only [Machine.next, workflowVersionRegistry, countByVersion]
    split
    · exact h
    · split
      · exact h
      · -- A new count has passed no registered version.
        refine h.count (.of_same rfl rfl) rfl ?_
        intro v hv _ hpassed
        simp only [passed, Bool.and_eq_true, Bool.not_eq_true',
          contains_eq_mem, decide_eq_false_iff_not] at hpassed
        exact absurd ((mem_versionsOf r name v).mpr hv) hpassed.1.2
  | look c =>
    have hskips := drainsOnce_look hauto hdrains
    simp only [Machine.next, workflowVersionRegistry, look]
    split
    · exact h
    · rename_i call hcall
      split
      · exact h
      · exact endCount_passed h c
      · rename_i hawaiting hrest
        exact lookAt_passed h hauto hcall hawaiting hrest hskips
  | hookDone c outcome =>
    simp only [Machine.next, workflowVersionRegistry, hookDone]
    split
    · exact h
    · rename_i call hcall
      split
      · exact h
      · exact endCount_passed h c
      · rename_i hawaiting
        exact hookDone_passed h hauto hcall hawaiting

end

/-- What the calls promise: one that throws changes nothing, and a count that ends leaves, with
    `autoDeregister`, no version without runs in flight but the latest and the active one. -/
def KeepsWord (config : WorkflowVersionRegistryConfig) (r : WorkflowVersionRegistry δ)
    (o : RegistryCall δ) : Prop :=
  let r' := (workflowVersionRegistry config).next r o
  (∀ message, (workflowVersionRegistry config).out r o = .threw message → r' = r) ∧
  (config.autoDeregister = true → ∀ c call result, o = .look c → r.counting.get c = some call →
    (workflowVersionRegistry config).out r o = .counted result →
    ∀ v, (r'.entry call.name v).isSome → (call.counts v).running = 0 →
      r'.latest call.name = some v ∨ ActiveIn r' call.name v)

private theorem threw_next (hdrains : drainsOnce config r o = true)
    {message : String} (h : (workflowVersionRegistry config).out r o = .threw message) :
    (workflowVersionRegistry config).next r o = r := by
  cases o with
  | advance ms => cases h
  | register definition name version contentHash =>
    simp only [Machine.out, Machine.next, workflowVersionRegistry, register] at h ⊢
    split at h
    · rfl
    · cases h
  | promote name version =>
    rcases promote_cases r name version with heq | ⟨-, _, hout⟩
    · exact heq
    · have hthrew : (r.promote name version).2 = .threw message := h
      rw [hout] at hthrew
      cases hthrew
  | rollback name version =>
    rcases rollback_cases r name version with heq | ⟨-, _, _, hout⟩
    · exact heq
    · have hthrew : (r.rollback name version).2 = .threw message := h
      rw [hout] at hthrew
      cases hthrew
  | deregister name version => cases h
  | countByVersion c name answer =>
    simp only [Machine.out, Machine.next, workflowVersionRegistry, countByVersion] at h ⊢
    split at h
    · rfl
    · split at h
      · cases h
      · cases h
  | look c =>
    simp only [out, workflowVersionRegistry, look] at h
    split at h
    · cases h
    · split at h <;> cases h
  | hookDone c outcome =>
    cases outcome with
    | error message => simp [drainsOnce] at hdrains
    | ok u =>
      simp only [out, workflowVersionRegistry, hookDone] at h
      split at h
      · cases h
      · split at h
        · cases h
        · rename_i heq
          cases heq
        · cases h

private theorem counted_routable (h : config.autoDeregister = true → PassedRoutable r) (c : Nat)
    (hauto : config.autoDeregister = true) {call : VersionCount}
    {result : List (String × VersionRunCounts)} (hcall : r.counting.get c = some call)
    (hout : (workflowVersionRegistry config).out r (.look c) = .counted result)
    (hv : (((workflowVersionRegistry config).next r (.look c)).entry call.name v).isSome)
    (hzero : (call.counts v).running = 0) :
    ((workflowVersionRegistry config).next r (.look c)).latest call.name = some v ∨
      ActiveIn ((workflowVersionRegistry config).next r (.look c)) call.name v := by
  simp only [Machine.out, Machine.next, workflowVersionRegistry, look, hcall] at hout hv ⊢
  cases hawaiting : call.awaiting with
  | some version =>
    simp only [hawaiting] at hout
    cases hout
  | none =>
    cases hrest : call.rest with
    | cons version rest =>
      simp only [hawaiting, hrest] at hout
      cases hout
    | nil =>
      simp only [hawaiting, hrest] at hv ⊢
      have hpassed : call.passed v = true := by
        simp [passed, hzero, hrest, hawaiting]
      exact (isRoutable_eq r call.name v).mp (h hauto c call hcall v hv hpassed)

/-- In a run whose counts skip no version that has lost its place, pass none that loses it
    before they end, and have no hook that throws, every name has at most one active version
    and a registered latest one, a call that throws changes nothing, and a count with
    `autoDeregister` leaves no drained version but the latest and the active one. -/
theorem versions_drain_once (config : WorkflowVersionRegistryConfig) (now : Int)
    (ops : List (RegistryCall δ))
    (h : (workflowVersionRegistry config).Always (fun r o => drainsOnce config r o = true)
      (.new now) ops) :
    RegistryOk ((workflowVersionRegistry config).run (.new now) ops) ∧
    (workflowVersionRegistry config).Always (KeepsWord config) (.new now) ops := by
  have hfresh : RegistryOk (.new now : WorkflowVersionRegistry δ) := by
    constructor
    · rintro name v v' ⟨e, he, -⟩
      exact nomatch he
    · intro name v hv
      exact nomatch hv
  constructor
  · exact run_induction (fun s o hs => hs.next o) ops hfresh
  · -- The steps meet the condition and start in states that passed versions are routed in.
    have hnone : config.autoDeregister = true →
        PassedRoutable (.new now : WorkflowVersionRegistry δ) := fun _ _ _ hcall => nomatch hcall
    refine always_of_invariant_always
      (I := fun r => config.autoDeregister = true → PassedRoutable r) ?_ ?_ hnone h
    · exact fun r o hdrains hr hauto => (hr hauto).next hauto hdrains
    · intro r o hdrains hr
      constructor
      · exact fun _ hout => threw_next hdrains hout
      · rintro hauto c call result rfl hcall hout v hv hzero
        exact counted_routable hr c hauto hcall hout hv hzero

private def autoDeregistering : WorkflowVersionRegistryConfig where
  autoDeregister := true

private def idleCount (c versions : Nat) : List (RegistryCall Unit) :=
  .countByVersion c "orders" (.ok fun _ _ => 0) :: replicate (versions + 1) (.look c)

/-- Two versions, a promotion of the later one, and a count that drops the first. -/
theorem versions_drain_once_two :
    let ops := [.register () "orders" (some "1") none, .register () "orders" (some "2") none,
      .promote "orders" "2"] ++ idleCount 0 2
    RegistryOk ((workflowVersionRegistry autoDeregistering).run (.new 0) ops) ∧
    (workflowVersionRegistry autoDeregistering).Always (KeepsWord autoDeregistering) (.new 0) ops :=
  versions_drain_once autoDeregistering 0 _ (by decide +kernel)

/-- A count notifies the drain of the only version and spares it as the latest one.  Once a
    second version is registered, the next count skips the first for its mark. -/
theorem versions_counterexample :
    ¬ ∀ (config : WorkflowVersionRegistryConfig) (now : Int) (ops : List (RegistryCall Unit)),
      RegistryOk ((workflowVersionRegistry config).run (.new now) ops) ∧
      (workflowVersionRegistry config).Always (KeepsWord config) (.new now) ops := by
  intro h
  have hword := (h autoDeregistering 0 ([.register () "orders" (some "1") none] ++ idleCount 0 1 ++
    [.register () "orders" (some "2") none, .countByVersion 1 "orders" (.ok fun _ _ => 0), .look 1,
      .look 1] ++ [.look 1])).2
  rw [always_append] at hword
  have hrouted := hword.2.1.2 rfl 1 ⟨"orders", ["1", "2"], fun _ _ => 0, [], none⟩ _ rfl rfl rfl "1"
    rfl rfl
  rw [← isRoutable_eq] at hrouted
  revert hrouted
  decide +kernel

end Promin.Durable
