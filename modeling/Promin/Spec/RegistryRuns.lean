import Promin.Spec.RegistryHeads
import Promin.ForStd.Paging

/-!
# Runs of the versioned registry

Every call writes at most one head, and what it writes is a sound head that
keeps the versions of the one before.
-/

namespace Promin.Agent

open InMemoryVersionedRegistry Paging

open Option hiding map mem_map

open InMemoryVersionedRegistry Machine List JsMap

variable {Filter : Type} (kind : RegistryKind Filter) {sha256 : String → String}

/-! ## One write on the registry -/

def InMemoryVersionedRegistry.headOf (reg : InMemoryVersionedRegistry) (id : String) : Head :=
  (reg.heads.get id).getD .new

def RegistryOk (sha256 : String → String) (reg : InMemoryVersionedRegistry) : Prop :=
  ∀ id head, reg.heads.get id = some head → HeadOk sha256 head

variable {id : String} {head : Head} {reg : InMemoryVersionedRegistry}

theorem RegistryOk.headOf (h : RegistryOk sha256 reg)
    (id : String) : HeadOk sha256 (reg.headOf id) := by
  unfold InMemoryVersionedRegistry.headOf
  cases hget : reg.heads.get id with
  | none => exact headOk_new
  | some head => exact h id head hget

structure HeadWrite (sha256 : String → String) (reg reg' : InMemoryVersionedRegistry)
    (id : String) (head' : Head) : Prop where
  heads : reg'.heads = reg.heads.set id head'
  ok : HeadOk sha256 head'
  kept : (reg.headOf id).Kept head'

theorem HeadWrite.headOf {reg' : InMemoryVersionedRegistry} {head' : Head}
    (h : HeadWrite sha256 reg reg' id head') (other : String) :
    reg'.headOf other = if id = other then head' else reg.headOf other := by
  unfold InMemoryVersionedRegistry.headOf
  rw [h.heads, get_set]
  split <;> rfl

theorem prepareRegister_ok {input : RegisterVersionInput} {prepared : PreparedRegister}
    (h : prepareRegister kind sha256 input = .ok prepared) :
    kind.prepare input.id input.input = .ok prepared.body ∧
      prepared.hash = contentHash sha256 prepared.body := by
  unfold prepareRegister at h
  split at h
  · cases h
  · cases hlabel : (input.version.map assertVersionLabel).getD (.ok ()) with
    | error e =>
      rw [hlabel] at h
      cases h
    | ok u =>
      simp only [hlabel] at h
      cases hprepare : kind.prepare input.id input.input with
      | error message =>
        rw [hprepare] at h
        cases h
      | ok body =>
        rw [hprepare] at h
        cases h
        exact ⟨rfl, rfl⟩

theorem register_cases (hok : RegistryOk sha256 reg) (input : RegisterVersionInput) :
    (∃ e, reg.register kind sha256 input = (reg, .error e)) ∨
      ∃ reg' head' row body,
        reg.register kind sha256 input = (reg', .ok (toEntry input.id head' row)) ∧
        kind.prepare input.id input.input = .ok body ∧
        HeadWrite sha256 reg reg' input.id head' ∧ head'.rows.get row.version = some row ∧
        row.hash = contentHash sha256 body ∧
        (head'.nextSeq = (reg.headOf input.id).nextSeq ∨
          (row.seq = (reg.headOf input.id).nextSeq ∧
            (reg.headOf input.id).rows.get row.version = none ∧
            head'.nextSeq = (reg.headOf input.id).nextSeq + 1)) := by
  unfold register
  cases hprepared : prepareRegister kind sha256 input with
  | error e => exact .inl ⟨e, rfl⟩
  | ok prepared =>
    obtain ⟨hbody, hhash⟩ := prepareRegister_ok kind hprepared
    simp only
    cases hassert : assertActive kind.name input.id (reg.heads.get input.id)
        input.expectedActive with
    | error e => exact .inl ⟨e, rfl⟩
    | ok u =>
      simp only
      cases hnamed : namedRow kind.name ((reg.heads.get input.id).getD .new) input
          prepared.hash with
      | error e => exact .inl ⟨e, rfl⟩
      | ok stored =>
        right
        have hhead := hok.headOf input.id
        obtain ⟨hstored, hnew⟩ := namedRow_spec hhead hnamed
        obtain ⟨head', row, hhead', hrow, hok', hkept, hget, hcase⟩ :=
          store_cases hhead reg.now input prepared (fun row h => (hstored row h).1) hnew hhash
            input.enabled
        have hrowHash : row.hash = prepared.hash := by
          rcases hcase with ⟨old, hold, hsame, -⟩ | ⟨-, hnewRow, -⟩
          · exact hsame.hash.trans (hstored old hold).2
          · rw [hnewRow]
            rfl
        refine ⟨{ reg with heads := reg.heads.set input.id head' }, head', row, prepared.body,
          ?_, hbody, ⟨rfl, hok', hkept⟩, hget, hrowHash.trans hhash, ?_⟩
        · simp only [headOf] at hhead' hrow
          rw [hrow] at hhead'
          simp only [hrow, hhead']
        · rcases hcase with ⟨old, -, -, hseq⟩ | ⟨-, hnewRow, hfree, hseq⟩
          · exact .inl hseq
          · right
            refine ⟨?_, hfree, hseq⟩
            rw [hnewRow]
            rfl

/-- A call that answers an entry: it fails and changes nothing, or writes the head of the
    id and answers one of its versions. -/
def WritesEntry (sha256 : String → String) (reg : InMemoryVersionedRegistry) (id : String)
    (result : InMemoryVersionedRegistry × Except RegistryError Versioned) : Prop :=
  (∃ e, result = (reg, .error e)) ∨
    ∃ reg' head' row, result = (reg', .ok (toEntry id head' row)) ∧
      HeadWrite sha256 reg reg' id head' ∧ head'.rows.get row.version = some row

theorem register_writes (hok : RegistryOk sha256 reg) (input : RegisterVersionInput) :
    WritesEntry sha256 reg input.id (reg.register kind sha256 input) := by
  rcases register_cases kind hok input with
    herror | ⟨reg', head', row, body, heq, -, hwrite, hrow, -⟩
  · exact .inl herror
  · exact .inr ⟨reg', head', row, heq, hwrite, hrow⟩

theorem headOf_of_get (h : reg.heads.get id = some head) : reg.headOf id = head := by
  simp [headOf, h]

private theorem liveRow_ok {version : String} {existing : Option Head} {row : Row}
    (h : liveRow kind id version existing = .ok (head, row)) :
    existing = some head ∧ head.rows.get version = some row ∧ row.removed = false := by
  unfold liveRow at h
  cases existing with
  | none => cases h
  | some found =>
    simp only at h
    cases hget : found.rows.get version with
    | none =>
      rw [hget] at h
      cases h
    | some other =>
      simp only [hget] at h
      split at h
      · cases h
      · rename_i hlive
        cases h
        exact ⟨rfl, hget, by simpa using hlive⟩

section

variable (hok : RegistryOk sha256 reg)
include hok

theorem promote_writes (id version : String) (expectedActive : Option (Option String)) :
    WritesEntry sha256 reg id (reg.promote kind id version expectedActive) := by
  unfold promote
  cases assertActive kind.name id (reg.heads.get id) expectedActive with
  | error e => exact .inl ⟨e, rfl⟩
  | ok u =>
    simp only
    cases hlive : liveRow kind id version (reg.heads.get id) with
    | error e => exact .inl ⟨e, rfl⟩
    | ok found =>
      obtain ⟨head, row⟩ := found
      obtain ⟨hget, hrow, hremoved⟩ := liveRow_ok kind hlive
      have hhead := hok id head hget
      have hversion := (hhead.rows version row hrow).keyed
      refine .inr ⟨_, _, row, rfl, ⟨rfl, ?_, ?_⟩, ?_⟩
      · exact hhead.promoted (hversion ▸ ⟨row, hrow, hremoved⟩)
      · rw [headOf_of_get hget]
        exact .of_rows rfl rfl
      · rw [hversion]
        exact hrow

theorem setEnabled_writes (id : String) (enabled : Bool) (expectedActive : Option (Option String)) :
    WritesEntry sha256 reg id (reg.setEnabled kind id enabled expectedActive) := by
  unfold setEnabled
  cases assertActive kind.name id (reg.heads.get id) expectedActive with
  | error e => exact .inl ⟨e, rfl⟩
  | ok u =>
    simp only
    cases hget : reg.heads.get id with
    | none => exact .inl ⟨_, rfl⟩
    | some head =>
      have hhead := hok id head hget
      simp only
      cases hactive : head.active with
      | none => exact .inl ⟨_, rfl⟩
      | some active =>
        obtain ⟨row, hrow, -⟩ := hhead.active_live active hactive
        have hversion := (hhead.rows active row hrow).keyed
        simp only [hrow]
        refine .inr ⟨{ reg with heads := reg.heads.set id { head with enabled := enabled } },
          { head with enabled := enabled }, row, by simp [hactive], ⟨rfl, ?_, ?_⟩, ?_⟩
        · exact hhead.setSwitch (some enabled)
        · rw [headOf_of_get hget]
          exact .of_rows rfl rfl
        · rw [hversion]
          exact hrow

theorem setTrust_writes (id version : String) (trust : VersionTrust) :
    WritesEntry sha256 reg id (reg.setTrust kind id version trust) := by
  unfold setTrust
  cases hlive : liveRow kind id version (reg.heads.get id) with
  | error e => exact .inl ⟨e, rfl⟩
  | ok found =>
    obtain ⟨head, row⟩ := found
    obtain ⟨hget, hrow, hremoved⟩ := liveRow_ok kind hlive
    have hhead := hok id head hget
    have hversion := (hhead.rows version row hrow).keyed
    have hsame : SameVersion row { row with trust := trust } := ⟨rfl, rfl, rfl, rfl, rfl, rfl, rfl⟩
    refine .inr ⟨_, _, { row with trust := trust }, rfl, ⟨rfl, ?_, ?_⟩, ?_⟩
    · exact hhead.rewrite hrow hsame rfl
    · rw [headOf_of_get hget]
      exact .set hrow hsame rfl rfl
    · simp [hversion]

theorem unregister_cases
    (id : String) (version : Option String) (expectedActive : Option (Option String))
    (promote : Option String) :
    (∃ result, reg.unregister kind id version expectedActive promote = (reg, result) ∧
        result ≠ .ok true) ∨
      ∃ reg' head', reg.unregister kind id version expectedActive promote = (reg', .ok true) ∧
        HeadWrite sha256 reg reg' id head' := by
  unfold unregister
  cases assertActive kind.name id (reg.heads.get id) expectedActive with
  | error e => exact .inl ⟨_, rfl, by simp⟩
  | ok u =>
    simp only
    cases hget : reg.heads.get id with
    | none => exact .inl ⟨_, rfl, by simp⟩
    | some head =>
      have hhead := hok id head hget
      simp only
      split
      · exact .inl ⟨_, rfl, by simp⟩
      · cases version with
        | none =>
          have hremoved := removeAll_ok hhead
          refine .inr ⟨_, removeAll head, rfl, rfl, hremoved.1, ?_⟩
          rw [headOf_of_get hget]
          exact hremoved.2
        | some v =>
          simp only
          cases hrow : head.rows.get v with
          | none => exact .inl ⟨_, rfl, by simp⟩
          | some row =>
            simp only
            split
            · exact .inl ⟨_, rfl, by simp⟩
            · split
              · exact .inl ⟨_, rfl, by simp⟩
              · rename_i hreplacement
                have hpromote : ∀ w ∈ promote, head.active = some v → head.IsLive w ∧ w ≠ v := by
                  intro w hw hactive
                  cases hw
                  simp only [ne_eq, hactive, not_true_eq_false, if_false] at hreplacement
                  cases hother : head.rows.get w with
                  | none =>
                    rw [hother] at hreplacement
                    cases hreplacement
                  | some other =>
                    simp only [hother] at hreplacement
                    split at hreplacement
                    · cases hreplacement
                    · rename_i hfit
                      simp only [Bool.or_eq_true, beq_iff_eq, not_or, Bool.not_eq_true] at hfit
                      exact ⟨⟨other, hother, hfit.1⟩, hfit.2⟩
                have hremoved := removeVersion_ok hhead hrow hpromote
                refine .inr ⟨_, removeVersion head v row promote, rfl, rfl, hremoved.1, ?_⟩
                rw [headOf_of_get hget]
                exact hremoved.2

end

variable {reg : InMemoryVersionedRegistry}

theorem step_cases (hok : RegistryOk sha256 reg) (o : RegistryOp Filter) :
    ((versionedRegistry kind sha256).next reg o).heads = reg.heads ∨
      ∃ id head', HeadWrite sha256 reg ((versionedRegistry kind sha256).next reg o) id head' := by
  have hentry : ∀ {id result}, WritesEntry sha256 reg id result →
      result.1.heads = reg.heads ∨ ∃ id head', HeadWrite sha256 reg result.1 id head' := by
    rintro id result (⟨e, rfl⟩ | ⟨reg', head', row, rfl, hwrite, -⟩)
    · exact .inl rfl
    · exact .inr ⟨id, head', hwrite⟩
  cases o with
  | advance | get | list | versions => exact .inl rfl
  | register input => exact hentry (register_writes kind hok input)
  | promote id version expectedActive =>
    exact hentry (promote_writes kind hok id version expectedActive)
  | setEnabled id enabled expectedActive =>
    exact hentry (setEnabled_writes kind hok id enabled expectedActive)
  | setTrust id version trust => exact hentry (setTrust_writes kind hok id version trust)
  | unregister id version expectedActive promote =>
    rcases unregister_cases kind hok id version expectedActive promote with
      ⟨result, heq, -⟩ | ⟨reg', head', heq, hwrite⟩
    · left
      exact congrArg (·.1.heads) heq
    · right
      refine ⟨id, head', ?_⟩
      have hnext : (versionedRegistry kind sha256).next reg
          (.unregister id version expectedActive promote) = reg' := congrArg Prod.fst heq
      rw [hnext]
      exact hwrite

theorem step_ok (hok : RegistryOk sha256 reg) (o : RegistryOp Filter) :
    RegistryOk sha256 ((versionedRegistry kind sha256).next reg o) := by
  intro id head hget
  rcases step_cases kind hok o with hsame | ⟨id', head', hwrite⟩
  · rw [hsame] at hget
    exact hok id head hget
  · rw [hwrite.heads, get_set] at hget
    split at hget
    · cases hget
      exact hwrite.ok
    · exact hok id head hget

theorem step_kept (hok : RegistryOk sha256 reg) (o : RegistryOp Filter) (id : String) :
    (reg.headOf id).Kept (((versionedRegistry kind sha256).next reg o).headOf id) := by
  rcases step_cases kind hok o with hsame | ⟨id', head', hwrite⟩
  · have hhead : ((versionedRegistry kind sha256).next reg o).headOf id = reg.headOf id := by
      simp [headOf, hsame]
    rw [hhead]
    exact .of_rows rfl rfl
  · rw [hwrite.headOf id]
    split
    · rename_i hid
      exact hid ▸ hwrite.kept
    · exact .of_rows rfl rfl

/-! ## Answers -/

def RegistryAnswer.entriesOf : RegistryAnswer → List Versioned
  | .entry (.ok v) => [v]
  | .found (some v) => [v]
  | .page (.ok p) => p.items
  | .entries vs => vs
  | .none | .entry (.error _) | .found Option.none | .page (.error _) | .removed _ => []

/-- The call threw, or answered `false`. -/
def RegistryAnswer.Failed : RegistryAnswer → Prop
  | .entry (.error _) => True
  | .page (.error _) => True
  | .removed result => result ≠ .ok true
  | .none | .entry (.ok _) | .found _ | .page (.ok _) | .entries _ => False

/-- A call that throws or answers `false` changes nothing. -/
theorem failed_unchanged (hok : RegistryOk sha256 reg) (o : RegistryOp Filter)
    (hfailed : ((versionedRegistry kind sha256).out reg o).Failed) :
    (versionedRegistry kind sha256).next reg o = reg := by
  have hentry : ∀ {id result}, WritesEntry sha256 reg id result →
      RegistryAnswer.Failed (.entry result.2) → result.1 = reg := by
    rintro id result (⟨e, rfl⟩ | ⟨reg', head', row, rfl, -⟩) hfailed
    · rfl
    · cases hfailed
  cases o with
  | advance => cases hfailed
  | get | list | versions => rfl
  | register input => exact hentry (register_writes kind hok input) hfailed
  | promote id version expectedActive =>
    exact hentry (promote_writes kind hok id version expectedActive) hfailed
  | setEnabled id enabled expectedActive =>
    exact hentry (setEnabled_writes kind hok id enabled expectedActive) hfailed
  | setTrust id version trust => exact hentry (setTrust_writes kind hok id version trust) hfailed
  | unregister id version expectedActive promote =>
    rcases unregister_cases kind hok id version expectedActive promote with
      ⟨result, heq, -⟩ | ⟨reg', head', heq, -⟩
    · exact congrArg Prod.fst heq
    · exact absurd (congrArg Prod.snd heq) hfailed

def InMemoryVersionedRegistry.listEntry (reg : InMemoryVersionedRegistry)
    (p : ListVersionedParams Filter) (id : String) : Option Versioned := do
  let head ← reg.heads.get id
  let active ← head.active
  let row ← head.rows.get active
  if p.enabled.any (head.enabled != ·) || p.source.any (fun source => row.source != some source) ||
      !matchesFacets row.facets (facetQuery kind p.filter) then none
  else some (toEntry id head row)

/-- What `list` reads, page by page: the matching entries in id order. -/
def InMemoryVersionedRegistry.listing (reg : InMemoryVersionedRegistry)
    (p : ListVersionedParams Filter) : List Versioned :=
  (reg.heads.keys.insertionSort (· ≤ ·)).filterMap (reg.listEntry kind p)

variable {p : ListVersionedParams Filter} {entry : Versioned}

theorem listEntry_id (h : reg.listEntry kind p id = some entry) : entry.id = id := by
  unfold listEntry at h
  simp only [bind_eq_bind, bind_eq_some_iff] at h
  obtain ⟨head, -, active, -, row, -, h⟩ := h
  split at h
  · cases h
  · cases h
    rfl

private def entryAfter (reg : InMemoryVersionedRegistry) (p : ListVersionedParams Filter)
    (cursor : Option String) (id : String) : Option Versioned :=
  if cursor.any (id ≤ ·) then none else reg.listEntry kind p id

variable {limit : Option Nat}

private theorem listLoop_cons (hok : RegistryOk sha256 reg)
    {cursor : Option String} {ids : List String}
    {items : List Versioned} (hid : (reg.heads.get id).isSome) :
    reg.listLoop kind p cursor limit (id :: ids) items =
      match entryAfter kind reg p cursor id with
      | none => reg.listLoop kind p cursor limit ids items
      | some entry =>
        if limit = some items.length then
          .ok { items := items, nextCursor := items.getLast?.map (·.id) }
        else reg.listLoop kind p cursor limit ids (items ++ [entry]) := by
  obtain ⟨head, hget⟩ := isSome_iff_exists.mp hid
  simp only [listLoop, entryAfter,
    listEntry, hget]
  by_cases hcursor : cursor.any (id ≤ ·)
  · simp [hcursor]
  · cases hactive : head.active with
    | none => simp [hcursor, hactive]
    | some active =>
      obtain ⟨row, hrow, -⟩ := (hok id head hget).active_live active hactive
      by_cases henabled : p.enabled.any (head.enabled != ·)
      · simp [hcursor, hactive, henabled]
      · by_cases hsource : p.source.any fun source => row.source != some source
        · simp [hcursor, hactive, hrow, henabled, hsource]
        · by_cases hfacets : matchesFacets row.facets (facetQuery kind p.filter)
          · simp [hcursor, hactive, hrow, henabled, hsource, hfacets]
          · simp [hcursor, hactive, hrow, henabled, hsource, hfacets]

private theorem afterCursor_filterMap (p : ListVersionedParams Filter) (cursor : Option String)
    (ids : List String) :
    afterCursor (·.id) cursor (ids.filterMap (reg.listEntry kind p)) =
      ids.filterMap (entryAfter kind reg p cursor) := by
  cases cursor with
  | none =>
    simp only [afterCursor]
    apply filterMap_congr
    intro id _
    simp [entryAfter]
  | some c =>
    simp only [afterCursor, filter_filterMap]
    apply filterMap_congr
    intro id _
    cases hentry : reg.listEntry kind p id with
    | none => simp [entryAfter, hentry]
    | some entry =>
      have hid := listEntry_id kind hentry
      by_cases hc : id ≤ c
      · have hlt : ¬ c < entry.id := by
          rw [hid]
          exact not_lt.mpr hc
        simp only [entryAfter, any_some, hc, decide_true, if_true, filter_some,
          decide_eq_false hlt, Bool.false_eq_true, if_false]
      · have hlt : c < entry.id := by
          rw [hid]
          exact not_le.mp hc
        simp only [entryAfter, any_some, hc, decide_false, Bool.false_eq_true, if_false,
          hentry, filter_some, decide_eq_true hlt, if_true]

private def pageOf (limit : Option Nat) (items rest : List Versioned) : VersionedPage :=
  match limit with
  | none => { items := items ++ rest, nextCursor := none }
  | some n =>
    let taken := items ++ rest.take (n - items.length)
    { items := taken
      nextCursor := if n < items.length + rest.length then taken.getLast?.map (·.id) else none }

private theorem pageOf_cons {n : Nat} {items : List Versioned} (entry : Versioned)
    (rest : List Versioned) (hlt : items.length < n) :
    pageOf (some n) items (entry :: rest) = pageOf (some n) (items ++ [entry]) rest := by
  have htake : n - items.length = n - (items ++ [entry]).length + 1 := by
    simp only [length_append, length_singleton]
    omega
  have htaken : items ++ (entry :: rest).take (n - items.length) =
      items ++ [entry] ++ rest.take (n - (items ++ [entry]).length) := by
    rw [htake, take_succ_cons]
    simp
  have hlen : items.length + (entry :: rest).length = (items ++ [entry]).length + rest.length := by
    simp only [length_append, length_cons, length_nil]
    omega
  simp only [pageOf, htaken, hlen]

private theorem listLoop_eq (hok : RegistryOk sha256 reg) (p : ListVersionedParams Filter)
    (cursor : Option String) (limit : Option Nat) {ids : List String}
    (hids : ∀ id ∈ ids, (reg.heads.get id).isSome) (items : List Versioned)
    (hlimit : ∀ n ∈ limit, items.length ≤ n) :
    reg.listLoop kind p cursor limit ids items =
      .ok (pageOf limit items (ids.filterMap (entryAfter kind reg p cursor))) := by
  induction ids generalizing items with
  | nil =>
    cases limit with
    | none => simp [listLoop, pageOf]
    | some n =>
      have hle := hlimit n rfl
      simp [listLoop, pageOf, Nat.not_lt.mpr hle]
  | cons id ids ih =>
    have hrest := fun other hother => hids other (mem_cons_of_mem id hother)
    rw [listLoop_cons kind hok (hids id mem_cons_self)]
    cases hentry : entryAfter kind reg p cursor id with
    | none =>
      simp only [filterMap_cons, hentry]
      exact ih hrest items hlimit
    | some entry =>
      simp only [filterMap_cons, hentry]
      cases limit with
      | none =>
        rw [if_neg (by simp), ih hrest (items ++ [entry]) (by simp)]
        simp [pageOf]
      | some n =>
        have hle := hlimit n rfl
        by_cases hfull : n = items.length
        · subst hfull
          simp [pageOf]
        · have hlt : items.length < n := by omega
          rw [if_neg (by simpa using hfull), pageOf_cons entry _ hlt]
          apply ih hrest
          intro m hm
          cases hm
          simp only [length_append, length_singleton]
          omega

theorem list_eq (hok : RegistryOk sha256 reg)
    (hlimit : assertListLimit p.limit = .ok limit) (cursor : Option String) :
    reg.list kind p cursor =
      .ok { items := (page (·.id) limit cursor (reg.listing kind p)).1
            nextCursor := (page (·.id) limit cursor (reg.listing kind p)).2 } := by
  have hids : ∀ id ∈ reg.heads.keys.insertionSort (· ≤ ·), (reg.heads.get id).isSome := by
    intro id hid
    exact (mem_keys_iff reg.heads id).mp ((mem_insertionSort _).mp hid)
  simp only [list, hlimit]
  rw [listLoop_eq kind hok p cursor limit hids [] (by simp)]
  simp only [page, listing, afterCursor_filterMap]
  cases limit with
  | none | some n => simp [pageOf]

theorem listing_sorted (p : ListVersionedParams Filter) :
    (reg.listing kind p).Pairwise (·.id < ·.id) := by
  have hsorted : (reg.heads.keys.insertionSort (· ≤ ·)).Pairwise (· < ·) := by
    have hle := pairwise_insertionSort (· ≤ ·) reg.heads.keys
    have hne := ((perm_insertionSort (· ≤ ·) reg.heads.keys).nodup_iff).mpr reg.heads.nodup
    exact (hle.and hne).imp fun h => lt_of_le_of_ne h.1 h.2
  unfold listing
  rw [pairwise_filterMap]
  apply hsorted.imp
  intro id id' hlt entry hentry entry' hentry'
  rw [listEntry_id kind hentry, listEntry_id kind hentry']
  exact hlt

theorem mem_listing_iff :
    entry ∈ reg.listing kind p ↔ reg.listEntry kind p entry.id = some entry := by
  simp only [listing, mem_filterMap, mem_insertionSort]
  constructor
  · rintro ⟨id, -, hentry⟩
    rw [listEntry_id kind hentry]
    exact hentry
  · intro hentry
    refine ⟨entry.id, ?_, hentry⟩
    rw [mem_keys_iff]
    unfold listEntry at hentry
    cases hget : reg.heads.get entry.id with
    | none => simp [hget] at hentry
    | some head => rfl

theorem listAllVersioned_eq (hok : RegistryOk sha256 reg)
    (hlimit : assertListLimit p.limit = .ok limit) :
    reg.listAllVersioned kind p (reg.heads.size + 1) none = some (.ok (reg.listing kind p)) := by
  have hread : ∀ fuel cursor, reg.listAllVersioned kind p fuel cursor =
      (readPages (fun cursor => page (·.id) limit cursor (reg.listing kind p))
        fuel cursor).map .ok := by
    intro fuel
    induction fuel with
    | zero => exact fun _ => rfl
    | succ fuel ih =>
      intro cursor
      simp only [listAllVersioned, list_eq kind hok hlimit,
        readPages]
      cases hpage : page (·.id) limit cursor (reg.listing kind p) with
      | mk items next =>
        cases next with
        | none => rfl
        | some next =>
          simp only [ih, Option.map_map]
          rfl
  have hpositive : ∀ n ∈ limit, 0 < n := by
    intro n hn
    cases hn
    unfold assertListLimit at hlimit
    split at hlimit
    · cases hlimit
    · split at hlimit
      · cases hlimit
      · cases hlimit
        omega
  have hlength : (reg.listing kind p).length < reg.heads.size + 1 := by
    have hle : (reg.listing kind p).length ≤ (reg.heads.keys.insertionSort (· ≤ ·)).length :=
      length_filterMap_le _ _
    rw [length_insertionSort, length_keys] at hle
    omega
  rw [hread, readPages_eq (listing_sorted kind p) hpositive hlength]
  rfl

/-! ## Answers name stored versions -/

def Shows (reg : InMemoryVersionedRegistry) (entry : Versioned) : Prop :=
  ∃ row, (reg.headOf entry.id).rows.get entry.version = some row ∧ row.body = entry.body

theorem shows_toEntry {v : String} {row : Row}
    (hhead : reg.headOf id = head) (hrow : head.rows.get v = some row) (hv : row.version = v) :
    Shows reg (toEntry id head row) := by
  subst hv
  exact ⟨row, by rw [← hhead] at hrow; exact hrow, rfl⟩

theorem Shows.unique {entry entry' : Versioned} (h : Shows reg entry) (h' : Shows reg entry')
    (hid : entry.id = entry'.id) (hversion : entry.version = entry'.version) :
    entry.body = entry'.body := by
  obtain ⟨row, hrow, hbody⟩ := h
  obtain ⟨row', hrow', hbody'⟩ := h'
  rw [hid, hversion, hrow'] at hrow
  cases hrow
  exact hbody.symm.trans hbody'

theorem Shows.step (hok : RegistryOk sha256 reg) (o : RegistryOp Filter)
    (h : Shows reg entry) : Shows ((versionedRegistry kind sha256).next reg o) entry := by
  obtain ⟨row, hrow, hbody⟩ := h
  obtain ⟨row', hrow', hsame⟩ := (step_kept kind hok o entry.id).rows entry.version row hrow
  exact ⟨row', hrow', hsame.body.trans hbody⟩

private theorem shows_listing (hok : RegistryOk sha256 reg)
    (h : entry ∈ reg.listing kind p) : Shows reg entry := by
  have hentry := (mem_listing_iff kind).mp h
  unfold listEntry at hentry
  simp only [bind_eq_bind, bind_eq_some_iff] at hentry
  obtain ⟨head, hget, active, -, row, hrow, hentry⟩ := hentry
  split at hentry
  · cases hentry
  · rw [← Option.some.inj hentry]
    exact shows_toEntry (headOf_of_get hget) hrow ((hok _ head hget).rows active row hrow).keyed

private theorem mem_page {cursor : Option String} {entries : List Versioned}
    (h : entry ∈ (page (·.id) limit cursor entries).1) :
    entry ∈ entries := by
  have hrest : entry ∈ afterCursor (·.id) cursor entries := by
    unfold page at h
    cases limit with
    | none => exact h
    | some n => exact mem_of_mem_take h
  unfold afterCursor at hrest
  cases cursor with
  | none => exact hrest
  | some c => exact mem_of_mem_filter hrest

/-- An entry in an answer is a row of the registry after the call. -/
theorem shows_answer (hok : RegistryOk sha256 reg) (o : RegistryOp Filter)
    (h : entry ∈ ((versionedRegistry kind sha256).out reg o).entriesOf) :
    Shows ((versionedRegistry kind sha256).next reg o) entry := by
  -- a write shows the row it has stored
  have hwrites : ∀ {id result}, WritesEntry sha256 reg id result →
      entry ∈ RegistryAnswer.entriesOf (.entry result.2) → Shows result.1 entry := by
    rintro id result (⟨e, rfl⟩ | ⟨reg', head', row, rfl, hwrite, hrow⟩) hmem
    · cases hmem
    · rw [mem_singleton.mp hmem]
      have hhead := hwrite.headOf id
      rw [if_pos rfl] at hhead
      exact shows_toEntry hhead hrow rfl
  cases o with
  | advance | unregister => cases h
  | register input => exact hwrites (register_writes kind hok input) h
  | promote id version expectedActive =>
    exact hwrites (promote_writes kind hok id version expectedActive) h
  | setEnabled id enabled expectedActive =>
    exact hwrites (setEnabled_writes kind hok id enabled expectedActive) h
  | setTrust id version trust => exact hwrites (setTrust_writes kind hok id version trust) h
  | get id version =>
    cases hfound : reg.get id version with
    | none =>
      simp only [Machine.out, versionedRegistry, hfound] at h
      cases h
    | some found =>
      simp only [Machine.out, versionedRegistry, hfound] at h
      rw [mem_singleton.mp h]
      unfold InMemoryVersionedRegistry.get at hfound
      cases hget : reg.heads.get id with
      | none => simp [hget] at hfound
      | some head =>
        cases hactive : head.active with
        | none => simp [hget, hactive] at hfound
        | some active =>
          cases hrow : head.rows.get (version.getD active) with
          | none => simp [hget, hactive, hrow] at hfound
          | some row =>
            simp only [hget, hactive, hrow] at hfound
            split at hfound
            · cases hfound
            · cases hfound
              exact shows_toEntry (headOf_of_get hget) hrow
                ((hok id head hget).rows _ row hrow).keyed
  | list p cursor =>
    cases hlimit : assertListLimit p.limit with
    | error e =>
      simp only [Machine.out, versionedRegistry, list, hlimit] at h
      cases h
    | ok limit =>
      simp only [Machine.out, versionedRegistry, list_eq kind hok hlimit] at h
      exact shows_listing kind hok (mem_page h)
  | versions id =>
    simp only [Machine.out, versionedRegistry, versions] at h
    cases hget : reg.heads.get id with
    | none =>
      rw [hget] at h
      cases h
    | some head =>
      simp only [hget, RegistryAnswer.entriesOf, mem_map] at h
      obtain ⟨row, hlive, rfl⟩ := h
      simp only [Head.live, mem_insertionSort, mem_filter, mem_values_iff] at hlive
      obtain ⟨⟨v, hrow⟩, -⟩ := hlive
      exact shows_toEntry (headOf_of_get hget) hrow ((hok id head hget).rows v row hrow).keyed

structure CreatedVersion where
  id : String
  version : String
  seq : Nat

def createdBy (sha256 : String → String) (reg : InMemoryVersionedRegistry)
    (o : RegistryOp Filter) : List CreatedVersion :=
  match o, (versionedRegistry kind sha256).out reg o with
  | .register input, .entry (.ok v) =>
    let head' := ((versionedRegistry kind sha256).next reg o).headOf input.id
    if head'.nextSeq = (reg.headOf input.id).nextSeq then []
    else (head'.rows.get v.version).toList.map fun row =>
      { id := input.id, version := v.version, seq := row.seq }
  | _, _ => []

private theorem createdBy_fresh (hok : RegistryOk sha256 reg) {o : RegistryOp Filter}
    {c : CreatedVersion} (h : c ∈ createdBy kind sha256 reg o) :
    createdBy kind sha256 reg o = [c] ∧ c.seq = (reg.headOf c.id).nextSeq ∧
      (reg.headOf c.id).rows.get c.version = none ∧
      c.seq < (((versionedRegistry kind sha256).next reg o).headOf c.id).nextSeq ∧
      ((((versionedRegistry kind sha256).next reg o).headOf c.id).rows.get c.version).isSome := by
  cases o with
  | register input =>
    rcases register_cases kind hok input with
      ⟨e, heq⟩ | ⟨reg', head', row, body, heq, -, hwrite, hrow, -, hcase⟩
    · simp [createdBy, Machine.out, versionedRegistry, heq] at h
    · have hhead := hwrite.headOf input.id
      rw [if_pos rfl] at hhead
      simp only [createdBy, Machine.out, Machine.next, versionedRegistry, heq, hhead, toEntry,
        hrow] at h ⊢
      rcases hcase with hsame | ⟨hseq, hfree, hnext⟩
      · simp [hsame] at h
      · have hmoved : head'.nextSeq ≠ (reg.headOf input.id).nextSeq := by omega
        simp only [if_neg hmoved, toList_some, map_cons, map_nil,
          mem_singleton] at h ⊢
        subst h
        refine ⟨rfl, hseq, hfree, ?_, ?_⟩
        · simp only [hhead]
          omega
        · simp [hhead, hrow]
  | _ => simp [createdBy] at h

/-- The listing asks for this head. -/
def Matches (reg : InMemoryVersionedRegistry) (p : ListVersionedParams Filter) (id : String) :
    Prop :=
  ∃ head active row, reg.heads.get id = some head ∧ head.active = some active ∧
    head.rows.get active = some row ∧ (∀ enabled ∈ p.enabled, head.enabled = enabled) ∧
    (∀ source ∈ p.source, row.source = some source) ∧
    matchesFacets row.facets (facetQuery kind p.filter) = true

theorem mem_listing_ids_iff (p : ListVersionedParams Filter) (id : String) :
    id ∈ (reg.listing kind p).map (·.id) ↔ Matches kind reg p id := by
  have hentry : id ∈ (reg.listing kind p).map (·.id) ↔ ∃ v, reg.listEntry kind p id = some v := by
    simp only [mem_map, mem_listing_iff]
    constructor
    · rintro ⟨v, hv, rfl⟩
      exact ⟨v, hv⟩
    · rintro ⟨v, hv⟩
      have hid := listEntry_id kind hv
      exact ⟨v, by rw [hid]; exact hv, hid⟩
  rw [hentry]
  simp only [Matches, listEntry, bind_eq_bind,
    bind_eq_some_iff]
  constructor
  · rintro ⟨v, head, hget, active, hactive, row, hrow, h⟩
    split at h
    · cases h
    · rename_i hfit
      simp only [Bool.or_eq_true, not_or, Bool.not_eq_true, Option.any_eq_false,
        Bool.not_eq_false', bne_eq_false_iff_eq] at hfit
      exact ⟨head, active, row, hget, hactive, hrow, fun b hb => hfit.1.1 b hb,
        fun b hb => hfit.1.2 b hb, hfit.2⟩
  · rintro ⟨head, active, row, hget, hactive, hrow, henabled, hsource, hfacets⟩
    refine ⟨toEntry id head row, head, hget, active, hactive, row, hrow, ?_⟩
    rw [if_neg]
    simp only [Bool.or_eq_true, not_or, Bool.not_eq_true, Option.any_eq_false,
      Bool.not_eq_false', bne_eq_false_iff_eq]
    exact ⟨⟨henabled, hsource⟩, hfacets⟩

def AnswersBody (sha256 : String → String) (reg : InMemoryVersionedRegistry)
    (o : RegistryOp Filter) : Prop :=
  ∀ input v, o = .register input → (versionedRegistry kind sha256).out reg o = .entry (.ok v) →
    ∃ body, kind.prepare input.id input.input = .ok body ∧
      canonicalJson v.body = canonicalJson body

/-- What holds at the end of a run of the registry, and of its calls and answers. -/
structure RegistryConsistent (sha256 : String → String) (now : Int)
    (ops : List (RegistryOp Filter)) : Prop where
  active_null : ∀ id head, ((versionedRegistry kind sha256).run (.new now) ops).heads.get id =
    some head → (head.active = none ↔ ∀ v, ¬ head.IsLive v)
  active_live : ∀ id head v, ((versionedRegistry kind sha256).run (.new now) ops).heads.get id =
    some head → head.active = some v → head.IsLive v
  history : ∀ id head, ((versionedRegistry kind sha256).run (.new now) ops).heads.get id =
    some head → head.history.Nodup ∧ ∀ v ∈ head.history, head.IsLive v ∧ head.active ≠ some v
  labels : ((versionedRegistry kind sha256).trace
      (fun reg o => ((versionedRegistry kind sha256).out reg o).entriesOf) (.new now) ops).Pairwise
    fun v v' => v.id = v'.id → v.version = v'.version → v.body = v'.body
  bodies : (versionedRegistry kind sha256).Always (AnswersBody kind sha256) (.new now) ops
  created : ((versionedRegistry kind sha256).trace (createdBy kind sha256) (.new now) ops).Pairwise
    fun c c' => c.id = c'.id → c.seq < c'.seq ∧ c.version ≠ c'.version
  failing : (versionedRegistry kind sha256).Always
    (fun reg o => ((versionedRegistry kind sha256).out reg o).Failed →
      (versionedRegistry kind sha256).next reg o = reg) (.new now) ops
  paging : ∀ p limit, assertListLimit p.limit = .ok limit →
    ∃ fuel entries, ((versionedRegistry kind sha256).run (.new now) ops).listAllVersioned kind p
        fuel none = some (.ok entries) ∧
      (entries.map (·.id)).Nodup ∧
      ∀ id, id ∈ entries.map (·.id) ↔
        Matches kind ((versionedRegistry kind sha256).run (.new now) ops) p id

theorem run_ok (now : Int) (ops : List (RegistryOp Filter)) :
    RegistryOk sha256 ((versionedRegistry kind sha256).run (.new now) ops) :=
  run_induction (P := RegistryOk sha256) (fun _ o h => step_ok kind h o) ops
    (by simp [RegistryOk, new])

/-- With a hash that tells texts apart, every run of the registry is consistent. -/
theorem registry_consistent (kind : RegistryKind Filter) (sha256 : String → String)
    (hsha256 : Function.Injective sha256) (now : Int) (ops : List (RegistryOp Filter)) :
    RegistryConsistent kind sha256 now ops := by
  have hnew : RegistryOk sha256 (.new now) := by simp [RegistryOk, new]
  have hrun : RegistryOk sha256 ((versionedRegistry kind sha256).run (.new now) ops) :=
    run_ok kind now ops
  have hall := always_of_forall (M := versionedRegistry kind sha256)
    (C := fun _ _ => True) (fun _ _ => trivial) (.new now) ops
  exact {
    active_null := by
      intro id head hget
      have hhead := hrun id head hget
      constructor
      · exact fun hnone v hv => hhead.live_active v hv hnone
      · intro hdead
        by_contra hne
        obtain ⟨v, hv⟩ := ne_none_iff_exists'.mp hne
        exact hdead v (hhead.active_live v hv)
    active_live := fun id head v hget => (hrun id head hget).active_live v
    history := by
      intro id head hget
      have hhead := hrun id head hget
      exact ⟨hhead.history_nodup, fun v hv =>
        ⟨hhead.history_live v hv, fun hactive => hhead.active_not_mem v hactive hv⟩⟩
    labels := by
      refine (pairwise_trace (I := RegistryOk sha256) (B := Shows)
        (fun _ o _ h => step_ok kind h o) (fun _ o _ _ h hs => hs.step kind h o)
        (fun _ o _ _ h hmem => shows_answer kind h o hmem) ?_ ?_ hall hnew).1
      · intro reg o v v' _ hok hs hmem
        exact (hs.step kind hok o).unique (shows_answer kind hok o hmem)
      · intro reg o _ hok
        rw [pairwise_iff_forall_sublist]
        intro v v' hsub
        have hmem := hsub.subset
        exact (shows_answer kind hok o (hmem (by simp))).unique
          (shows_answer kind hok o (hmem (by simp)))
    bodies := by
      apply always_of_invariant_always (I := RegistryOk sha256)
        (fun _ o _ h => step_ok kind h o) _ hnew hall
      rintro reg o _ hok input v rfl hout
      rcases register_cases kind hok input with
        ⟨e, heq⟩ | ⟨reg', head', row, body, heq, hbody, hwrite, hrow, hhash, -⟩
      · simp [Machine.out, versionedRegistry, heq] at hout
      · simp only [Machine.out, versionedRegistry, heq, RegistryAnswer.entry.injEq,
          Except.ok.injEq] at hout
        have hstored := (hwrite.ok.rows row.version row hrow).hashed
        refine ⟨body, hbody, ?_⟩
        rw [← hout]
        -- equal hashes, equal bodies
        exact hsha256 (hstored.symm.trans hhash)
    created := by
      refine (pairwise_trace (I := RegistryOk sha256)
        (B := fun reg c => c.seq < (reg.headOf c.id).nextSeq ∧
          ((reg.headOf c.id).rows.get c.version).isSome)
        (fun _ o _ h => step_ok kind h o) ?_ ?_ ?_ ?_ hall hnew).1
      · intro reg o c _ hok hc
        have hkept := step_kept kind hok o c.id
        obtain ⟨row, hrow⟩ := isSome_iff_exists.mp hc.2
        obtain ⟨row', hrow', -⟩ := hkept.rows c.version row hrow
        have hle := hkept.nextSeq
        exact ⟨by omega, by rw [hrow']; rfl⟩
      · intro reg o c _ hok hmem
        obtain ⟨-, -, -, hseq, hsome⟩ := createdBy_fresh kind hok hmem
        exact ⟨hseq, hsome⟩
      · intro reg o c c' _ hok hc hmem hid
        obtain ⟨-, hseq, hfree, -⟩ := createdBy_fresh kind hok hmem
        rw [hid] at hc
        refine ⟨by omega, ?_⟩
        intro hversion
        -- a created version was free
        rw [hversion, hfree] at hc
        cases hc.2
      · intro reg o _ hok
        cases hcreated : createdBy kind sha256 reg o with
        | nil => exact .nil
        | cons c rest =>
          have hsingle := (createdBy_fresh kind hok (hcreated ▸ mem_cons_self)).1
          rw [hcreated] at hsingle
          rw [hsingle]
          exact pairwise_singleton _ _
    failing := always_of_invariant_always (I := RegistryOk sha256)
      (fun _ o _ h => step_ok kind h o) (fun _ o _ h => failed_unchanged kind h o) hnew hall
    paging := by
      intro p limit hlimit
      refine ⟨_, _, listAllVersioned_eq kind hrun hlimit, ?_, mem_listing_ids_iff kind p⟩
      rw [List.Nodup, pairwise_map]
      exact (listing_sorted kind p).imp fun h => ne_of_lt h }

private def plainKind : RegistryKind Unit where
  name := "skill"
  prepare _ input := .ok input
  facets _ _ := []
  query _ := { «include» := [], exclude := [] }

private def emptyObjectDigest : String → String :=
  Equiv.swap (canonicalJson (.obj []))
    "44136fa355b3678a1146ad16f7e8649e94fb4fc21fe77e8310c060f61caaff8a"

/-- Register a body, remove it, register it again, remove it again. -/
theorem registry_consistent_restored :
    RegistryConsistent plainKind emptyObjectDigest 0
      [.register { id := "a", input := .obj [] }, .unregister "a" none none none,
        .register { id := "a", input := .obj [] }, .unregister "a" (some "v1") none none] :=
  registry_consistent plainKind emptyObjectDigest (Equiv.injective _) 0 _

end Promin.Agent
