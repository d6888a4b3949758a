import Promin.Durable.SqliteStorage
import Promin.Shared.JsonText

/-!
# What a metadata filter selects

Three readings of a metadata filter: jsonb containment (`metadataContains`),
`workflowMetadataMatches`, and the conditions of the SQLite queries.
-/

namespace Promin.Durable

open SqliteWorkflowStorage List JsMap

/-! ## Equality of values -/

mutual

theorem deepEqual_refl : (a : JsValue) → a.isJson = true → deepEqual a a = true
  | .undefined, h => nomatch h
  | .null, _ => rfl
  | .bool x, _ => by simp [deepEqual]
  | .num x, _ => by simp [deepEqual]
  | .str x, _ => by simp [deepEqual]
  | .date _, h => nomatch h
  | .arr xs, h => by
    simp only [JsValue.isJson] at h
    simp only [deepEqual]
    exact deepEqualItems_refl xs h
  | .obj xs, h => by
    simp only [JsValue.isJson, Bool.and_eq_true, decide_eq_true_eq] at h
    obtain ⟨hnodup, hmembers⟩ := h
    simp only [deepEqual, beq_self_eq_true, Bool.true_and]
    exact deepEqualMembers_of_lookup xs xs hmembers fun e he => lookup_of_mem hnodup he

private theorem deepEqualItems_refl : (xs : List JsValue) → JsValue.isJsonItems xs = true →
    deepEqualItems xs xs = true
  | [], _ => rfl
  | x :: xs, h => by
    simp only [JsValue.isJsonItems, Bool.and_eq_true] at h
    simp only [deepEqualItems, Bool.and_eq_true]
    exact ⟨deepEqual_refl x h.1, deepEqualItems_refl xs h.2⟩

private theorem deepEqualMembers_of_lookup : (xs ys : List (String × JsValue)) →
    JsValue.isJsonMembers xs = true → (∀ e ∈ xs, JsMap.lookup e.1 ys = some e.2) →
    deepEqualMembers xs ys = true
  | [], _, _, _ => rfl
  | (k, x) :: xs, ys, h, hys => by
    simp only [JsValue.isJsonMembers, Bool.and_eq_true] at h
    have hk : JsMap.lookup k ys = some x := hys (k, x) mem_cons_self
    have hrest := deepEqualMembers_of_lookup xs ys h.2 fun e he => hys e (mem_cons_of_mem _ he)
    simp only [deepEqualMembers, hk, Option.getD_some, Bool.and_eq_true]
    exact ⟨deepEqual_refl x h.1, hrest⟩

end

theorem deepEqual_compared {a v : JsValue} (hv : comparedInSql v = true) :
    deepEqual a v = true ↔ a = v := by
  cases v <;> cases a <;> simp_all [deepEqual, comparedInSql]

/-! ## The reading of a filter in SQL -/

/-- No character of the key needs an escape in a path. -/
def PlainKey (key : String) : Prop := ∀ c ∈ key.toList, isEscaped c = false

/-- What `json_extract` answers for a member of an object. -/
def extracted : Option JsValue → SqlValue
  | none => .null
  | some (.arr items) => .text ((stringify (.arr items)).getD "")
  | some (.obj members) => .text ((stringify (.obj members)).getD "")
  | some v => sqlValue v

/-- What SQLite documents of `json_extract` for a plain path. -/
structure ExtractsMembers (json_extract : Option JsonRecord → String → SqlValue) : Prop where
  absent : ∀ path, json_extract none path = .null
  member : ∀ (r : JsonRecord) (key : String), PlainKey key →
    json_extract (some r) (jsonPathFor key) = extracted (JsMap.lookup key r.val)

/-- The value equals no other once SQLite has extracted it. -/
def SameInSql : JsValue → Prop
  | .num n => n ≠ 0 ∧ n ≠ 1
  | .str s => ∀ c : JsValue, c.isJson = true → c.isScalar = false → stringify c ≠ some s
  | _ => False

theorem SameInSql.compared {v : JsValue} (h : SameInSql v) : comparedInSql v = true := by
  cases v <;> first | rfl | exact h.elim

theorem SameInSql.scalar {v : JsValue} (h : SameInSql v) : v.isScalar = true := by
  cases v <;> first | rfl | exact h.elim

private theorem text_ne_of_container {c : JsValue} {s : String} (hc : c.isJson = true)
    (hcontainer : c.isScalar = false) (hs : SameInSql (.str s)) :
    (stringify c).getD "" ≠ s := by
  intro heq
  cases htext : stringify c with
  | none => cases c <;> simp [stringify, JsValue.isScalar] at htext hcontainer
  | some text =>
    rw [htext, Option.getD_some] at heq
    exact hs c hc hcontainer (heq ▸ htext)

theorem sqlEq_extracted_iff {x v : JsValue} (hx : x.isJson = true) (hv : SameInSql v) :
    sqlEq (extracted (some x)) (sqlValue v) = true ↔ x = v := by
  cases v with
  | num n =>
    obtain ⟨h0, h1⟩ := hv
    cases x with
    | bool b =>
      cases b with
      | true => simp [extracted, sqlValue, sqlEq, Ne.symm h1]
      | false => simp [extracted, sqlValue, sqlEq, Ne.symm h0]
    | _ => simp [extracted, sqlValue, sqlEq]
  | str s =>
    cases x with
    | arr items | obj members => simp [extracted, sqlValue, sqlEq, text_ne_of_container hx rfl hv]
    | _ => simp [extracted, sqlValue, sqlEq]
  | _ => exact hv.elim

def metadataContains (actual : Option Record) (filter : Record) : Bool :=
  match actual with
  | none => filter.isEmpty
  | some actual => JsValue.contains (.obj actual) (.obj filter)

def HasMembers (metadata : Option JsonRecord) (filter : Record) : Prop :=
  ∀ e ∈ filter, ∃ r, metadata = some r ∧ JsMap.lookup e.1 r.val = some e.2

section Readings

variable {json_extract : Option JsonRecord → String → SqlValue} {filter : Record}

theorem JsonRecord.json_of_lookup (r : JsonRecord) {key : String} {x : JsValue}
    (h : JsMap.lookup key r.val = some x) : x.isJson = true :=
  ((JsValue.isJson_obj_iff r.val).mp r.property).2 (key, x) (mem_of_lookup h)

theorem metadataConditions_iff (hsql : ExtractsMembers json_extract)
    (hkeys : ∀ e ∈ filter, PlainKey e.1) (hsame : ∀ e ∈ filter, SameInSql e.2) (row : WfRow) :
    metadataConditions json_extract filter row = true ↔ HasMembers row.metadata filter := by
  unfold metadataConditions HasMembers
  rw [all_eq_true]
  apply forall₂_congr
  intro e he
  rw [if_pos (hsame e he).compared]
  cases hmeta : row.metadata with
  | none => simp [hsql.absent, sqlEq]
  | some r =>
    rw [hsql.member r e.1 (hkeys e he)]
    cases hlookup : JsMap.lookup e.1 r.val with
    | none => simp [extracted, sqlEq, hlookup]
    | some x =>
      rw [sqlEq_extracted_iff (r.json_of_lookup hlookup) (hsame e he)]
      simp [hlookup]

theorem matches_iff (hsame : ∀ e ∈ filter, SameInSql e.2) (metadata : Option JsonRecord) :
    workflowMetadataMatches (recordOf metadata) filter = true ↔
      HasMembers metadata filter := by
  unfold workflowMetadataMatches HasMembers
  cases filter with
  | nil => simp
  | cons e₀ rest =>
    cases metadata with
    | none =>
      constructor
      · exact fun h => nomatch h
      · intro h
        obtain ⟨r, hr, -⟩ := h e₀ mem_cons_self
        exact nomatch hr
    | some r =>
      simp only [isEmpty_cons, Bool.false_eq_true, if_false, recordOf, all_eq_true]
      apply forall₂_congr
      intro e he
      rw [deepEqual_compared (hsame e he).compared]
      cases hlookup : JsMap.lookup e.1 r.val with
      | none =>
        have hne : JsValue.undefined ≠ e.2 := by
          intro heq
          have hsql := hsame e he
          rw [← heq] at hsql
          exact hsql
        simp [hlookup, hne]
      | some x => simp [hlookup]

theorem metadataContains_iff (hjson : ∀ e ∈ filter, e.2.isJson = true)
    (hsame : ∀ e ∈ filter, SameInSql e.2) (metadata : Option JsonRecord) :
    metadataContains (recordOf metadata) filter = true ↔ HasMembers metadata filter := by
  unfold metadataContains HasMembers
  cases metadata with
  | none =>
    cases filter with
    | nil => simp [recordOf]
    | cons e rest =>
      constructor
      · exact fun h => nomatch h
      · intro h
        obtain ⟨r, hr, -⟩ := h e mem_cons_self
        exact nomatch hr
  | some r =>
    simp only [recordOf, JsValue.contains, JsValue.containsMembers_iff]
    apply forall₂_congr
    intro e he
    cases hlookup : JsMap.lookup e.1 r.val with
    | none => simp [hlookup]
    | some x =>
      simp [hlookup, JsValue.contains_scalar (hsame e he).scalar (hjson e he)]

end Readings

/-! ## Where the readings agree -/

/-- Counting, listing, `workflowMetadataMatches` and containment agree on a table. -/
structure FilterAgrees (json_extract : Option JsonRecord → String → SqlValue) (p : ListParams)
    (rows : List WfRow) : Prop where
  counted : countWorkflows json_extract p rows = (listWorkflows json_extract p rows).length
  listed : listWorkflows json_extract p rows = rows.filter fun row =>
    columnConditions p row && workflowMetadataMatches (recordOf row.metadata) p.filter
  contained : ∀ row ∈ rows, workflowMetadataMatches (recordOf row.metadata) p.filter =
    metadataContains (recordOf row.metadata) p.filter

def rowFor (p : ListParams) (metadata : Option JsonRecord) : WfRow where
  workflowId := "w"
  workflowName := p.name.getD ""
  workflowType := p.type
  parentWorkflowId := p.parentId
  ns := p.ns
  status := p.status.getD .running
  version := p.version
  runSource := p.runSource
  runSourceId := p.runSourceId
  metadata := metadata

theorem columnConditions_rowFor (p : ListParams) (metadata : Option JsonRecord) :
    columnConditions p (rowFor p metadata) = true := by
  have hwanted : ∀ {α β : Type} [DecidableEq β] (encode : α → β) (wanted : Option α),
      columnEq encode wanted wanted = true := by
    intro α β _ encode wanted
    cases wanted <;> simp [columnEq]
  have htext : ∀ wanted : Option String, columnEq id (unlessEmpty wanted) wanted = true := by
    intro wanted
    cases wanted with
    | none => rfl
    | some s =>
      by_cases hs : s = ""
      · simp [unlessEmpty, columnEq, Option.filter_some, hs]
      · simp [unlessEmpty, columnEq, Option.filter_some, hs]
  have hstatus : columnEq id p.status (some (p.status.getD .running)) = true := by
    cases p.status <;> simp [columnEq]
  have hname : columnEq id (unlessEmpty p.name) (some (p.name.getD "")) = true := by
    cases hp : p.name with
    | none => rfl
    | some s => simpa [hp] using htext (some s)
  simp [columnConditions, rowFor, hwanted, htext, hstatus, hname]

private theorem confused {v : JsValue} (hjson : v.isJson = true) (hnull : v ≠ .null)
    (h : ¬ SameInSql v) :
    ∃ x : JsValue, x.isJson = true ∧ deepEqual x v = false ∧
      (comparedInSql v = true → sqlEq (extracted (some x)) (sqlValue v) = true) := by
  cases v with
  | undefined | date _ => exact nomatch hjson
  | null => exact absurd rfl hnull
  | bool b => exact ⟨.num (if b then 1 else 0), rfl, rfl, by simp [extracted, sqlValue, sqlEq]⟩
  | num n =>
    have hbit : n = 0 ∨ n = 1 := by
      by_contra hneither
      rw [not_or] at hneither
      exact h hneither
    cases hbit with
    | inl h0 => exact ⟨.bool false, rfl, rfl, by simp [extracted, sqlValue, sqlEq, h0]⟩
    | inr h1 => exact ⟨.bool true, rfl, rfl, by simp [extracted, sqlValue, sqlEq, h1]⟩
  | str s =>
    simp only [SameInSql, not_forall, not_not] at h
    obtain ⟨c, hc, hcontainer, htext⟩ := h
    cases c with
    | arr items => exact ⟨.arr items, hc, rfl, by simp [extracted, sqlValue, sqlEq, htext]⟩
    | obj members => exact ⟨.obj members, hc, rfl, by simp [extracted, sqlValue, sqlEq, htext]⟩
    | _ => exact nomatch hcontainer
  | arr items | obj members => exact ⟨.null, rfl, rfl, fun hcompared => nomatch hcompared⟩

section Agreement

variable {json_extract : Option JsonRecord → String → SqlValue} {p : ListParams}

private theorem filter_json (p : ListParams) :
    (p.filter.map Prod.fst).Nodup ∧ ∀ e ∈ p.filter, e.2.isJson = true := by
  unfold ListParams.filter
  cases p.metadata with
  | none => simp [recordOf]
  | some r => exact (JsValue.isJson_obj_iff r.val).mp r.property

theorem filters_agree (hsql : ExtractsMembers json_extract)
    (hkeys : ∀ e ∈ p.filter, PlainKey e.1) (hsame : ∀ e ∈ p.filter, SameInSql e.2)
    (rows : List WfRow) : FilterAgrees json_extract p rows := by
  have hread : ∀ row : WfRow, metadataConditions json_extract p.filter row =
      workflowMetadataMatches (recordOf row.metadata) p.filter := by
    intro row
    rw [Bool.eq_iff_iff, metadataConditions_iff hsql hkeys hsame, matches_iff hsame]
  have hnone : p.filter.any (fun e => !comparedInSql e.2) = false := by
    rw [any_eq_false]
    intro e he
    simp [(hsame e he).compared]
  have hlisted : listWorkflows json_extract p rows = selected json_extract p rows := by
    simp only [listWorkflows, hnone, Bool.false_eq_true, if_false]
  refine ⟨by rw [hlisted]; rfl, ?_, fun row _ => ?_⟩
  · rw [hlisted]
    apply filter_congr
    intro row _
    rw [hread]
  · rw [Bool.eq_iff_iff, matches_iff hsame, metadataContains_iff (filter_json p).2 hsame]

private theorem disagree_of_null {e : String × JsValue} (he : e ∈ p.filter) (hnull : e.2 = .null) :
    ¬ FilterAgrees json_extract p [rowFor p p.metadata] := by
  intro hagrees
  have hlisted := hagrees.listed
  have hselected : selected json_extract p [rowFor p p.metadata] = [] := by
    have hfalse : metadataConditions json_extract p.filter (rowFor p p.metadata) = false := by
      unfold metadataConditions
      rw [all_eq_false]
      refine ⟨e, he, ?_⟩
      rw [hnull]
      cases json_extract (rowFor p p.metadata).metadata (jsonPathFor e.1) <;>
        simp [comparedInSql, sqlValue, sqlEq]
    simp [selected, hfalse]
  have hempty : listWorkflows json_extract p [rowFor p p.metadata] = [] := by
    simp [listWorkflows, hselected]
  have hmatches :
      workflowMetadataMatches (recordOf (rowFor p p.metadata).metadata) p.filter = true := by
    obtain ⟨hnodup, hjson⟩ := filter_json p
    cases hmeta : p.metadata with
    | none => simp [ListParams.filter, hmeta, recordOf] at he
    | some r =>
      have hfilter : p.filter = r.val := by simp [ListParams.filter, hmeta, recordOf]
      rw [hfilter] at hnodup hjson ⊢
      simp only [rowFor, recordOf, workflowMetadataMatches]
      split
      · rfl
      · rw [all_eq_true]
        intro e' he'
        rw [lookup_of_mem hnodup he', Option.getD_some]
        exact deepEqual_refl e'.2 (hjson e' he')
  rw [hempty] at hlisted
  simp [columnConditions_rowFor, hmatches] at hlisted

private theorem sqlEq_extracted {value : JsValue} (hnull : value ≠ .null)
    (hcompared : comparedInSql value = true) :
    sqlEq (extracted (some value)) (sqlValue value) = true := by
  cases value <;> simp_all [extracted, sqlValue, sqlEq, comparedInSql]

private theorem disagree_of_confused (hsql : ExtractsMembers json_extract)
    (hkeys : ∀ e ∈ p.filter, PlainKey e.1) (hnull : ∀ e ∈ p.filter, e.2 ≠ .null)
    {k : String} {v : JsValue} (he : (k, v) ∈ p.filter) (hv : ¬ SameInSql v) :
    ∃ rows, ¬ FilterAgrees json_extract p rows := by
  obtain ⟨hnodup, hjson⟩ := filter_json p
  obtain ⟨x, hx, hdiffers, hcompares⟩ := confused (hjson _ he) (hnull _ he) hv
  have hother : JsValue.isJson (.obj (JsMap.upsert k x p.filter)) = true := by
    rw [JsValue.isJson_obj_iff]
    refine ⟨nodup_upsert k x hnodup, fun e hmem => ?_⟩
    have hlookup := lookup_of_mem (nodup_upsert k x hnodup) hmem
    rw [lookup_upsert] at hlookup
    split at hlookup
    · cases hlookup
      exact hx
    · exact hjson _ (mem_of_lookup hlookup)
  let row := rowFor p (some ⟨JsMap.upsert k x p.filter, hother⟩)
  have hconditions : metadataConditions json_extract p.filter row = true := by
    unfold metadataConditions
    rw [all_eq_true]
    intro e hmem
    split
    · rename_i hcompared
      show sqlEq (json_extract (some ⟨JsMap.upsert k x p.filter, hother⟩) (jsonPathFor e.1))
        (sqlValue e.2) = true
      rw [hsql.member _ e.1 (hkeys e hmem), lookup_upsert]
      split
      · rename_i hkey
        have hev : e.2 = v := by
          have hfirst := lookup_of_mem hnodup hmem
          have hsecond := lookup_of_mem hnodup he
          rw [hkey] at hsecond
          exact Option.some.inj (hfirst.symm.trans hsecond)
        rw [hev] at hcompared ⊢
        exact hcompares hcompared
      · rw [lookup_of_mem hnodup hmem]
        exact sqlEq_extracted (hnull e hmem) hcompared
    · rfl
  have hmismatch : workflowMetadataMatches (recordOf row.metadata) p.filter = false := by
    have hnonempty : p.filter.isEmpty = false := by
      cases hf : p.filter with
      | nil =>
        rw [hf] at he
        exact absurd he not_mem_nil
      | cons e rest => rfl
    simp only [workflowMetadataMatches, hnonempty, Bool.false_eq_true, if_false, row, rowFor,
      recordOf]
    rw [all_eq_false]
    refine ⟨(k, v), he, ?_⟩
    simp [lookup_upsert, hdiffers]
  refine ⟨[row], fun hagrees => ?_⟩
  have hcolumns : columnConditions p row = true := columnConditions_rowFor p _
  have hcount := hagrees.counted
  rw [hagrees.listed] at hcount
  simp [countWorkflows, selected, hcolumns, hconditions, hmismatch] at hcount

/-- The filters on which counting, listing, `workflowMetadataMatches` and containment agree for
every table. -/
theorem filters_agree_iff (hsql : ExtractsMembers json_extract)
    (hkeys : ∀ e ∈ p.filter, PlainKey e.1) :
    (∀ rows, FilterAgrees json_extract p rows) ↔ ∀ e ∈ p.filter, SameInSql e.2 := by
  constructor
  · intro hagrees e he
    by_contra hv
    by_cases hnull : ∃ e' ∈ p.filter, e'.2 = .null
    · obtain ⟨e', he', hnull⟩ := hnull
      exact disagree_of_null he' hnull (hagrees _)
    · have hnonnull : ∀ e' ∈ p.filter, e'.2 ≠ .null := fun e' he' heq => hnull ⟨e', he', heq⟩
      obtain ⟨rows, hrows⟩ := disagree_of_confused hsql hkeys hnonnull he hv
      exact hrows (hagrees rows)
  · exact fun hsame rows => filters_agree hsql hkeys hsame rows

end Agreement

/-! ## A reader of paths -/

def keyOfPath (path : String) : String :=
  match path.toList.drop 2 with
  | '"' :: label => String.ofList label.dropLast
  | label => String.ofList label

def extractMember (metadata : Option JsonRecord) (path : String) : SqlValue :=
  match metadata with
  | none => .null
  | some r => extracted (JsMap.lookup (keyOfPath path) r.val)

theorem keyOfPath_jsonPathFor {key : String} (h : PlainKey key) :
    keyOfPath (jsonPathFor key) = key := by
  unfold jsonPathFor
  by_cases hbare : isBareKey key = true
  · -- A bare key does not begin with a quotation mark.
    rw [if_pos hbare]
    have hdrop : ("$." ++ key).toList.drop 2 = key.toList := by simp
    unfold keyOfPath
    rw [hdrop]
    cases hkey : key.toList with
    | nil => simp [isBareKey, hkey] at hbare
    | cons c rest =>
      have hc : c ≠ '"' := by
        intro heq
        simp [isBareKey, hkey, heq] at hbare
      split
      · rename_i heq
        cases heq
        exact absurd rfl hc
      · rw [← hkey, String.ofList_toList]
  · rw [if_neg hbare]
    have hplain : (key.toList.map fun c => if c = '"' then "\"\"" else String.singleton c) =
        key.toList.map String.singleton := by
      apply map_congr_left
      intro c hc
      have hcode := h c hc
      rw [if_neg]
      intro heq
      rw [heq] at hcode
      exact absurd hcode (by decide)
    have hjoin : String.join (key.toList.map String.singleton) = key := by
      apply String.toList_inj.mp
      rw [String.toList_join, flatMap_map]
      simp
    rw [hplain, hjoin]
    have hdrop : ("$.\"" ++ key ++ "\"").toList.drop 2 = '"' :: (key.toList ++ ['"']) := by simp
    unfold keyOfPath
    rw [hdrop]
    simp

theorem extractMember_extracts : ExtractsMembers extractMember where
  absent := fun _ => rfl
  member := by
    intro r key hkey
    simp only [extractMember, keyOfPath_jsonPathFor hkey]

def numberFilter : ListParams where
  metadata := some ⟨[("n", .num 7)], by decide⟩

/-- Of a row without metadata, one with another number and one with the number, the last one. -/
theorem filters_agree_iff_number :
    let row (metadata : Option JsonRecord) := rowFor numberFilter metadata
    let rows := [row none, row (some ⟨[("n", .num 8)], by decide⟩),
      row (some ⟨[("n", .num 7), ("m", .null)], by decide⟩)]
    countWorkflows extractMember numberFilter rows = 1 ∧
      FilterAgrees extractMember numberFilter rows := by
  intro row rows
  have hkeys : ∀ e ∈ numberFilter.filter, PlainKey e.1 := by
    intro e he
    rw [mem_singleton.mp he]
    intro c hc
    have hn : c = 'n' := mem_singleton.mp hc
    rw [hn]
    decide
  have hsame : ∀ e ∈ numberFilter.filter, SameInSql e.2 := by
    intro e he
    rw [mem_singleton.mp he]
    exact ⟨by decide, by decide⟩
  exact ⟨by decide +kernel, (filters_agree_iff extractMember_extracts hkeys).mpr hsame rows⟩

/-- An object in the filter is left out of the count, and must be equal where `@>` asks for its
members only. -/
theorem object_filter_counterexample :
    let p : ListParams := { metadata := some ⟨[("a", .obj [("b", .num 1)])], by decide⟩ }
    let row := rowFor p (some ⟨[("a", .obj [("b", .num 1), ("c", .num 2)])], by decide⟩)
    countWorkflows extractMember p [row] = 1 ∧ (listWorkflows extractMember p [row]).length = 0 ∧
      workflowMetadataMatches (recordOf row.metadata) p.filter = false ∧
      metadataContains (recordOf row.metadata) p.filter = true := by
  decide +kernel

end Promin.Durable
