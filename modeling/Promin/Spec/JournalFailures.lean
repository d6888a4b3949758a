import Promin.Durable.JournalFailure

/-!
# Journaled failures on replay

An `Error` comes back from the journal with its tag, name, message and the
enumerable fields that can be encoded, and the runner classifies it as before.
-/

namespace Promin.Durable

open JsMap JournalExit ErrorValue

variable {V : Type}

/-- `LosslessJsonCodec` and `TaggedError` as they are documented: a record of values that can be
encoded is encoded as JSON and decodes to itself, strings can be encoded, and an engine error
has the tag of its class, also as its name, and the message and the fields it is built from. -/
structure LawfulRuntime (rt : ErrorRuntime V) : Prop where
  encodes : ∀ fields, (rt.encode fields).isSome ↔
    ∀ key value, fields.get key = some value → (rt.encodeValue value).isSome
  json : ∀ fields data, rt.encode fields = some data → data.isJson = true
  lossless : ∀ fields data, rt.encode fields = some data → rt.decode data = some fields
  text : ∀ value s, rt.text value = some s → (rt.encodeValue value).isSome
  construct : ∀ tag ∈ knownTaggedErrors, ∀ fields message,
    (∀ key value, fields.get key = some value → key ∉ reservedErrorKeys) →
    let e := rt.construct tag fields message
    e.tag = some tag ∧ e.name = tag ∧ e.message = message ∧
      (e.fields.filter fun key _ => !reservedErrorKeys.contains key) = fields ∧
      e.terminal = (tag == "TerminalError") ∧ e.retryable = (tag == "RetryableError")

/-- The own enumerable fields that can be encoded, the reserved ones aside. -/
def keptFields (rt : ErrorRuntime V) (e : ErrorValue V) : JsMap String V :=
  (e.fields.filter fun key _ => !reservedErrorKeys.contains key).filter
    fun _ value => (rt.encodeValue value).isSome

/-! ## Fields -/

section Fields

variable {rt : ErrorRuntime V}

private theorem filter_eq_of_all {m : JsMap String V} {p : String → V → Bool}
    (h : ∀ key value, m.get key = some value → p key value = true) : m.filter p = m := by
  apply ext
  simp only [filter, List.filter_eq_self]
  intro e he
  exact h e.1 e.2 ((mem_entries_iff m e.1 e.2).mp he)

private theorem eq_empty_of_size {m : JsMap String V} (h : m.size = 0) : m = empty := by
  apply ext
  exact List.length_eq_zero_iff.mp h

private theorem filter_get {m : JsMap String V} {p : String → V → Bool} {key : String} {value : V}
    (h : (m.filter p).get key = some value) : m.get key = some value ∧ p key value = true := by
  rw [get_filter] at h
  exact Option.filter_eq_some_iff.mp h

theorem keptFields_get {e : ErrorValue V} {key : String} {value : V}
    (h : (keptFields rt e).get key = some value) :
    key ∉ reservedErrorKeys ∧ (rt.encodeValue value).isSome = true := by
  obtain ⟨hfirst, hencodes⟩ := filter_get h
  obtain ⟨-, hkey⟩ := filter_get hfirst
  exact ⟨by simpa using hkey, hencodes⟩

theorem decodeErrorFields_encode (h : LawfulRuntime rt) (e : ErrorValue V) :
    decodeErrorFields rt (encodeErrorFields rt e) = keptFields rt e ∧
      ∀ data, encodeErrorFields rt e = some data → data.isJson = true := by
  unfold encodeErrorFields keptFields
  generalize e.fields.filter (fun key _ => !reservedErrorKeys.contains key) = fields
  simp only
  by_cases hsize : fields.size = 0
  · -- No field is there to encode.
    rw [if_pos hsize, eq_empty_of_size hsize]
    exact ⟨rfl, fun _ hdata => nomatch hdata⟩
  · rw [if_neg hsize]
    cases hencode : rt.encode fields with
    | some data =>
      have hall := (h.encodes fields).mp (by rw [hencode]; rfl)
      have hkept : fields.filter (fun _ value => (rt.encodeValue value).isSome) = fields :=
        filter_eq_of_all hall
      refine ⟨?_, fun data' hdata => ?_⟩
      · simp [decodeErrorFields, h.lossless fields data hencode, hkept]
      · cases hdata
        exact h.json fields data hencode
    | none =>
      simp only
      have hencodes : ∀ key value,
          (fields.filter fun _ value => (rt.encodeValue value).isSome).get key = some value →
          (rt.encodeValue value).isSome := fun key value hget => (filter_get hget).2
      generalize fields.filter (fun _ value => (rt.encodeValue value).isSome) = kept at hencodes ⊢
      by_cases hkept : 0 < kept.size
      · rw [if_pos hkept]
        obtain ⟨data, hdata⟩ := Option.isSome_iff_exists.mp ((h.encodes kept).mpr hencodes)
        rw [hdata]
        refine ⟨by simp [decodeErrorFields, h.lossless kept data hdata], fun data' heq => ?_⟩
        cases heq
        exact h.json kept data hdata
      · have hnone : kept.size = 0 := by omega
        rw [if_neg hkept, eq_empty_of_size hnone]
        exact ⟨rfl, fun _ hdata => nomatch hdata⟩

end Fields

private theorem toJs_failure (error : String) (errorTag errorName : Option String)
    (errorData : Option JsValue) :
    (failure error errorTag errorName errorData).toJs =
      .obj ([("tag", .str "Failure"), ("error", .str error)] ++
        (errorTag.map fun s => ("errorTag", JsValue.str s)).toList ++
        (errorName.map fun s => ("errorName", JsValue.str s)).toList ++
        (errorData.map fun data => ("errorData", data)).toList) := by
  cases errorTag <;> cases errorName <;> cases errorData <;> rfl

theorem ofJs_parsed (error : String) (errorTag errorName : Option String)
    {errorData : Option JsValue} (hdata : ∀ data, errorData = some data → data.isJson = true) :
    ofJs (JsValue.parsed
      (failure error errorTag errorName errorData).toJs) =
      some (.failure error errorTag errorName errorData) := by
  have hjson : (toJs (.failure error errorTag errorName errorData)).isJson = true := by
    rw [toJs_failure]
    cases errorTag <;> cases errorName <;> cases errorData <;>
      simp_all [JsValue.isJson, JsValue.isJsonMembers]
  rw [JsValue.parsed_of_isJson _ hjson, toJs_failure]
  cases errorTag <;> cases errorName <;> cases errorData <;>
    simp [ofJs, textMember, lookup]

/-! ## Rebuilding -/

section Replay

variable {rt : ErrorRuntime V}

/-- The error is a `TerminalError` or a `RetryableError` when its tag says so. -/
def ClassByTag (e : ErrorValue V) : Prop :=
  e.terminal = (e.tag == some "TerminalError") ∧ e.retryable = (e.tag == some "RetryableError")

theorem errorTagOf_eq (h : LawfulRuntime rt) (e : ErrorValue V) :
    errorTagOf rt (.error e) =
      if e.tag = some "StepError" then
        (((keptFields rt e).get "errorTag").bind rt.text).or e.tag
      else e.tag := by
  -- A value that reads as a string is kept.
  have hread : ((keptFields rt e).get "errorTag").bind rt.text =
      (e.fields.get "errorTag").bind rt.text := by
    have hkey : (!reservedErrorKeys.contains "errorTag") = true := by decide
    simp only [keptFields, get_filter]
    cases hget : e.fields.get "errorTag" with
    | none => rfl
    | some value =>
      simp only [Option.filter_some, hkey, if_true]
      cases htext : rt.text value with
      | none => split <;> simp [htext]
      | some s => simp [h.text value s htext, htext]
  rw [hread]
  rfl

theorem classify_congr (h : LawfulRuntime rt) {e e' : ErrorValue V} (htag : e'.tag = e.tag)
    (hfields : keptFields rt e' = keptFields rt e) (hclass : ClassByTag e)
    (hclass' : ClassByTag e') : classify rt (.error e') = classify rt (.error e) := by
  have hstored : errorTagOf rt (.error e') = errorTagOf rt (.error e) := by
    rw [errorTagOf_eq h e', errorTagOf_eq h e, htag, hfields]
  obtain ⟨hterminal, hretryable⟩ := hclass
  obtain ⟨hterminal', hretryable'⟩ := hclass'
  simp only [classify, Raised.thrown, isControlFlowExit, isAbandonRunExit, Thrown.tag, hstored,
    hterminal, hretryable, hterminal', hretryable', htag]

theorem keptFields_of_kept {e : ErrorValue V}
    (hkept : ∀ key value, e.fields.get key = some value →
      key ∉ reservedErrorKeys ∧ (rt.encodeValue value).isSome = true) :
    keptFields rt e = e.fields := by
  have hreserved : (e.fields.filter fun key _ => !reservedErrorKeys.contains key) = e.fields :=
    filter_eq_of_all fun key value hget => by simpa using (hkept key value hget).1
  rw [keptFields, hreserved]
  exact filter_eq_of_all fun key value hget => (hkept key value hget).2

theorem rehydrateFailure_tagged (h : LawfulRuntime rt) (error tag : String)
    (errorName : Option String) (errorData : Option JsValue)
    (hkept : ∀ key value, (decodeErrorFields rt errorData).get key = some value →
      key ∉ reservedErrorKeys ∧ (rt.encodeValue value).isSome = true) :
    ∃ e', rehydrateFailure rt error (some tag) errorName errorData = .ok (.error e') ∧
      e'.tag = some tag ∧ e'.name = tag ∧ e'.message = error ∧
      keptFields rt e' = decodeErrorFields rt errorData ∧ ClassByTag e' := by
  simp only [rehydrateFailure]
  by_cases hknown : knownTaggedErrors.contains tag = true
  · rw [if_pos hknown]
    have hlaws := h.construct tag (by simpa using hknown) (decodeErrorFields rt errorData) error
      fun key value hget => (hkept key value hget).1
    obtain ⟨htag, hname, hmessage, hfields, hterminal, hretryable⟩ := hlaws
    refine ⟨_, rfl, htag, hname, hmessage, ?_, ?_⟩
    · rw [keptFields, hfields]
      exact filter_eq_of_all fun key value hget => (hkept key value hget).2
    · simp only [ClassByTag, htag, hterminal, hretryable]
      exact ⟨rfl, rfl⟩
  · rw [if_neg hknown]
    -- `TerminalError` and `RetryableError` are engine classes.
    have hterminal : tag ≠ "TerminalError" := by
      intro heq
      rw [heq] at hknown
      exact hknown (by decide)
    have hretryable : tag ≠ "RetryableError" := by
      intro heq
      rw [heq] at hknown
      exact hknown (by decide)
    exact ⟨_, rfl, rfl, rfl, rfl, keptFields_of_kept hkept,
      by simp [ClassByTag, hterminal, hretryable]⟩

theorem rehydrateFailure_untagged (rt : ErrorRuntime V) (error : String)
    (errorName : Option String) (errorData : Option JsValue)
    (hname : ∀ name, errorName = some name → name ≠ "constructor" ∧ name ∉ inheritedNames) :
    rehydrateFailure rt error none errorName errorData = .ok (.error
      (.untagged (errorName.getD "Error") error (decodeErrorFields rt errorData))) := by
  cases errorName with
  | none => rfl
  | some name =>
    obtain ⟨hconstructor, hinherited⟩ := hname name rfl
    simp only [rehydrateFailure, Option.getD_some]
    split
    · rfl
    · rw [if_neg (by simpa using hinherited)]

/-! ## What comes back -/

/-- The name is not one that a lookup on a plain object finds. -/
def Rebuilds (e : ErrorValue V) : Prop :=
  e.tag = none → e.name ≠ "constructor" ∧ e.name ∉ inheritedNames

def NameKept (e : ErrorValue V) : Prop :=
  match e.tag with
  | some tag => e.name = tag
  | none => e.name ≠ ""

/-- What a replay keeps of an `Error`. -/
structure SameFailure (rt : ErrorRuntime V) (e e' : ErrorValue V) : Prop where
  tag : e'.tag = e.tag
  message : e'.message = e.message
  fields : keptFields rt e' = keptFields rt e
  name : NameKept e → e'.name = e.name
  classified : ClassByTag e → classify rt (.error e') = classify rt (.error e)

/-- A thrown value comes back from the journal as the same failure. -/
def SurvivesStorage (rt : ErrorRuntime V) : Raised V → Prop
  | .error e => Rebuilds e →
    ∃ e', replayed rt (.error e) = .ok (.error e') ∧ SameFailure rt e e'
  | .record tag message errorTag printed =>
    ∃ e', replayed rt (.record tag message errorTag printed) = .ok (.error e') ∧
      e'.tag = tag ∧ e'.message = message.getD printed ∧
      isControlFlowExit (Raised.error e').thrown = isControlFlowExit (.other printed tag) ∧
      isAbandonRunExit (Raised.error e').thrown = isAbandonRunExit (.other printed tag) ∧
      errorTagOf rt (.error e') = tag
  | .array tag printed =>
    ∃ e', replayed rt (.array tag printed) = .ok (.error e') ∧ e'.tag = none ∧ e'.message = printed
  | .primitive printed =>
    ∃ e', replayed rt (.primitive printed) = .ok (.error e') ∧ e'.message = printed ∧
      classify rt (.error e') = classify rt (.primitive printed)

private theorem replayed_eq (err : Raised V) {error : String} {errorTag errorName : Option String}
    {errorData : Option JsValue}
    (hexit : failureExit rt err = .failure error errorTag errorName errorData)
    (hdata : ∀ data, errorData = some data → data.isJson = true) :
    replayed rt err = rehydrateFailure rt error errorTag errorName errorData := by
  rw [replayed, hexit, ofJs_parsed error errorTag errorName hdata]

private theorem json_of_none (data : JsValue) (hdata : (none : Option JsValue) = some data) :
    data.isJson = true := nomatch hdata

private theorem error_survives (h : LawfulRuntime rt) (e : ErrorValue V) (hrebuilds : Rebuilds e) :
    ∃ e', replayed rt (.error e) = .ok (.error e') ∧ SameFailure rt e e' := by
  obtain ⟨hfields, hjson⟩ := decodeErrorFields_encode h e
  have hkept : ∀ key value, (decodeErrorFields rt (encodeErrorFields rt e)).get key = some value →
      key ∉ reservedErrorKeys ∧ (rt.encodeValue value).isSome = true := by
    intro key value hget
    rw [hfields] at hget
    exact keptFields_get hget
  rw [replayed_eq (.error e) rfl hjson]
  cases htag : e.tag with
  | some tag =>
    obtain ⟨e', hback, htag', hname, hmessage, hfields', hclass⟩ :=
      rehydrateFailure_tagged h e.message tag
        (if e.tag.isNone && e.name != "" && e.name != "Error" then some e.name else none)
        (encodeErrorFields rt e) hkept
    have hsame : keptFields rt e' = keptFields rt e := by rw [hfields', hfields]
    rw [htag] at hback
    refine ⟨e', hback, by rw [htag', htag], hmessage, hsame, ?_, ?_⟩
    · intro hkeeps
      rw [NameKept, htag] at hkeeps
      rw [hname, hkeeps]
    · intro hclass'
      exact classify_congr h (by rw [htag', htag]) hsame hclass' hclass
  | none =>
    have hrebuilt := rehydrateFailure_untagged rt e.message
      (if e.tag.isNone && e.name != "" && e.name != "Error" then some e.name else none)
      (encodeErrorFields rt e) (by
        intro name hname
        split at hname
        · cases hname
          exact hrebuilds htag
        · exact nomatch hname)
    rw [htag] at hrebuilt
    refine ⟨_, hrebuilt, htag.symm, rfl, ?_, ?_, ?_⟩
    · rw [keptFields_of_kept hkept, untagged, hfields]
    · intro hkeeps
      rw [NameKept, htag] at hkeeps
      -- The name `Error` is not stored, it is the one that comes back without one.
      by_cases herror : e.name = "Error"
      · simp [untagged, herror]
      · simp [untagged, herror, hkeeps]
    · intro hclass
      refine classify_congr h htag.symm ?_ hclass ⟨rfl, rfl⟩
      rw [keptFields_of_kept hkept, untagged, hfields]

private theorem record_survives (h : LawfulRuntime rt) (tag message errorTag : Option String)
    (printed : String) :
    ∃ e', replayed rt (.record tag message errorTag printed) = .ok (.error e') ∧
      e'.tag = tag ∧ e'.message = message.getD printed ∧ errorTagOf rt (.error e') = tag := by
  have hempty : ∀ key value, (decodeErrorFields rt none).get key = some value →
      key ∉ reservedErrorKeys ∧ (rt.encodeValue value).isSome = true :=
    fun _ _ hget => by cases hget
  rw [replayed_eq (.record tag message errorTag printed) rfl json_of_none]
  cases tag with
  | some tag =>
    obtain ⟨e', hback, htag, -, hmessage, hfields, -⟩ :=
      rehydrateFailure_tagged h (message.getD printed) tag none none hempty
    refine ⟨e', hback, htag, hmessage, ?_⟩
    -- Nothing is stored of an `errorTag` field.
    rw [errorTagOf_eq h, hfields, htag]
    split <;> rfl
  | none =>
    rw [rehydrateFailure_untagged rt (message.getD printed) none none fun _ hname => by cases hname]
    exact ⟨_, rfl, rfl, rfl, rfl⟩

/-- Journaled failures survive storage. -/
theorem failures_survive_storage (h : LawfulRuntime rt) (err : Raised V) :
    SurvivesStorage rt err := by
  cases err with
  | error e => exact error_survives h e
  | record tag message errorTag printed =>
    obtain ⟨e', hback, htag, hmessage, hstored⟩ := record_survives h tag message errorTag printed
    refine ⟨e', hback, htag, hmessage, ?_, ?_, hstored⟩
    · simp only [isControlFlowExit, Raised.thrown, Thrown.tag, htag]
    · simp only [isAbandonRunExit, Raised.thrown, Thrown.tag, htag]
  | array tag printed =>
    rw [SurvivesStorage, replayed_eq (.array tag printed) rfl json_of_none,
      rehydrateFailure_untagged rt printed none none fun _ hname => by cases hname]
    exact ⟨_, rfl, rfl, rfl⟩
  | primitive printed =>
    rw [SurvivesStorage, replayed_eq (.primitive printed) rfl json_of_none,
      rehydrateFailure_untagged rt printed none none fun _ hname => by cases hname]
    exact ⟨_, rfl, rfl, rfl⟩

end Replay

/-! ## Errors whose fields are JSON -/

def jsonErrors : ErrorRuntime JsValue where
  encodeValue value := if value.isJson then some value else none
  encode fields :=
    if fields.entries.all fun e => e.2.isJson then some (.obj fields.entries) else none
  decode
    | .obj members => if h : (members.map Prod.fst).Nodup then some ⟨members, h⟩ else none
    | _ => none
  text
    | .str s => some s
    | _ => none
  construct tag fields message := {
    tag := some tag, name := tag, message := message, fields := fields
    hidden := empty
    terminal := tag == "TerminalError", retryable := tag == "RetryableError" }

theorem jsonErrors_lawful : LawfulRuntime jsonErrors where
  encodes fields := by
    have hall : (fields.entries.all fun e => e.2.isJson) = true ↔
        ∀ key value, fields.get key = some value → value.isJson = true := by
      rw [List.all_eq_true]
      constructor
      · intro h key value hget
        exact h (key, value) ((fields.mem_entries_iff key value).mpr hget)
      · intro h e he
        exact h e.1 e.2 ((fields.mem_entries_iff e.1 e.2).mp he)
    simpa [jsonErrors] using hall
  json fields data hdata := by
    simp only [jsonErrors] at hdata
    split at hdata
    · rename_i hall
      cases hdata
      exact (JsValue.isJson_obj_iff _).mpr ⟨fields.nodup, by simpa using hall⟩
    · cases hdata
  lossless fields data hdata := by
    simp only [jsonErrors] at hdata
    split at hdata
    · cases hdata
      simp [jsonErrors, fields.nodup]
    · cases hdata
  text value s hs := by
    cases value <;> simp_all [jsonErrors, JsValue.isJson]
  construct tag _ fields message hfields := by
    refine ⟨rfl, rfl, rfl, ?_, rfl, rfl⟩
    exact filter_eq_of_all fun key value hget => by simpa using hfields key value hget

/-- A `StepError` from an executor comes back with the tag the executor reported. -/
theorem failures_survive_storage_stepError :
    SurvivesStorage jsonErrors (.error {
      tag := some "StepError", name := "StepError", message := "card declined"
      fields := empty.set "errorTag" (.str "CardDeclined")
      hidden := empty, terminal := false, retryable := false }) :=
  failures_survive_storage jsonErrors_lawful _

/-- An error with a tag but without a name of its own, and a cause. -/
private def divergedError : ErrorValue JsValue where
  tag := some "JournalNonDeterminismError"
  name := "Error"
  message := "diverged"
  fields := empty
  hidden := empty.set "cause" (.str "renamed")
  terminal := false
  retryable := false

/-- An object that is no `Error` is stored without its fields: the tag that is stored on the run
for it is another one on replay. A cause is not stored, nor is a name beside a tag. -/
theorem stored_failure_counterexample :
    (¬ ∀ err : Raised JsValue, ∃ back, replayed jsonErrors err = .ok back ∧
      classify jsonErrors back = classify jsonErrors err) ∧
    (¬ ∀ e : ErrorValue JsValue, ∃ e', replayed jsonErrors (.error e) = .ok (.error e') ∧
      e'.hidden.get "cause" = e.hidden.get "cause") ∧
    (¬ ∀ e : ErrorValue JsValue, ∃ e', replayed jsonErrors (.error e) = .ok (.error e') ∧
      e'.name = e.name) := by
  refine ⟨fun h => ?_, fun h => ?_, fun h => ?_⟩
  · obtain ⟨back, hback, hsame⟩ :=
      h (.record (some "StepError") none (some "CardDeclined") "[object Object]")
    have hstored : (classify jsonErrors back).storedTag = some "StepError" := by
      cases hback
      decide
    rw [hsame] at hstored
    exact absurd hstored (by decide)
  · obtain ⟨e', hback, hcause⟩ := h divergedError
    cases hback
    exact nomatch hcause
  · obtain ⟨e', hback, hname⟩ := h divergedError
    cases hback
    exact absurd hname (by decide)

end Promin.Durable
