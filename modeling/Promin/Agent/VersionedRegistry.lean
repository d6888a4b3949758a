import Mathlib.Data.String.Basic
import Promin.ForStd.JsMap
import Promin.ForStd.Machine
import Promin.Shared.JsValue

/-!
# The versioned registry

`InMemoryVersionedRegistry`: one head per id (active pointer, activation
history, kill switch, next sequence number) over a map of immutable versions.
-/

namespace Promin.Agent

/-! ## Entries, kinds and errors -/

inductive VersionTrust where
  | trusted
  | needsReview

/-- A stored version: the kind's body plus the store-assigned fields. -/
structure Versioned where
  id : String
  version : String
  createdAt : Int
  active : Bool
  enabled : Bool
  trust : VersionTrust
  source : Option String
  body : JsValue

/-- Facets a filter requires and excludes. -/
structure FacetQuery where
  «include» : List String
  exclude : List String

structure RegistryKind (Filter : Type) where
  name : String
  /-- Normalise and validate an input body, or reject it with a message. -/
  prepare : (id : String) → (input : JsValue) → Except String JsValue
  facets : (id : String) → (body : JsValue) → List String
  query : Filter → FacetQuery

inductive RegistryConflictCode where
  | versionConflict
  | activeMismatch

/-- What a registry call throws. -/
inductive RegistryError where
  /-- A malformed input, or what `prepare` threw. -/
  | input (message : String)
  | conflict (code : RegistryConflictCode) (kind id : String) (version actual : Option String)
  | notFound (kind id : String) (version : Option String)
  /-- A field of a missing row is read. -/
  | typeError

def versionText (version : Option String) : String := version.getD "null"

def RegistryError.message : RegistryError → String
  | .input message => message
  | .conflict .versionConflict kind id version _ =>
    kind ++ " \"" ++ id ++ "@" ++ versionText version ++
      "\" already exists with different content; register a new version"
  | .conflict .activeMismatch kind id version actual =>
    kind ++ " \"" ++ id ++ "\": expected active version " ++ versionText version ++ ", found " ++
      versionText actual
  | .notFound kind id version =>
    kind ++ " \"" ++ id ++ (version.map ("@" ++ ·)).getD "" ++ "\" is not registered"
  | .typeError => "TypeError"

/-! ## Inputs -/

/-- `register` input: the kind's input body plus the options. -/
structure RegisterVersionInput where
  id : String
  input : JsValue
  version : Option String := none
  promote : Bool := false
  /-- The id's active version must still be this; `some none` is `null`. -/
  expectedActive : Option (Option String) := none
  source : Option String := none
  trust : Option VersionTrust := none
  enabled : Option Bool := none

structure ListVersionedParams (Filter : Type) where
  filter : Option Filter := none
  enabled : Option Bool := none
  source : Option String := none
  limit : Option Int := none

structure VersionedPage where
  items : List Versioned
  nextCursor : Option String

/-! ## Helpers every backend shares -/

/-- `VERSION_PATTERN`: a letter or digit, then up to 63 letters, digits, `.`, `_`, `-`. -/
def versionPattern (version : String) : Bool :=
  match version.toList with
  | [] => false
  | first :: rest =>
    first.isAlphanum && decide (rest.length ≤ 63) &&
      rest.all fun c => c.isAlphanum || c == '.' || c == '_' || c == '-'

/-- Throw unless `version` is a valid label. -/
def assertVersionLabel (version : String) : Except RegistryError Unit :=
  if versionPattern version then .ok ()
  else .error (.input ("version \"" ++ version ++
    "\" must start with a letter or digit and contain only letters, digits, \".\", \"_\" " ++
    "and \"-\" (max 64)"))

/-- Throw unless a `list` page size is a positive integer. -/
def assertListLimit (limit : Option Int) : Except RegistryError (Option Nat) :=
  match limit with
  | none => .ok none
  | some n =>
    if n < 1 then .error (.input ("list limit must be a positive integer, got " ++ toString n))
    else .ok (some n.toNat)

/-- A register input's body, normalised and validated, with its hash. -/
structure PreparedRegister where
  body : JsValue
  hash : String
  facets : List String

def contentHash (sha256 : String → String) (body : JsValue) : String :=
  sha256 (canonicalJson body)

def prepareRegister {Filter : Type} (kind : RegistryKind Filter) (sha256 : String → String)
    (input : RegisterVersionInput) : Except RegistryError PreparedRegister :=
  if input.id.isEmpty then
    .error (.input (kind.name ++ ": id must be a non-empty string"))
  else match (input.version.map assertVersionLabel).getD (.ok ()) with
    | .error e => .error e
    | .ok () =>
      match kind.prepare input.id input.input with
      | .error message => .error (.input message)
      | .ok body => .ok {
          body := body
          hash := contentHash sha256 body
          facets := (kind.facets input.id body).dedup.insertionSort (· ≤ ·) }

/-- The version to activate after the active one is removed: `promote` when given, else
    the most recent earlier active version still live, else the latest live version. -/
def nextActiveVersion (promote : Option String) (history live : List String) : Option String :=
  match promote with
  | some version => some version
  | none =>
    match history.reverse.find? live.contains with
    | some version => some version
    | none => live.getLast?

/-- Activation history after `next` replaces `previous` as the active version. -/
def pushHistory (history : List String) (previous : Option String) (next : String) :
    List String :=
  let out := history.filter fun v => v != next && some v != previous
  match previous with
  | some version => if version != next then out ++ [version] else out
  | none => out

def versionLabelOf (n : Nat) : String := "v" ++ toString n

/-- The label minted for the `seq`-th version: `v<seq>`, skipping at most `tries` taken
    labels. -/
def autoVersionLabel (taken : String → Bool) : (tries : Nat) → (seq : Nat) → String
  | 0, seq => versionLabelOf seq
  | tries + 1, seq =>
    if taken (versionLabelOf seq) then autoVersionLabel taken tries (seq + 1)
    else versionLabelOf seq

def matchesFacets (facets : List String) (query : FacetQuery) : Bool :=
  query.include.all facets.contains && !query.exclude.any facets.contains

def facetQuery {Filter : Type} (kind : RegistryKind Filter) (filter : Option Filter) :
    FacetQuery :=
  match filter with
  | none => { «include» := [], exclude := [] }
  | some filter => kind.query filter

/-! ## The store -/

structure Row where
  version : String
  seq : Nat
  body : JsValue
  hash : String
  facets : List String
  createdAt : Int
  trust : VersionTrust
  source : Option String
  removed : Bool

structure Head where
  /-- `none` while the id has no live version. -/
  active : Option String
  /-- Earlier active versions, oldest first. -/
  history : List String
  enabled : Bool
  nextSeq : Nat
  rows : JsMap String Row

def Head.new : Head where
  active := none
  history := []
  enabled := true
  nextSeq := 1
  rows := JsMap.empty

structure InMemoryVersionedRegistry where
  heads : JsMap String Head
  now : Int

def Head.live (head : Head) : List Row :=
  (head.rows.values.filter (!·.removed)).insertionSort fun a b => a.seq ≤ b.seq

def toEntry (id : String) (head : Head) (row : Row) : Versioned where
  id := id
  version := row.version
  createdAt := row.createdAt
  active := head.active == some row.version
  enabled := head.enabled
  trust := row.trust
  source := row.source
  body := row.body

def assertActive (kind id : String) (head : Option Head) (expected : Option (Option String)) :
    Except RegistryError Unit :=
  match expected with
  | none => .ok ()
  | some expected =>
    let actual := head.bind (·.active)
    if actual ≠ expected then .error (.conflict .activeMismatch kind id expected actual)
    else .ok ()

/-! ## Registering -/

/-- The same body: prefer a live version, then the latest one. -/
def preferred (hash : String) (row : Option Row) (candidate : Row) : Option Row :=
  if candidate.hash ≠ hash then row
  else match row with
    | none => some candidate
    | some best =>
      if (best.removed && !candidate.removed) ||
          (best.removed == candidate.removed && decide (candidate.seq > best.seq)) then
        some candidate
      else some best

/-- The stored version a register call names: the one with its label, which must hold the
    same body, or without a label the preferred one of those with the same body. -/
def namedRow (kind : String) (head : Head) (input : RegisterVersionInput) (hash : String) :
    Except RegistryError (Option Row) :=
  match input.version with
  | some version =>
    match head.rows.get version with
    | some row =>
      if row.hash ≠ hash then
        .error (.conflict .versionConflict kind input.id (some version) none)
      else .ok (some row)
    | none => .ok none
  | none => .ok (head.rows.values.foldl (preferred hash) none)

def newRow (head : Head) (now : Int) (input : RegisterVersionInput)
    (prepared : PreparedRegister) : Row where
  version := input.version.getD (autoVersionLabel head.rows.has head.rows.size head.nextSeq)
  seq := head.nextSeq
  body := prepared.body
  hash := prepared.hash
  facets := prepared.facets
  createdAt := now
  trust := input.trust.getD .trusted
  source := input.source
  removed := false

def Head.store (head : Head) (now : Int) (input : RegisterVersionInput)
    (prepared : PreparedRegister) (stored : Option Row) : Head × Row :=
  match stored with
  | some row =>
    -- A tombstone with the same body is restored.
    let row := { row with removed := false }
    ({ head with rows := head.rows.set row.version row }, row)
  | none =>
    let row := newRow head now input prepared
    ({ head with rows := head.rows.set row.version row, nextSeq := head.nextSeq + 1 }, row)

def Head.activate (head : Head) (promote : Bool) (version : String) : Head :=
  match head.active with
  | none => { head with active := some version, history := [], enabled := true }
  | some active =>
    if promote && active != version then
      { head with
        history := pushHistory head.history (some active) version
        active := some version }
    else head

def Head.setSwitch (head : Head) (enabled : Option Bool) : Head :=
  { head with enabled := enabled.getD head.enabled }

namespace InMemoryVersionedRegistry

def new (now : Int) : InMemoryVersionedRegistry where
  heads := JsMap.empty
  now := now

variable {Filter : Type} (kind : RegistryKind Filter) (sha256 : String → String)
  (reg : InMemoryVersionedRegistry)

def register (input : RegisterVersionInput) :
    InMemoryVersionedRegistry × Except RegistryError Versioned :=
  match prepareRegister kind sha256 input with
  | .error e => (reg, .error e)
  | .ok prepared =>
    let existing := reg.heads.get input.id
    match assertActive kind.name input.id existing input.expectedActive with
    | .error e => (reg, .error e)
    | .ok () =>
      let head := existing.getD .new
      match namedRow kind.name head input prepared.hash with
      | .error e => (reg, .error e)
      | .ok stored =>
        let (head, row) := head.store reg.now input prepared stored
        let head := (head.activate input.promote row.version).setSwitch input.enabled
        ({ reg with heads := reg.heads.set input.id head }, .ok (toEntry input.id head row))

/-! ## Reading -/

/-- `version` given: that version. Omitted: the active one. -/
def get (id : String) (version : Option String) : Option Versioned :=
  match reg.heads.get id with
  | none => none
  | some head =>
    match head.active with
    | none => none
    | some active =>
      match head.rows.get (version.getD active) with
      | none => none
      | some row => if row.removed then none else some (toEntry id head row)

/-- The loop of `list` over the sorted ids, with the items found so far. -/
def listLoop (reg : InMemoryVersionedRegistry) (p : ListVersionedParams Filter)
    (cursor : Option String) (limit : Option Nat) :
    (ids : List String) → (items : List Versioned) → Except RegistryError VersionedPage
  | [], items => .ok { items := items, nextCursor := none }
  | id :: ids, items =>
    if cursor.any (id ≤ ·) then listLoop reg p cursor limit ids items
    else match reg.heads.get id with
      | none => .error .typeError
      | some head =>
        match head.active with
        | none => listLoop reg p cursor limit ids items
        | some active =>
          if p.enabled.any (head.enabled != ·) then listLoop reg p cursor limit ids items
          else match head.rows.get active with
            | none => .error .typeError
            | some row =>
              if p.source.any fun source => row.source != some source then
                listLoop reg p cursor limit ids items
              else if !matchesFacets row.facets (facetQuery kind p.filter) then
                listLoop reg p cursor limit ids items
              else if limit = some items.length then
                .ok { items := items, nextCursor := items.getLast?.map (·.id) }
              else listLoop reg p cursor limit ids (items ++ [toEntry id head row])

def list (p : ListVersionedParams Filter) (cursor : Option String) :
    Except RegistryError VersionedPage :=
  match assertListLimit p.limit with
  | .error e => .error e
  | .ok limit => reg.listLoop kind p cursor limit (reg.heads.keys.insertionSort (· ≤ ·)) []

/-- `listAllVersioned`, with the page size of `p`: read page after page from a cursor on.
    `none` when there are more than `fuel` pages. -/
def listAllVersioned (reg : InMemoryVersionedRegistry) (p : ListVersionedParams Filter) :
    (fuel : Nat) → (cursor : Option String) → Option (Except RegistryError (List Versioned))
  | 0, _ => none
  | fuel + 1, cursor =>
    match reg.list kind p cursor with
    | .error e => some (.error e)
    | .ok page =>
      match page.nextCursor with
      | none => some (.ok page.items)
      | some next =>
        (listAllVersioned reg p fuel (some next)).map fun rest => rest.map (page.items ++ ·)

/-- Every live version of `id`, oldest first. -/
def versions (id : String) : List Versioned :=
  match reg.heads.get id with
  | none => []
  | some head => head.live.map (toEntry id head)

/-! ## Writing -/

def liveRow (id version : String) (head : Option Head) : Except RegistryError (Head × Row) :=
  match head with
  | none => .error (.notFound kind.name id (some version))
  | some head =>
    match head.rows.get version with
    | none => .error (.notFound kind.name id (some version))
    | some row =>
      if row.removed then .error (.notFound kind.name id (some version)) else .ok (head, row)

def promote (id version : String) (expectedActive : Option (Option String)) :
    InMemoryVersionedRegistry × Except RegistryError Versioned :=
  match assertActive kind.name id (reg.heads.get id) expectedActive with
  | .error e => (reg, .error e)
  | .ok () =>
    match liveRow kind id version (reg.heads.get id) with
    | .error e => (reg, .error e)
    | .ok (head, row) =>
      let head := { head with
        history := pushHistory head.history head.active row.version
        active := some row.version }
      ({ reg with heads := reg.heads.set id head }, .ok (toEntry id head row))

def setEnabled (id : String) (enabled : Bool) (expectedActive : Option (Option String)) :
    InMemoryVersionedRegistry × Except RegistryError Versioned :=
  match assertActive kind.name id (reg.heads.get id) expectedActive with
  | .error e => (reg, .error e)
  | .ok () =>
    match reg.heads.get id with
    | none => (reg, .error (.notFound kind.name id none))
    | some head =>
      match head.active with
      | none => (reg, .error (.notFound kind.name id none))
      | some active =>
        let head := { head with enabled := enabled }
        ({ reg with heads := reg.heads.set id head },
          match head.rows.get active with
          | none => .error .typeError
          | some row => .ok (toEntry id head row))

def setTrust (id version : String) (trust : VersionTrust) :
    InMemoryVersionedRegistry × Except RegistryError Versioned :=
  match liveRow kind id version (reg.heads.get id) with
  | .error e => (reg, .error e)
  | .ok (head, row) =>
    let row := { row with trust := trust }
    let head := { head with rows := head.rows.set version row }
    ({ reg with heads := reg.heads.set id head }, .ok (toEntry id head row))

def removeAll (head : Head) : Head :=
  { head with
    rows := head.rows.mapValues fun _ row => { row with removed := true }
    active := none
    history := [] }

def removeVersion (head : Head) (version : String) (row : Row) (promote : Option String) : Head :=
  let removed := { head with rows := head.rows.set version { row with removed := true } }
  let live := removed.live.map (·.version)
  let active :=
    if head.active = some version then nextActiveVersion promote head.history live
    else head.active
  { removed with
    active := active
    history := head.history.filter fun v => live.contains v && some v != active }

def unregister (id : String) (version : Option String) (expectedActive : Option (Option String))
    (promote : Option String) : InMemoryVersionedRegistry × Except RegistryError Bool :=
  match assertActive kind.name id (reg.heads.get id) expectedActive with
  | .error e => (reg, .error e)
  | .ok () =>
    match reg.heads.get id with
    | none => (reg, .ok false)
    | some head =>
      if head.active = none then (reg, .ok false)
      else match version with
        | none => ({ reg with heads := reg.heads.set id (removeAll head) }, .ok true)
        | some version =>
          match head.rows.get version with
          | none => (reg, .ok false)
          | some row =>
            if row.removed then (reg, .ok false)
            else
              let replacement : Except RegistryError Unit :=
                match promote with
                | none => .ok ()
                | some replacement =>
                  if head.active ≠ some version then .ok ()
                  else match head.rows.get replacement with
                    | none => .error (.notFound kind.name id (some replacement))
                    | some other =>
                      if other.removed || replacement == version then
                        .error (.notFound kind.name id (some replacement))
                      else .ok ()
              match replacement with
              | .error e => (reg, .error e)
              | .ok () =>
                ({ reg with heads := reg.heads.set id (removeVersion head version row promote) },
                  .ok true)

end InMemoryVersionedRegistry

/-! ## The registry as a machine -/

/-- One call, or time passing. -/
inductive RegistryOp (Filter : Type) where
  | advance (ms : Nat)
  | register (input : RegisterVersionInput)
  | get (id : String) (version : Option String)
  | list (p : ListVersionedParams Filter) (cursor : Option String)
  | versions (id : String)
  | promote (id version : String) (expectedActive : Option (Option String))
  | setEnabled (id : String) (enabled : Bool) (expectedActive : Option (Option String))
  | setTrust (id version : String) (trust : VersionTrust)
  | unregister (id : String) (version : Option String) (expectedActive : Option (Option String))
      (promote : Option String)

/-- What a call answers. -/
inductive RegistryAnswer where
  | none
  | entry (result : Except RegistryError Versioned)
  | found (entry : Option Versioned)
  | page (result : Except RegistryError VersionedPage)
  | entries (entries : List Versioned)
  | removed (result : Except RegistryError Bool)

def versionedRegistry {Filter : Type} (kind : RegistryKind Filter) (sha256 : String → String) :
    Machine InMemoryVersionedRegistry (RegistryOp Filter) RegistryAnswer where
  step reg o := match o with
    | .advance ms => ({ reg with now := reg.now + ms }, .none)
    | .register input =>
      let (reg', result) := reg.register kind sha256 input; (reg', .entry result)
    | .get id version => (reg, .found (reg.get id version))
    | .list p cursor => (reg, .page (reg.list kind p cursor))
    | .versions id => (reg, .entries (reg.versions id))
    | .promote id version expectedActive =>
      let (reg', result) := reg.promote kind id version expectedActive; (reg', .entry result)
    | .setEnabled id enabled expectedActive =>
      let (reg', result) := reg.setEnabled kind id enabled expectedActive; (reg', .entry result)
    | .setTrust id version trust =>
      let (reg', result) := reg.setTrust kind id version trust; (reg', .entry result)
    | .unregister id version expectedActive promote =>
      let (reg', result) := reg.unregister kind id version expectedActive promote
      (reg', .removed result)

end Promin.Agent
