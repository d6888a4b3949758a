import Promin.Data.Csv
import Promin.Shared.JsValue

/-!
# Chunks of a document

`FlatTextChunker` cuts a document into chunks for the index.  A regular expression is the end of
its sticky match at each place of a text; it has no captures.
-/

namespace Promin.Agent

open Data CodeUnits

def sliceText (text : CodeUnits) (start stop : Nat) : CodeUnits := (text.take stop).drop start

/-! ## Delimiters -/

structure Pattern where
  matchAt : CodeUnits → Nat → Option Nat
  unicode : Bool := false
  bounds : ∀ {text q e}, matchAt text q = some e → q ≤ e ∧ e ≤ text.length

/-- The next place a match is looked for: a surrogate pair counts as one under `unicode`. -/
def advanceStringIndex (text : CodeUnits) (index : Nat) (unicode : Bool) : Nat :=
  match text[index]?, text[index + 1]? with
  | some high, some low =>
    if unicode && 0xD800 ≤ high && high ≤ 0xDBFF && 0xDC00 ≤ low && low ≤ 0xDFFF then index + 2
    else index + 1
  | _, _ => index + 1

theorem lt_advanceStringIndex (text : CodeUnits) (index : Nat) (unicode : Bool) :
    index < advanceStringIndex text index unicode := by
  unfold advanceStringIndex
  grind

/-- The pieces from `p` on, where the next match is looked for at `q`. -/
def Pattern.splitFrom (re : Pattern) (text : CodeUnits) (p q : Nat) (hpq : p ≤ q) :
    List CodeUnits :=
  if hq : q < text.length then
    have hnext := lt_advanceStringIndex text q re.unicode
    match hmatch : re.matchAt text q with
    | none => re.splitFrom text p (advanceStringIndex text q re.unicode) (by omega)
    | some e =>
      have hbounds := re.bounds hmatch
      if he : e = p then re.splitFrom text p (advanceStringIndex text q re.unicode) (by omega)
      else sliceText text p q :: re.splitFrom text e e le_rfl
  else [text.drop p]
termination_by text.length - p + (text.length - q)

inductive Delimiter where
  | string (separator : CodeUnits)
  | pattern (re : Pattern)

/-- `text.split(delimiter)`. -/
def Delimiter.split (text : CodeUnits) : Delimiter → List CodeUnits
  | .string separator => Splitting.split separator text
  | .pattern re =>
    if text = [] then if (re.matchAt [] 0).isSome then [] else [[]]
    else re.splitFrom text 0 0 le_rfl

/-- `/\n\s*\n/`: from a line end to the last one of the white space behind it. -/
def blankLines : Pattern where
  matchAt text q :=
    if text[q]? = some newline then
      let lines := ((text.drop (q + 1)).takeWhile isSpace).rdropWhile (· ≠ newline)
      if lines = [] then none else some (q + 1 + lines.length)
    else none
  bounds {text q e} h := by
    simp only [Option.ite_none_right_eq_some, Option.ite_none_left_eq_some,
      Option.some.injEq] at h
    obtain ⟨hq, -, rfl⟩ := h
    have hlt := (List.getElem?_eq_some_iff.mp hq).1
    have hlines := ((List.rdropWhile_prefix (p := (· ≠ newline))
      (l := (text.drop (q + 1)).takeWhile isSpace)).trans (List.takeWhile_prefix _)).length_le
    rw [List.length_drop] at hlines
    omega

/-! ## The chunker -/

structure FlatTextChunkerConfig where
  delimiter : Option Delimiter := none
  maxSize : Option Int := none
  minSize : Option Int := none
  overlap : Option Int := none

/-- The settings of a chunker; sizes are in code units. -/
structure FlatTextChunker where
  delimiter : Delimiter
  maxSize : Nat
  minSize : Nat
  overlap : Nat
  overlap_lt : overlap < maxSize

/-- The constructor. -/
def FlatTextChunker.new (config : FlatTextChunkerConfig) : Except String FlatTextChunker :=
  let maxSize := config.maxSize.getD 1000
  let minSize := config.minSize.getD 1
  let overlap := config.overlap.getD 100
  if maxSize < 1 then .error "FlatTextChunker: maxSize must be >= 1"
  else if minSize < 0 then .error "FlatTextChunker: minSize must be >= 0"
  else if hoverlap : overlap < 0 then .error "FlatTextChunker: overlap must be >= 0"
  else if hlt : maxSize ≤ overlap then
    .error "FlatTextChunker: overlap must be smaller than maxSize"
  else
    .ok ⟨config.delimiter.getD (.pattern blankLines), maxSize.toNat, minSize.toNat, overlap.toNat,
      by omega⟩

structure KnowledgeSource where
  id : String
  title : Option String := none
  uri : Option String := none
  mimeType : Option String := none
  tags : Option (List String) := none
  metadata : Option JsValue := none
  version : Option String := none

structure KnowledgeIngestDocument extends KnowledgeSource where
  text : CodeUnits

structure KnowledgeChunk where
  id : String
  text : CodeUnits
  index : Nat
  source : KnowledgeSource

def chunkId (document : KnowledgeIngestDocument) (index : Nat) : String :=
  match document.version with
  | none => document.id ++ "#" ++ toString index
  | some version => document.id ++ "@" ++ version ++ "#" ++ toString index

def blankLine : CodeUnits := [newline, newline]

namespace FlatTextChunker

variable (c : FlatTextChunker)

def splitLongText (text : CodeUnits) (start : Nat) : List CodeUnits :=
  if start < text.length then
    let stop := min text.length (start + c.maxSize)
    let chunk := trim (sliceText text start stop)
    (if c.minSize ≤ chunk.length then [chunk] else []) ++
      if stop = text.length then [] else splitLongText text (max (stop - c.overlap) (start + 1))
  else []
termination_by text.length - start

def withOverlap (previous next : CodeUnits) : CodeUnits :=
  if c.overlap = 0 then next
  else
    let carried := trim (previous.drop (previous.length - c.overlap))
    if carried = [] then next else carried ++ blankLine ++ next

/-- The chunks so far, and the one that is being packed. -/
structure Packing where
  chunks : List CodeUnits
  current : CodeUnits

/-- `if (current) chunks.push(current)`. -/
def Packing.flush (s : Packing) : List CodeUnits :=
  if s.current = [] then s.chunks else s.chunks ++ [s.current]

def pack (s : Packing) (part : CodeUnits) : Packing :=
  if part = [] then s
  else if c.maxSize < part.length then ⟨s.flush ++ c.splitLongText part 0, []⟩
  else
    let next := if s.current = [] then part else s.current ++ blankLine ++ part
    if next.length ≤ c.maxSize then { s with current := next }
    else ⟨s.chunks ++ [s.current], c.withOverlap s.current part⟩

/-- The trimmed pieces that are long enough, or the whole text. -/
def parts (text : CodeUnits) : List CodeUnits :=
  let parts := ((c.delimiter.split text).map trim).filter fun p => c.minSize ≤ p.length
  if parts = [] then [trim text] else parts

def texts (text : CodeUnits) : List CodeUnits :=
  (((c.parts text).foldl c.pack ⟨[], []⟩).flush.map trim).filter fun t => c.minSize ≤ t.length

/-- The chunks of a document, numbered in order. -/
def chunk (document : KnowledgeIngestDocument) : List KnowledgeChunk :=
  (c.texts document.text).mapIdx fun index text =>
    { id := chunkId document index, text, index, source := document.toKnowledgeSource }

end FlatTextChunker

end Promin.Agent
