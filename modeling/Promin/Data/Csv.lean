import Mathlib.Data.List.DropRight
import Promin.ForStd.JsMap
import Promin.ForStd.Splitting

/-!
# CSV files

`StreamingCsvSink` writes rows as lines, `streamingCsvRows` reads them back line
by line, and `CsvFile.load` reads a file at once.
-/

namespace Promin.Data

/-- A string. -/
abbrev CodeUnits := List UInt16

namespace CodeUnits

/-- An ASCII literal. -/
def ofString (text : String) : CodeUnits := text.toList.map fun c => c.toNat.toUInt16

def quote : UInt16 := 34

def newline : UInt16 := 10

def carriageReturn : UInt16 := 13

/-- White space and line ends, as `trim` takes them off. -/
def isSpace (u : UInt16) : Bool :=
  (9 ≤ u && u ≤ 13) || u = 32 || u = 0xA0 || u = 0x1680 || (0x2000 ≤ u && u ≤ 0x200A) ||
    u = 0x2028 || u = 0x2029 || u = 0x202F || u = 0x205F || u = 0x3000 || u = 0xFEFF

/-- Line ends, as `readline` finds them. -/
def isBreak (u : UInt16) : Bool := u = newline || u = carriageReturn || u = 0x2028 || u = 0x2029

/-- `text.trim()`. -/
def trim (text : CodeUnits) : CodeUnits := (text.dropWhile isSpace).rdropWhile isSpace

theorem infix_trim (text : CodeUnits) : trim text <:+: text :=
  (List.rdropWhile_prefix _ _).isInfix.trans (List.dropWhile_suffix _).isInfix

end CodeUnits

open CodeUnits Splitting

/-! ## Cells -/

/-- The numbers of cells, `NaN` apart: `String(n)` and `Number(text)`. -/
class CsvNumber (ν : Type) where
  text : ν → CodeUnits
  number : CodeUnits → Option ν
  number_text : ∀ n, number (text n) = some n
  text_ne_nil : ∀ n, text n ≠ []
  text_plain : ∀ n, ∀ u ∈ text n, isSpace u = false ∧ u ≠ quote
  number_quote : ∀ rest, number (quote :: rest) = none
  /-- The digits of a number are as few as possible. -/
  eq_text_of_prefix : ∀ {n : ν} {start : CodeUnits}, start ≠ [] → start <+: text n →
    number start = some n → start = text n

inductive CsvCell (ν : Type) where
  | null
  | num (n : ν)
  | str (s : CodeUnits)
  deriving DecidableEq

/-- A row, with its members in the order of `Object.keys`. -/
abbrev CsvRow (ν : Type) := JsMap CodeUnits (CsvCell ν)

structure StreamingCsvOptions where
  delimiter : Option CodeUnits := none
  header : Option Bool := none

namespace StreamingCsvOptions

def delim (options : StreamingCsvOptions) : CodeUnits := options.delimiter.getD (ofString ",")

def hasHeader (options : StreamingCsvOptions) : Bool := options.header != some false

end StreamingCsvOptions

section Cells

variable {ν : Type} [CsvNumber ν]

open CsvNumber

def readCell (v : CodeUnits) : CsvCell ν :=
  if v = [] then .null
  else match number v with
    | some num => .num num
    | none => .str v

def cellAt (values : List CodeUnits) (i : Nat) : CsvCell ν :=
  readCell ((values[i]?.map trim).getD [])

def assignCells (cols values : List CodeUnits) : CsvRow ν :=
  cols.zipIdx.foldl (fun row col => row.set col.1 (cellAt values col.2)) JsMap.empty

def CsvCell.text : CsvCell ν → CodeUnits
  | .null => []
  | .num n => CsvNumber.text n
  | .str s => s

/-- `s.replace(/"/g, '""')`. -/
def doubleQuotes (s : CodeUnits) : CodeUnits :=
  s.flatMap fun u => if u = quote then [quote, quote] else [u]

def needsQuotes (delim s : CodeUnits) : Bool :=
  decide (delim <:+: s) || decide (quote ∈ s) || decide (newline ∈ s)

def encodeCell (delim : CodeUnits) : CsvCell ν → CodeUnits
  | .null => []
  | v => if needsQuotes delim v.text then quote :: doubleQuotes v.text ++ [quote] else v.text

end Cells

/-! ## Writing -/

/-- The writer: what it has buffered, and what is in the file. -/
structure CsvSink where
  headerWritten : Bool
  buffer : CodeUnits
  file : CodeUnits

namespace CsvSink

variable {ν : Type} [CsvNumber ν]

def start : CsvSink := ⟨false, [], []⟩

def flushIfFull (bufferBytes : Nat) (sink : CsvSink) : CsvSink :=
  if sink.buffer.length < bufferBytes then sink
  else { sink with buffer := [], file := sink.file ++ sink.buffer }

def write (options : StreamingCsvOptions) (bufferBytes : Nat) (sink : CsvSink) (row : CsvRow ν) :
    CsvSink :=
  let delim := options.delim
  let headed := if options.hasHeader && !sink.headerWritten then
      { sink with
        headerWritten := true
        buffer := sink.buffer ++ delim.intercalate row.keys ++ [newline] }
    else sink
  let line := delim.intercalate (row.values.map (encodeCell delim)) ++ [newline]
  flushIfFull bufferBytes { headed with buffer := headed.buffer ++ line }

/-- `end()`: what the file holds then. -/
def finish (sink : CsvSink) : CodeUnits := sink.file ++ sink.buffer

end CsvSink

/-- What the sink has written once it is closed. -/
def writeCsv {ν : Type} [CsvNumber ν] (options : StreamingCsvOptions) (bufferBytes : Nat)
    (rows : List (CsvRow ν)) : CodeUnits :=
  (rows.foldl (CsvSink.write options bufferBytes) CsvSink.start).finish

/-! ## Reading -/

/-- The lines of a file that `readline` emits after a started line, or after a carriage return. -/
def readlineFrom : CodeUnits → Bool → CodeUnits → List CodeUnits
  | line, _, [] => if line = [] then [] else [line]
  | line, afterReturn, u :: rest =>
    if afterReturn && u = newline then readlineFrom line false rest
    else if isBreak u then line :: readlineFrom [] (u = carriageReturn) rest
    else readlineFrom (line ++ [u]) false rest

def readlineLines (content : CodeUnits) : List CodeUnits := readlineFrom [] false content

/-- The reader: the columns of the header, and the rows it has yielded. -/
structure CsvReader (ν : Type) where
  cols : Option (List CodeUnits)
  first : Bool
  rows : List (CsvRow ν)

def columnName (i : Nat) : CodeUnits := ofString ("c" ++ toString i)

section Reading

variable {ν : Type} [CsvNumber ν]

def CsvReader.readLine (options : StreamingCsvOptions) (reader : CsvReader ν) (line : CodeUnits) :
    CsvReader ν :=
  if line.length = 0 then reader
  else if reader.first && options.hasHeader then
    { reader with cols := some ((split options.delim line).map trim), first := false }
  else
    let values := split options.delim line
    let cols := reader.cols.getD ((List.range values.length).map columnName)
    { reader with first := false, rows := reader.rows ++ [assignCells cols values] }

/-- The rows of the reader that takes one line at a time. -/
def streamingCsvRows (options : StreamingCsvOptions) (content : CodeUnits) : List (CsvRow ν) :=
  ((readlineLines content).foldl (CsvReader.readLine options) ⟨none, true, []⟩).rows

def csvFileLoad (options : StreamingCsvOptions) (content : CodeUnits) : List (CsvRow ν) :=
  let delim := options.delim
  let lines := split [newline] (trim content)
  if lines.length < 2 then []
  else
    -- an empty first line is no header either
    let header := if options.header = some false then none else lines.head?.filter (· ≠ [])
    let cols := match header with
      | some line => (split delim line).map trim
      | none => []
    let startIdx := if header.isSome then 1 else 0
    (lines.drop startIdx).map fun line => assignCells cols (split delim line)

def csvFileStream (options : StreamingCsvOptions) (content : CodeUnits) : List (CsvRow ν) :=
  streamingCsvRows options content

end Reading

end Promin.Data
