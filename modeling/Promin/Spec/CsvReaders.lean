import Promin.Spec.CsvRoundTrip

/-!
# Two readers of CSV files

`CsvFile.load` trims the file and cuts it at line feeds, the stream cuts it at all line ends and
skips empty lines.  Without a header `load` knows no columns.
-/

namespace Promin.Data

open CodeUnits Splitting List

/-! ## Lines of the two readers -/

/-- The lines that `load` cuts the trimmed file into. -/
def trimmedLines (content : CodeUnits) : List CodeUnits := split [newline] (trim content)

theorem nonblankLines_eq_nil {content : CodeUnits} :
    nonblankLines content = [] ↔ ∀ u ∈ content, isBreak u = true := by
  rw [nonblankLines]
  induction content with
  | nil => exact ⟨fun _ _ hu => (by cases hu), fun _ => rfl⟩
  | cons u content ih =>
    rw [splitOnP_cons_eq_if_modifyHead, forall_mem_cons]
    by_cases hbreak : isBreak u = true
    · rw [if_pos hbreak, filter_cons, if_neg (by simp), and_iff_right hbreak]
      exact ih
    · rw [if_neg hbreak]
      obtain ⟨first, pieces, hpieces⟩ := exists_cons_of_ne_nil
        (splitOnP_ne_nil isBreak content)
      rw [hpieces, modifyHead_cons, filter_cons, if_pos (by simp)]
      exact ⟨fun h => absurd h (cons_ne_nil _ _), fun h => absurd h.1 hbreak⟩

theorem trim_eq_nil {text : CodeUnits} (h : ∀ u ∈ text, isSpace u = true) : trim text = [] := by
  rw [trim, dropWhile_eq_nil_iff.mpr h]
  rfl

theorem isSpace_of_trim_eq_cons {text rest : CodeUnits} {u : UInt16} (h : trim text = u :: rest) :
    isSpace u = false := by
  have hstarts : u :: rest <+: text.dropWhile isSpace := by
    rw [← h]
    exact rdropWhile_prefix _ _
  obtain ⟨more, hmore⟩ := hstarts
  have hhead := head?_dropWhile_not isSpace text
  rw [← hmore] at hhead
  simpa using hhead

theorem ne_nil_of_trimmedLines {content first second : CodeUnits} {lines : List CodeUnits}
    (h : trimmedLines content = first :: second :: lines) : first ≠ [] := by
  rintro rfl
  have htext := intercalate_split [newline] (trim content)
  rw [show split [newline] (trim content) = _ from h, intercalate_cons_cons] at htext
  exact absurd (isSpace_of_trim_eq_cons htext.symm) (by decide)

section Readers

variable {ν : Type} [CsvNumber ν] {options : StreamingCsvOptions} {content : CodeUnits}

/-! ## Without a header -/

theorem csvFileLoad_headerless (hheader : options.hasHeader = false) :
    (csvFileLoad options content : List (CsvRow ν)) =
      if (trimmedLines content).length < 2 then []
      else (trimmedLines content).map fun _ => JsMap.empty := by
  have hfalse : options.header = some false := by
    simpa [StreamingCsvOptions.hasHeader] using hheader
  simp only [csvFileLoad, hfalse, if_pos]
  rfl

theorem load_eq_stream_headerless (hheader : options.hasHeader = false) :
    (csvFileLoad options content : List (CsvRow ν)) = csvFileStream options content ↔
      ∀ u ∈ content, isBreak u = true := by
  rw [csvFileStream, streamingCsvRows_eq, hheader, if_neg Bool.false_ne_true,
    csvFileLoad_headerless hheader]
  constructor
  · intro h
    by_contra hbreaks
    rw [← nonblankLines_eq_nil] at hbreaks
    obtain ⟨line, lines, hlines⟩ := exists_cons_of_ne_nil hbreaks
    have hline : line ≠ [] := ne_nil_of_mem_nonblankLines (hlines ▸ mem_cons_self)
    -- the stream has a column, the loaded rows have none
    have hcols := keys_assignCells (ν := ν)
      (nodup_columnNames (split options.delim line).length) (split options.delim line)
    have hmem : assignCells (columnNames (split options.delim line).length)
        (split options.delim line) ∈ (nonblankLines content).map fun line =>
          (assignCells (columnNames (split options.delim line).length)
            (split options.delim line) : CsvRow ν) := by
      rw [hlines]
      exact mem_cons_self
    rw [← h] at hmem
    split at hmem
    · exact nomatch hmem
    · obtain ⟨-, -, hempty⟩ := mem_map.mp hmem
      rw [← hempty] at hcols
      have hlength := congrArg List.length hcols
      rw [length_columnNames] at hlength
      exact split_ne_nil_of_ne_nil hline (length_eq_zero_iff.mp hlength.symm)
  · intro hbreaks
    have htrim : trimmedLines content = [[]] := by
      rw [trimmedLines, trim_eq_nil fun u hu => isSpace_of_isBreak (hbreaks u hu)]
      rfl
    rw [nonblankLines_eq_nil.mpr hbreaks, htrim]
    rfl

/-! ## With a header -/

def valueAt (delim line : CodeUnits) (i : Nat) : CodeUnits :=
  ((split delim line)[i]?.map trim).getD []

/-- Both readers find the same lines: the same header, and under it the same values in the others,
if there are others. -/
def SameLines (delim content : CodeUnits) : Prop :=
  match nonblankLines content, trimmedLines content with
  | header :: lines, header' :: lines' =>
    lines = [] ∧ lines' = [] ∨
      (split delim header).map trim = (split delim header').map trim ∧
        List.Forall₂ (fun line line' => ∀ i < (split delim header).length,
          valueAt delim line i = valueAt delim line' i) lines lines'
  | [], lines => lines.length < 2
  | _, [] => False

theorem csvFileLoad_header (hheader : options.hasHeader = true) {header : CodeUnits}
    {lines : List CodeUnits} (hlines : trimmedLines content = header :: lines) :
    (csvFileLoad options content : List (CsvRow ν)) = lines.map fun line =>
      assignCells ((split options.delim header).map trim) (split options.delim line) := by
  have hfalse : options.header ≠ some false := by
    simpa [StreamingCsvOptions.hasHeader] using hheader
  cases lines with
  | nil =>
    have hshort : (split [newline] (trim content)).length < 2 := by
      rw [show split [newline] (trim content) = [header] from hlines]
      exact Nat.one_lt_two
    exact if_pos hshort
  | cons second lines =>
    have hne := ne_nil_of_trimmedLines hlines
    rw [trimmedLines] at hlines
    have hkept : (some header).filter (· ≠ []) = some header := by simp [hne]
    simp only [csvFileLoad, hlines, hfalse, if_false, head?_cons, hkept]
    rfl

theorem assignCells_congr {delim line line' : CodeUnits} {cols : List CodeUnits}
    (h : ∀ i < cols.length, valueAt delim line i = valueAt delim line' i) :
    (assignCells cols (split delim line) : CsvRow ν) = assignCells cols (split delim line') := by
  apply foldl_ext
  intro row col hcol
  have hplace : col.2 < cols.length := by
    have hlt := snd_lt_of_mem_zipIdx hcol
    omega
  have hcell : (cellAt (split delim line) col.2 : CsvCell ν) = cellAt (split delim line') col.2 :=
    congrArg readCell (h col.2 hplace)
  rw [hcell]

theorem load_eq_stream (hheader : options.hasHeader = true)
    (h : SameLines options.delim content) :
    (csvFileLoad options content : List (CsvRow ν)) = csvFileStream options content := by
  rw [csvFileStream, streamingCsvRows_eq, if_pos hheader]
  unfold SameLines at h
  cases hlines : nonblankLines content with
  | nil =>
    rw [hlines] at h
    exact if_pos h
  | cons header lines =>
    cases htrimmed : trimmedLines content with
    | nil =>
      rw [hlines, htrimmed] at h
      exact h.elim
    | cons header' lines' =>
      rw [hlines, htrimmed] at h
      rw [csvFileLoad_header hheader htrimmed]
      rcases h with ⟨rfl, rfl⟩ | ⟨hcols, hrows⟩
      · rfl
      · have hmap : ∀ {lines lines' : List CodeUnits}, List.Forall₂ (fun line line' =>
            ∀ i < (split options.delim header).length,
              valueAt options.delim line i = valueAt options.delim line' i) lines lines' →
            lines'.map (fun line => (assignCells ((split options.delim header).map trim)
              (split options.delim line) : CsvRow ν)) =
              lines.map fun line => assignCells ((split options.delim header).map trim)
                (split options.delim line) := by
          intro lines lines' hlines
          induction hlines with
          | nil => rfl
          | cons hline _ ih =>
            have hrow := assignCells_congr (ν := ν)
              (by rwa [length_map] : ∀ i < ((split options.delim header).map trim).length, _)
            rw [map_cons, map_cons, ih, hrow]
        rw [← hcols]
        exact hmap hrows

/-! ## Round trips and readers -/

/-- Written rows come back if and only if the table is kept; the two readers agree without a
header only on blank files, and with a header where they find the same lines. -/
theorem csv_iff (options : StreamingCsvOptions) (bufferBytes : Nat) (table : CsvTable ν)
    (content : CodeUnits) :
    (streamingCsvRows options (writeCsv options bufferBytes table.rows) = table.rows ↔
      TableKept options table) ∧
    (options.hasHeader = false →
      ((csvFileLoad options content : List (CsvRow ν)) = csvFileStream options content ↔
        ∀ u ∈ content, isBreak u = true)) ∧
    (options.hasHeader = true → SameLines options.delim content →
      (csvFileLoad options content : List (CsvRow ν)) = csvFileStream options content) :=
  ⟨roundTrip_iff options bufferBytes table, load_eq_stream_headerless, load_eq_stream⟩

end Readers

private def digitText (n : Fin 10) : CodeUnits := [48 + n.val.toUInt16]

private def digitOf : CodeUnits → Option (Fin 10)
  | [u] => if h : 48 ≤ u ∧ u < 58 then some ⟨u.toNat - 48, by
      have hlt : u.toNat < 58 := h.2
      omega⟩ else none
  | _ => none

private theorem digitOf_digitText : ∀ n, digitOf (digitText n) = some n := by
  decide

private theorem digitText_ne_nil (n : Fin 10) : digitText n ≠ [] := cons_ne_nil _ _

private theorem digitText_plain (n : Fin 10) : ∀ u ∈ digitText n, isSpace u = false ∧ u ≠ quote :=
  forall_mem_singleton.mpr (by
    revert n
    decide)

private theorem digitOf_quote (rest : CodeUnits) : digitOf (quote :: rest) = none := by
  cases rest <;> rfl

private theorem digitText_of_prefix {n : Fin 10} {start : CodeUnits} (hne : start ≠ [])
    (hstarts : start <+: digitText n) (_ : digitOf start = some n) : start = digitText n :=
  hstarts.eq_of_length (Nat.le_antisymm hstarts.length_le (length_pos_iff.mpr hne))

instance : CsvNumber (Fin 10) where
  text := digitText
  number := digitOf
  number_text := digitOf_digitText
  text_ne_nil := digitText_ne_nil
  text_plain := digitText_plain
  number_quote := digitOf_quote
  eq_text_of_prefix := digitText_of_prefix

/-- A delimiter in a cell, and an empty line of a file. -/
theorem csv_counterexample :
    ¬ (∀ (options : StreamingCsvOptions) (bufferBytes : Nat) (table : CsvTable (Fin 10)),
      streamingCsvRows options (writeCsv options bufferBytes table.rows) = table.rows) ∧
    ¬ ∀ (options : StreamingCsvOptions) (content : CodeUnits),
      (csvFileLoad options content : List (CsvRow (Fin 10))) = csvFileStream options content := by
  constructor
  · intro h
    have hrows := h {} 0 ⟨[ofString "a"], [⟨[(ofString "a", .str (ofString "x,y"))], by decide⟩],
      by decide, by
        intro row hrow cell hcell
        obtain rfl := mem_singleton.mp hrow
        obtain rfl := mem_singleton.mp hcell
        exact ⟨by decide, by decide, rfl⟩⟩
    have hvalues := congrArg (List.map JsMap.values) hrows
    revert hvalues
    decide
  · intro h
    have hlength := congrArg List.length (h {} (ofString "a\n\n1"))
    revert hlength
    decide

end Promin.Data
