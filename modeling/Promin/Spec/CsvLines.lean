import Promin.Data.Csv
import Promin.ForStd.Grouping

/-!
# Lines of CSV files

What the streaming reader makes of a file depends on its lines that are not empty, and the writer
appends a line for each row, whenever it flushes its buffer.
-/

namespace Promin.Data

open CodeUnits Splitting List JsMap CsvReader

/-! ## Lines -/

def nonblankLines (content : CodeUnits) : List CodeUnits :=
  (content.splitOnP isBreak).filter fun line => decide (line ≠ [])

private theorem filter_readlineFrom (content : CodeUnits) (line : CodeUnits) (afterReturn : Bool)
    (hline : afterReturn = true → line = []) :
    (readlineFrom line afterReturn content).filter (fun line => decide (line ≠ [])) =
      ((content.splitOnP isBreak).modifyHead (line ++ ·)).filter
        fun line => decide (line ≠ []) := by
  induction content generalizing line afterReturn with
  | nil =>
    rw [readlineFrom, splitOnP_nil, modifyHead_cons, append_nil]
    by_cases hempty : line = [] <;> simp [hempty]
  | cons u rest ih =>
    rw [readlineFrom, splitOnP_cons_eq_if_modifyHead]
    have hid : (rest.splitOnP isBreak).modifyHead ([] ++ ·) = rest.splitOnP isBreak :=
      congrFun modifyHead_id _
    by_cases hsecond : (afterReturn && decide (u = newline)) = true
    · rw [Bool.and_eq_true, decide_eq_true_eq] at hsecond
      obtain ⟨hreturn, rfl⟩ := hsecond
      rw [hline hreturn, hreturn, if_pos (by decide), if_pos (by decide),
        ih [] false (by simp), hid]
      rfl
    · rw [if_neg hsecond]
      by_cases hbreak : isBreak u = true
      · rw [if_pos hbreak, if_pos hbreak, modifyHead_cons, append_nil, filter_cons,
          filter_cons, ih [] _ (fun _ => rfl), hid]
      · rw [if_neg hbreak, if_neg hbreak, ih _ false (by simp), modifyHead_modifyHead]
        congr 2
        funext x
        simp

theorem filter_readlineLines (content : CodeUnits) :
    (readlineLines content).filter (fun line => decide (line ≠ [])) = nonblankLines content := by
  rw [readlineLines, filter_readlineFrom content [] false fun _ => rfl, nonblankLines]
  exact congrArg _ (congrFun modifyHead_id _)

theorem isBreak_of_mem_nonblankLines {content line : CodeUnits} (h : line ∈ nonblankLines content) :
    ∀ u ∈ line, isBreak u = false :=
  of_mem_splitOnP (mem_filter.mp h).1

theorem ne_nil_of_mem_nonblankLines {content line : CodeUnits} (h : line ∈ nonblankLines content) :
    line ≠ [] := of_decide_eq_true (mem_filter.mp h).2

theorem nonblankLines_append (text rest : CodeUnits) :
    nonblankLines (text ++ newline :: rest) = nonblankLines text ++ nonblankLines rest := by
  rw [nonblankLines, splitOnP_append_cons text rest (by decide), filter_append]
  rfl

theorem nonblankLines_unbroken {line : CodeUnits} (h : ∀ u ∈ line, isBreak u = false) :
    nonblankLines line = [line].filter fun line => decide (line ≠ []) := by
  rw [nonblankLines, splitOnP_eq_singleton h]

section Reading

variable {ν : Type} [CsvNumber ν] {options : StreamingCsvOptions}

def columnNames (n : Nat) : List CodeUnits := (List.range n).map columnName

theorem streamingCsvRows_eq (options : StreamingCsvOptions) (content : CodeUnits) :
    (streamingCsvRows options content : List (CsvRow ν)) =
      if options.hasHeader then
        match nonblankLines content with
        | [] => []
        | header :: lines => lines.map fun line =>
          assignCells ((split options.delim header).map trim) (split options.delim line)
      else (nonblankLines content).map fun line =>
        assignCells (columnNames (split options.delim line).length) (split options.delim line) := by
  -- the reader ignores blank lines
  have hskip : ∀ (lines : List CodeUnits) (reader : CsvReader ν),
      lines.foldl (readLine options) reader =
        (lines.filter fun line => decide (line ≠ [])).foldl
          (readLine options) reader := by
    intro lines reader
    rw [foldl_filter]
    congr 1
    funext reader line
    by_cases hempty : line = []
    · rw [if_neg (by simp [hempty]), hempty]
      rfl
    · rw [if_pos (by simp [hempty])]
  -- once the header is read, every line is a row
  have hrest : ∀ (lines : List CodeUnits) (reader : CsvReader ν), (∀ line ∈ lines, line ≠ []) →
      (reader.first && options.hasHeader) = false →
      (lines.foldl (readLine options) reader).rows = reader.rows ++
        lines.map fun line => assignCells
          (reader.cols.getD (columnNames (split options.delim line).length))
          (split options.delim line) := by
    intro lines
    induction lines with
    | nil =>
      intro reader _ _
      rw [map_nil, append_nil]
      rfl
    | cons line lines ih =>
      intro reader hlines hfirst
      obtain ⟨hline, hlines⟩ := forall_mem_cons.mp hlines
      rw [foldl_cons, readLine, if_neg (by simpa using hline), hfirst,
        if_neg Bool.false_ne_true, ih _ hlines (Bool.false_and _), append_assoc]
      rfl
  have hnonblank : ∀ line ∈ nonblankLines content, line ≠ [] := fun line =>
    ne_nil_of_mem_nonblankLines
  rw [streamingCsvRows, hskip, filter_readlineLines]
  by_cases hheader : options.hasHeader = true
  · rw [if_pos hheader]
    cases hlines : nonblankLines content with
    | nil => rfl
    | cons header lines =>
      rw [hlines] at hnonblank
      obtain ⟨hfirst, hlines⟩ := forall_mem_cons.mp hnonblank
      rw [foldl_cons, readLine, if_neg (by simpa using hfirst), hheader]
      exact hrest lines _ hlines rfl
  · rw [if_neg hheader]
    rw [Bool.not_eq_true] at hheader
    rw [hrest _ _ hnonblank (by rw [hheader, Bool.and_false])]
    rfl

end Reading

/-! ## Written rows -/

section Writing

variable {ν : Type} [CsvNumber ν]

def rowLine (delim : CodeUnits) (row : CsvRow ν) : CodeUnits :=
  delim.intercalate (row.values.map (encodeCell delim))

namespace CsvSink

theorem finish_flushIfFull (bufferBytes : Nat) (sink : CsvSink) :
    (flushIfFull bufferBytes sink).finish = sink.finish := by
  unfold flushIfFull
  split
  · rfl
  · show (sink.file ++ sink.buffer) ++ [] = _
    rw [append_nil]
    rfl

theorem headerWritten_flushIfFull (bufferBytes : Nat) (sink : CsvSink) :
    (flushIfFull bufferBytes sink).headerWritten = sink.headerWritten := by
  unfold flushIfFull
  split <;> rfl

theorem finish_write (options : StreamingCsvOptions) (bufferBytes : Nat) (sink : CsvSink)
    (row : CsvRow ν) : (sink.write options bufferBytes row).finish = sink.finish ++
      (if options.hasHeader && !sink.headerWritten then
        options.delim.intercalate row.keys ++ [newline] else []) ++
      (rowLine options.delim row ++ [newline]) := by
  rw [write, finish_flushIfFull]
  split <;> simp [finish, rowLine]

theorem headerWritten_write (options : StreamingCsvOptions) (bufferBytes : Nat) (sink : CsvSink)
    (row : CsvRow ν) : (options.hasHeader &&
      !(sink.write options bufferBytes row).headerWritten) = false := by
  rw [write, headerWritten_flushIfFull]
  split
  · simp
  · rename_i h
    exact Bool.not_eq_true _ ▸ h

theorem finish_foldl_write (options : StreamingCsvOptions) (bufferBytes : Nat)
    (rows : List (CsvRow ν)) (sink : CsvSink)
    (h : (options.hasHeader && !sink.headerWritten) = false) :
    (rows.foldl (write options bufferBytes) sink).finish = sink.finish ++
      rows.flatMap fun row => rowLine options.delim row ++ [newline] := by
  induction rows generalizing sink with
  | nil => exact (append_nil _).symm
  | cons row rows ih =>
    rw [foldl_cons, ih _ (headerWritten_write options bufferBytes sink row), finish_write, h,
      if_neg Bool.false_ne_true, append_nil, append_assoc]
    rfl

end CsvSink

theorem writeCsv_eq (options : StreamingCsvOptions) (bufferBytes : Nat) (row : CsvRow ν)
    (rows : List (CsvRow ν)) : writeCsv options bufferBytes (row :: rows) =
      (if options.hasHeader then options.delim.intercalate row.keys ++ [newline] else []) ++
        (row :: rows).flatMap fun row => rowLine options.delim row ++ [newline] := by
  rw [writeCsv, foldl_cons, CsvSink.finish_foldl_write _ _ _ _
    (CsvSink.headerWritten_write options bufferBytes _ row), CsvSink.finish_write,
    append_assoc]
  simp [CsvSink.start, CsvSink.finish]

theorem nonblankLines_writeCsv (options : StreamingCsvOptions) (bufferBytes : Nat) (row : CsvRow ν)
    (rows : List (CsvRow ν)) : nonblankLines (writeCsv options bufferBytes (row :: rows)) =
      (if options.hasHeader then nonblankLines (options.delim.intercalate row.keys) else []) ++
        (row :: rows).flatMap fun row => nonblankLines (rowLine options.delim row) := by
  have hrows : ∀ rows : List (CsvRow ν),
      nonblankLines (rows.flatMap fun row => rowLine options.delim row ++ [newline]) =
        rows.flatMap fun row => nonblankLines (rowLine options.delim row) := by
    intro rows
    induction rows with
    | nil => rfl
    | cons row rows ih =>
      rw [flatMap_cons, append_assoc, singleton_append, nonblankLines_append, ih]
      rfl
  rw [writeCsv_eq, ← hrows]
  split
  · rw [append_assoc, singleton_append, nonblankLines_append]
  · rfl

end Writing

/-! ## Cells -/

section Cells

variable {ν : Type} [CsvNumber ν]

def cellsOf (k : Nat) (values : List CodeUnits) : List (CsvCell ν) :=
  (List.range k).map (cellAt values)

theorem cellsOf_succ (k : Nat) (values : List CodeUnits) :
    (cellsOf (k + 1) values : List (CsvCell ν)) =
      readCell (trim (values.headD [])) :: cellsOf k values.tail := by
  rw [cellsOf, range_succ_eq_map, map_cons, map_map]
  cases values with
  | nil => rfl
  | cons v values => rfl

theorem keys_assignCells_sublist (cols values : List CodeUnits) :
    (assignCells cols values : CsvRow ν).keys.Sublist cols ∧
      ∀ col ∈ cols, col ∈ (assignCells cols values : CsvRow ν).keys := by
  have hkeys := Grouping.keys_accumulate_empty (Prod.fst : CodeUnits × Nat → CodeUnits)
    (fun col => (cellAt values col.2 : CsvCell ν)) (fun _ col => cellAt values col.2) cols.zipIdx
  rw [zipIdx_map_fst] at hkeys
  rw [show (assignCells cols values : CsvRow ν).keys = _ from hkeys]
  exact ⟨Grouping.eraseDups_sublist cols, fun col hcol =>
    (@mem_eraseDups _ instBEqOfDecidableEq _ _ _).mpr hcol⟩

theorem entries_assignCells {cols : List CodeUnits} (h : cols.Nodup) (values : List CodeUnits) :
    (assignCells cols values : CsvRow ν).entries =
      cols.zipIdx.map fun col => (col.1, cellAt values col.2) :=
  entries_foldl_set _ _ (by
    rw [zipIdx_map_fst]
    exact h)

theorem keys_assignCells {cols : List CodeUnits} (h : cols.Nodup) (values : List CodeUnits) :
    (assignCells cols values : CsvRow ν).keys = cols := by
  rw [JsMap.keys, entries_assignCells h, map_map]
  exact zipIdx_map_fst 0 cols

theorem values_assignCells {cols : List CodeUnits} (h : cols.Nodup) (values : List CodeUnits) :
    (assignCells cols values : CsvRow ν).values = cellsOf cols.length values := by
  have hplaces : cols.zipIdx.map Prod.snd = List.range cols.length := by
    rw [zipIdx_map_snd, range_eq_range']
  rw [JsMap.values, entries_assignCells h, map_map, cellsOf, ← hplaces, map_map]
  rfl

theorem mem_values_assignCells {cols values : List CodeUnits} {cell : CsvCell ν}
    (h : cell ∈ (assignCells cols values).values) : ∃ i, cell = cellAt values i := by
  refine List.foldlRecOn
    (motive := fun row : CsvRow ν => ∀ v ∈ row.values, ∃ i, v = cellAt values i)
    _ _ (fun _ hv => by cases hv) ?_ cell h
  intro m hm col _ v hv
  obtain ⟨k, hk⟩ := (mem_values_iff _ v).mp hv
  rw [get_set] at hk
  split at hk
  · exact ⟨col.2, (Option.some.inj hk).symm⟩
  · exact hm v ((mem_values_iff m v).mpr ⟨k, hk⟩)

theorem assignCells_eq_iff {row : CsvRow ν} {values : List CodeUnits} :
    assignCells row.keys values = row ↔ cellsOf row.keys.length values = row.values := by
  have hnodup : row.keys.Nodup := row.nodup
  rw [← values_assignCells hnodup]
  constructor
  · exact fun h => by rw [h]
  · intro h
    exact ext_keys_values (keys_assignCells hnodup values) h

end Cells

end Promin.Data
