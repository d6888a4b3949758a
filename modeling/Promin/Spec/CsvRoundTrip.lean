import Promin.ForStd.Text
import Promin.Spec.CsvLines

/-!
# Reading written CSV files

`streamingCsvRows` cuts the lines that `StreamingCsvSink` wrote at each delimiter and takes no
quotes off, so a row comes back only where nothing had to be quoted.
-/

namespace Promin.Data

open CodeUnits Splitting List CsvNumber Bool

/-! ## White space -/

theorem isSpace_of_isBreak {u : UInt16} (h : isBreak u = true) : isSpace u = true := by
  simp only [isBreak, or_eq_true, decide_eq_true_eq] at h
  rcases h with ((rfl | rfl) | rfl) | rfl <;> decide

theorem trim_of_forall {text : CodeUnits} (h : ∀ u ∈ text, isSpace u = false) :
    trim text = text := by
  have hstart : text.dropWhile isSpace = text := by
    cases text with
    | nil => rfl
    | cons u text => rw [dropWhile_cons_of_neg (by simp [h u mem_cons_self])]
  rw [trim, hstart, rdropWhile_eq_self_iff]
  intro hne
  simp [h _ (getLast_mem hne)]

theorem trim_quote (text : CodeUnits) : ∃ kept spaces, trim (quote :: text) = quote :: kept ∧
    text = kept ++ spaces ∧ ∀ u ∈ spaces, isSpace u = true := by
  have hstart : (quote :: text).dropWhile isSpace = quote :: text :=
    dropWhile_cons_of_neg (by decide)
  have happend := rdropWhile_append_rtakeWhile (p := isSpace) (l := quote :: text)
  rw [trim, hstart]
  cases hkept : (quote :: text).rdropWhile isSpace with
  | nil =>
    have hquote := rdropWhile_eq_nil_iff.mp hkept quote mem_cons_self
    exact absurd hquote (by decide)
  | cons u kept =>
    rw [hkept] at happend
    rw [cons_append] at happend
    obtain ⟨rfl, htext⟩ := List.cons.inj happend
    exact ⟨kept, _, rfl, htext.symm, fun u hu => mem_rtakeWhile_imp hu⟩

/-! ## Names of columns -/

theorem CodeUnits.ofString_inj {a b : String} (ha : ∀ c ∈ a.toList, c.toNat < 65536)
    (hb : ∀ c ∈ b.toList, c.toNat < 65536) (h : ofString a = ofString b) : a = b := by
  have hback : ∀ text : String, (∀ c ∈ text.toList, c.toNat < 65536) →
      (ofString text).map (fun u => Char.ofNat u.toNat) = text.toList := by
    intro text htext
    rw [ofString, map_map]
    refine (map_congr_left fun c hc => ?_).trans (map_id _)
    show Char.ofNat c.toNat.toUInt16.toNat = c
    rw [Nat.toUInt16_eq, UInt16.toNat_ofNat', Nat.mod_eq_of_lt (htext c hc), Char.ofNat_toNat]
  rw [← String.toList_inj, ← hback a ha, ← hback b hb, h]

theorem columnName_inj {i j : Nat} (h : columnName i = columnName j) : i = j := by
  have hsmall : ∀ (n : Nat), ∀ c ∈ ("c" ++ toString n).toList, c.toNat < 65536 := by
    intro n c hc
    rw [String.toList_append, mem_append] at hc
    rcases hc with hc | hc
    · rw [show "c".toList = ['c'] from rfl, mem_singleton] at hc
      rw [hc]
      decide
    · have hdigit := Nat.isDigit_of_mem_toDigits (by decide) (by decide)
        (Nat.toList_repr (n := n) ▸ hc)
      simp only [Char.isDigit, and_eq_true, decide_eq_true_eq] at hdigit
      have hle : c.toNat ≤ 57 := hdigit.2
      omega
  exact Nat.append_toString_inj "c" (CodeUnits.ofString_inj (hsmall i) (hsmall j) h)

theorem nodup_columnNames (n : Nat) : (columnNames n).Nodup :=
  nodup_range.map fun _ _ => columnName_inj

@[simp] theorem length_columnNames (n : Nat) : (columnNames n).length = n := by
  simp [columnNames]

/-! ## Cells that are read as they were -/

section Cells

variable {ν : Type} [CsvNumber ν] {delim : CodeUnits}

def CsvCell.Plain : CsvCell ν → Prop
  | .str s => trim s = s ∧ s ≠ [] ∧ CsvNumber.number (ν := ν) s = none
  | _ => True

theorem readCell_quote (text : CodeUnits) :
    (readCell (quote :: text) : CsvCell ν) = .str (quote :: text) := by
  rw [readCell, if_neg (cons_ne_nil _ _), number_quote]

theorem trim_number (n : ν) : trim (CsvNumber.text n) = CsvNumber.text n :=
  trim_of_forall fun u hu => (text_plain n u hu).1

theorem readCell_text {cell : CsvCell ν} (h : cell.Plain) : readCell (trim cell.text) = cell := by
  cases cell with
  | null => rfl
  | num n =>
    show readCell (trim (CsvNumber.text n)) = _
    rw [trim_number, readCell, if_neg (text_ne_nil n), number_text]
  | str s =>
    show readCell (trim s) = _
    rw [h.1, readCell, if_neg h.2.1, h.2.2]

theorem eq_str_of_readCell {text s : CodeUnits} (h : (readCell text : CsvCell ν) = .str s) :
    text = s := by
  unfold readCell at h
  split at h
  · exact nomatch h
  · split at h
    · exact nomatch h
    · exact CsvCell.str.inj h

theorem needsQuotes_nil (hdelim : delim ≠ []) : needsQuotes delim [] = false := by
  simp [needsQuotes, hdelim]

theorem encodeCell_eq (hdelim : delim ≠ []) (cell : CsvCell ν) : encodeCell delim cell =
    if needsQuotes delim cell.text then quote :: doubleQuotes cell.text ++ [quote]
    else cell.text := by
  cases cell with
  | null =>
    show [] = if needsQuotes delim [] then _ else []
    rw [needsQuotes_nil hdelim, if_neg Bool.false_ne_true]
  | num n => rfl
  | str s => rfl

theorem doubleQuotes_replicate (a : Nat) (rest : CodeUnits) :
    doubleQuotes (List.replicate a quote ++ rest) =
      List.replicate (2 * a) quote ++ doubleQuotes rest := by
  induction a with
  | zero => simp
  | succ a ih =>
    show [quote, quote] ++ doubleQuotes (List.replicate a quote ++ rest) =
      List.replicate (2 * a + 1 + 1) quote ++ doubleQuotes rest
    rw [ih, replicate_succ, replicate_succ]
    rfl

theorem quoted_replicate (a : Nat) : quote :: doubleQuotes (List.replicate a quote) ++ [quote] =
    List.replicate (2 * a + 2) quote := by
  have hquotes := doubleQuotes_replicate a []
  rw [append_nil] at hquotes
  rw [hquotes, replicate_succ', replicate_succ]
  show quote :: (List.replicate (2 * a) quote ++ []) ++ [quote] = _
  rw [append_nil]

theorem exists_quotes (text : CodeUnits) : ∃ a rest, text = List.replicate a quote ++ rest ∧
    ∀ u more, rest = u :: more → u ≠ quote := by
  induction text with
  | nil => exact ⟨0, [], rfl, fun _ _ h => nomatch h⟩
  | cons u text ih =>
    by_cases hu : u = quote
    · obtain ⟨a, rest, htext, hrest⟩ := ih
      exact ⟨a + 1, rest, by rw [hu, htext]; rfl, hrest⟩
    · refine ⟨0, u :: text, rfl, fun v more h => ?_⟩
      obtain ⟨rfl, -⟩ := List.cons.inj h
      exact hu

theorem quotes_of_prefix (text spaces : CodeUnits) (hspaces : ∀ u ∈ spaces, isSpace u = true)
    (hfirst : text.head? = some quote)
    (h : text ++ spaces <+: quote :: doubleQuotes text ++ [quote]) :
    ∃ a, 0 < a ∧ text = List.replicate a quote ∧ spaces = [] := by
  obtain ⟨a, rest, rfl, hrest⟩ := exists_quotes text
  have hpos : 0 < a := by
    rcases Nat.eq_zero_or_pos a with rfl | hpos
    · cases rest with
      | nil => exact nomatch hfirst
      | cons u more => exact absurd (Option.some.inj hfirst) (hrest u more rfl)
    · exact hpos
  have hquoted : quote :: doubleQuotes (List.replicate a quote ++ rest) ++ [quote] =
      List.replicate a quote ++
        (quote :: (List.replicate a quote ++ (doubleQuotes rest ++ [quote]))) := by
    rw [doubleQuotes_replicate, Nat.two_mul, replicate_add, ← cons_append,
      ← cons_append, ← replicate_succ, replicate_succ']
    simp
  rw [hquoted, append_assoc, prefix_append_right_inj] at h
  cases rest with
  | nil =>
    refine ⟨a, hpos, append_nil _, ?_⟩
    cases spaces with
    | nil => rfl
    | cons u spaces =>
      have hu := (cons_prefix_cons.mp h).1
      have hspace := hspaces u mem_cons_self
      rw [hu] at hspace
      exact absurd hspace (by decide)
  | cons u more => exact absurd (cons_prefix_cons.mp h).1 (hrest u more rfl)

theorem text_eq_of_read (hdelim : delim ≠ []) {cell : CsvCell ν} {piece rest : CodeUnits}
    (hstarts : piece <+: encodeCell delim cell ++ rest)
    (hfirst : ∀ x y, encodeCell delim cell ++ rest = x ++ (delim ++ y) → piece.length ≤ x.length)
    (hpiece : piece = encodeCell delim cell ++ rest ∨
      ∃ more, encodeCell delim cell ++ rest = piece ++ (delim ++ more))
    (hrest : rest = [] ∨ delim <+: rest) (hread : readCell (trim piece) = cell) :
    needsQuotes delim cell.text = false ∧ piece = cell.text := by
  -- the piece ends no later than the cell
  have hle : piece.length ≤ (encodeCell delim cell).length := by
    rcases hrest with rfl | ⟨more, rfl⟩
    · rw [append_nil] at hstarts
      exact hstarts.length_le
    · exact hfirst _ _ rfl
  have hcell : piece <+: encodeCell delim cell :=
    prefix_of_prefix_length_le hstarts (prefix_append _ _) hle
  by_cases hquotes : needsQuotes delim cell.text = true
  · exfalso
    have hquoted : encodeCell delim cell = quote :: doubleQuotes cell.text ++ [quote] := by
      rw [encodeCell_eq hdelim, if_pos hquotes]
    rw [hquoted] at hcell
    cases piece with
    | nil =>
      -- nothing is read as `null`, which has no quotes
      rw [show readCell (trim []) = (CsvCell.null : CsvCell ν) from rfl] at hread
      rw [← hread, show (CsvCell.null : CsvCell ν).text = [] from rfl,
        needsQuotes_nil hdelim] at hquotes
      exact false_ne_true hquotes
    | cons u piece =>
      obtain rfl := (cons_prefix_cons.mp hcell).1
      obtain ⟨kept, spaces, htrim, hsplit, hspaces⟩ := trim_quote piece
      rw [htrim, readCell_quote] at hread
      obtain ⟨a, hpos, htext, rfl⟩ := quotes_of_prefix cell.text spaces
        hspaces (by rw [← hread]; rfl) (by
          rw [← hread]
          rw [← hread, hsplit] at hcell
          exact hcell)
      -- the piece ends where the delimiter, quotes only, begins once more
      have hreplicate : quote :: piece = List.replicate a quote := by
        rw [← htext, ← hread, hsplit, append_nil]
        rfl
      have hencoded : encodeCell delim cell =
          List.replicate a quote ++ List.replicate (a + 1 + 1) quote := by
        rw [hquoted, htext, quoted_replicate, ← replicate_add]
        congr 1
        omega
      rw [hreplicate, hencoded, append_assoc] at hpiece
      rw [hreplicate, hencoded, append_assoc, length_replicate] at hfirst
      rcases hpiece with hall | ⟨more, hmore⟩
      · have hlength := congrArg List.length hall
        rw [length_replicate, length_append, length_append, length_replicate,
          length_replicate] at hlength
        omega
      · have hdelims : delim <+: List.replicate (a + 1 + 1) quote ++ rest :=
          ⟨more, (append_cancel_left hmore).symm⟩
        have hall := eq_of_prefix_replicate hdelims hrest
        obtain ⟨y, hy⟩ := prefix_cons_of_forall_eq hall hdelims
        obtain ⟨b, rfl⟩ : ∃ b, a = b + 1 := ⟨a - 1, by omega⟩
        have hearlier := hfirst (List.replicate b quote) y (by
          rw [hy, replicate_succ', append_assoc]
          rfl)
        rw [length_replicate] at hearlier
        omega
  · rw [not_eq_true] at hquotes
    refine ⟨hquotes, ?_⟩
    have htext : encodeCell delim cell = cell.text := by
      rw [encodeCell_eq hdelim, hquotes, if_neg Bool.false_ne_true]
    rw [htext] at hcell hle
    cases cell with
    | null => exact prefix_nil.mp hcell
    | num n =>
      have hspace : trim piece = piece := trim_of_forall fun u hu =>
        (text_plain n u (hcell.subset hu)).1
      rw [hspace] at hread
      unfold readCell at hread
      split at hread
      · exact nomatch hread
      · rename_i hne
        split at hread
        · rename_i m hnumber
          obtain rfl := CsvCell.num.inj hread
          exact eq_text_of_prefix hne hcell hnumber
        · exact nomatch hread
    | str s =>
      have hs := eq_str_of_readCell hread
      have hlength := (infix_trim piece).length_le
      rw [hs] at hlength
      exact hcell.eq_of_length_le hlength

/-! ## Lines that are read as they were -/

structure LineKept (delim : CodeUnits) (cells : List (CsvCell ν)) : Prop where
  unquoted : ∀ cell ∈ cells, needsQuotes delim cell.text = false
  cut : split delim (delim.intercalate (cells.map CsvCell.text)) = cells.map CsvCell.text
  unbroken : ∀ u ∈ delim.intercalate (cells.map CsvCell.text), isBreak u = false
  nonblank : delim.intercalate (cells.map CsvCell.text) ≠ []

variable {cells : List (CsvCell ν)}

theorem map_encodeCell_eq (hdelim : delim ≠ [])
    (h : ∀ cell ∈ cells, needsQuotes delim cell.text = false) :
    cells.map (encodeCell delim) = cells.map CsvCell.text := by
  apply map_congr_left
  intro cell hcell
  rw [encodeCell_eq hdelim, h cell hcell, if_neg Bool.false_ne_true]

theorem cellsOf_texts (h : ∀ cell ∈ cells, cell.Plain) :
    cellsOf cells.length (cells.map CsvCell.text) = cells := by
  induction cells with
  | nil => rfl
  | cons cell cells ih =>
    obtain ⟨hcell, hcells⟩ := forall_mem_cons.mp h
    rw [length_cons, cellsOf_succ, map_cons, headD_cons, tail_cons,
      readCell_text hcell, ih hcells]

theorem cut_of_read (hdelim : delim ≠ []) : ∀ {cells : List (CsvCell ν)}, cells ≠ [] →
    cellsOf cells.length (split delim (delim.intercalate (cells.map (encodeCell delim)))) = cells →
    (∀ cell ∈ cells, needsQuotes delim cell.text = false) ∧
      split delim (delim.intercalate (cells.map (encodeCell delim))) = cells.map CsvCell.text
  | [], hne, _ => absurd rfl hne
  | [cell], _, hread => by
    rw [map_singleton, intercalate_singleton] at hread ⊢
    obtain ⟨piece, more, hsplit, hstarts, hfirst, hpiece⟩ := exists_split hdelim
      (encodeCell delim cell)
    rw [hsplit, length_singleton, cellsOf_succ] at hread
    rw [← append_nil (encodeCell delim cell)] at hstarts hfirst hpiece
    obtain ⟨hquotes, htext⟩ := text_eq_of_read hdelim hstarts hfirst
      (hpiece.imp And.left fun ⟨rest, hrest, _⟩ => ⟨rest, hrest⟩) (.inl rfl)
      (List.cons.inj hread).1
    refine ⟨by simpa using hquotes, ?_⟩
    rw [hsplit, htext, map_singleton]
    rcases hpiece with ⟨-, rfl⟩ | ⟨rest, hrest, -⟩
    · rfl
    · have hlength := congrArg List.length hrest
      have hpos := length_pos_iff.mpr hdelim
      rw [append_nil, encodeCell_eq hdelim, hquotes, if_neg Bool.false_ne_true, htext,
        length_append, length_append] at hlength
      omega
  | cell :: cell' :: cells, _, hread => by
    rw [map_cons, map_cons, intercalate_cons_cons, ← map_cons,
      append_assoc] at hread ⊢
    obtain ⟨piece, more, hsplit, hstarts, hfirst, hpiece⟩ := exists_split hdelim
      (encodeCell delim cell ++
        (delim ++ delim.intercalate ((cell' :: cells).map (encodeCell delim))))
    rw [hsplit, length_cons, cellsOf_succ] at hread
    obtain ⟨hfirstCell, hrest⟩ := List.cons.inj hread
    obtain ⟨hquotes, htext⟩ := text_eq_of_read hdelim hstarts hfirst
      (hpiece.imp And.left fun ⟨rest, hrest, _⟩ => ⟨rest, hrest⟩)
      (.inr (prefix_append _ _)) hfirstCell
    have hencoded : encodeCell delim cell = piece := by
      rw [encodeCell_eq hdelim, hquotes, if_neg Bool.false_ne_true, htext]
    have hmore : more = split delim (delim.intercalate ((cell' :: cells).map
        (encodeCell delim))) := by
      rcases hpiece with ⟨hall, -⟩ | ⟨rest, hrest, hmore⟩
      · have hlength := congrArg List.length hall
        have hpos := length_pos_iff.mpr hdelim
        rw [hencoded, length_append, length_append] at hlength
        omega
      · rw [hencoded] at hrest
        rw [hmore, append_cancel_left (append_cancel_left hrest)]
    rw [tail_cons, hmore] at hrest
    obtain ⟨hcells, hcut⟩ := cut_of_read hdelim (cons_ne_nil cell' cells) hrest
    refine ⟨forall_mem_cons.mpr ⟨hquotes, hcells⟩, ?_⟩
    rw [hsplit, hmore, hcut, htext]
    rfl

/-! ## Empty delimiters -/

theorem flatten_quotes (n : Nat) :
    ((List.replicate n (.str [quote] : CsvCell ν)).map (encodeCell [])).flatten =
      List.replicate (4 * n) quote := by
  induction n with
  | zero => rfl
  | succ n ih =>
    rw [replicate_succ, map_cons, flatten_cons, ih, Nat.mul_succ, Nat.add_comm,
      replicate_add]
    rfl

theorem quotes_of_read (hline : (cells.map (encodeCell [])).flatten ≠ [])
    (hread : cellsOf cells.length (split [] (cells.map (encodeCell [])).flatten) = cells) :
    ∀ cell ∈ cells, cell = .str [quote] := by
  have hencode : ∀ cell : CsvCell ν, cell = .null ∨
      ∃ more, encodeCell [] cell = quote :: more := by
    intro cell
    cases cell with
    | null => exact .inl rfl
    | num n => exact .inr ⟨doubleQuotes (CsvNumber.text n) ++ [quote], by
        simp [encodeCell, needsQuotes, CsvCell.text]⟩
    | str s => exact .inr ⟨doubleQuotes s ++ [quote], by
        simp [encodeCell, needsQuotes, CsvCell.text]⟩
  have hhead : ∀ {cells : List (CsvCell ν)}, (cells.map (encodeCell [])).flatten ≠ [] →
      (cells.map (encodeCell [])).flatten[0]? = some quote := by
    intro cells
    induction cells with
    | nil => exact fun h => absurd rfl h
    | cons cell cells ih =>
      intro h
      rcases hencode cell with rfl | ⟨more, hmore⟩
      · exact ih h
      · rw [map_cons, flatten_cons, hmore]
        rfl
  -- after `i` quotes the line goes on with the quotes of the first cells
  have hrun : ∀ i ≤ cells.length, cells.take i = List.replicate i (.str [quote]) := by
    intro i
    induction i with
    | zero => exact fun _ => rfl
    | succ i ih =>
      intro hi
      have htake := ih (by omega)
      have hunit : (cells.map (encodeCell [])).flatten[i]? = some quote := by
        rcases Nat.eq_zero_or_pos i with rfl | hpos
        · exact hhead hline
        · rw [← take_append_drop i cells, htake, map_append, flatten_append,
            flatten_quotes, getElem?_append_left (by rw [length_replicate]; omega),
            getElem?_replicate_of_lt (by omega)]
      have hcell : cells[i]? = some (.str [quote]) := by
        rw [← hread, cellsOf, getElem?_map, getElem?_range (by omega), Option.map_some,
          cellAt, split, if_pos rfl, getElem?_map, hunit]
        show some (readCell (quote :: [])) = _
        rw [readCell_quote]
      rw [take_add_one, htake, hcell, replicate_succ']
      rfl
  have hall := hrun cells.length (Nat.le_refl _)
  rw [take_length] at hall
  intro cell hcell
  rw [hall] at hcell
  exact eq_of_mem_replicate hcell

end Cells

/-! ## Tables -/

/-- Rows over one header, with the cells that a round trip is about. -/
structure CsvTable (ν : Type) [CsvNumber ν] where
  header : List CodeUnits
  rows : List (CsvRow ν)
  keys_eq : ∀ row ∈ rows, row.keys = header
  plain : ∀ row ∈ rows, ∀ cell ∈ row.values, cell.Plain

structure HeaderKept (delim : CodeUnits) (header : List CodeUnits) : Prop where
  cut : split delim (delim.intercalate header) = header
  trimmed : ∀ name ∈ header, trim name = name
  unbroken : ∀ u ∈ delim.intercalate header, isBreak u = false
  nonblank : delim.intercalate header ≠ []

section Tables

variable {ν : Type} [CsvNumber ν] {delim : CodeUnits}

/-- A row is written as one line, in which its cells are read with the names of some columns. -/
structure LineRead (delim : CodeUnits) (cols : List CodeUnits) (row : CsvRow ν) : Prop where
  unbroken : ∀ u ∈ rowLine delim row, isBreak u = false
  nonblank : rowLine delim row ≠ []
  read : assignCells cols (split delim (rowLine delim row)) = row

/-! ### Lines without line ends -/

theorem mem_encodeCell {cell : CsvCell ν} {u : UInt16} (h : u ∈ encodeCell delim cell) :
    u = quote ∨ u ∈ cell.text := by
  have hquoted : u ∈ quote :: doubleQuotes cell.text ++ [quote] → u = quote ∨ u ∈ cell.text := by
    intro hu
    rcases mem_append.mp hu with hu | hu
    · rcases mem_cons.mp hu with hu | hu
      · exact .inl hu
      · obtain ⟨v, hv, hu⟩ := mem_flatMap.mp hu
        split at hu
        · exact .inl (by simpa using hu)
        · exact .inr (mem_singleton.mp hu ▸ hv)
    · exact .inl (mem_singleton.mp hu)
  cases cell with
  | null => exact nomatch h
  | num n | str s =>
    simp only [encodeCell] at h
    split at h
    · exact hquoted h
    · exact .inr h

variable {row : CsvRow ν}

theorem rowLine_unbroken (hcells : ∀ s, .str s ∈ row.values → ∀ u ∈ s, isBreak u = false)
    (hdelim : 2 ≤ row.keys.length → ∀ u ∈ delim, isBreak u = false) :
    ∀ u ∈ rowLine delim row, isBreak u = false := by
  intro u hu
  rcases mem_intercalate hu with ⟨piece, hpiece, hu⟩ | ⟨htwo, hu⟩
  · obtain ⟨cell, hcell, rfl⟩ := mem_map.mp hpiece
    rcases mem_encodeCell hu with rfl | hu
    · decide
    · cases cell with
      | null => exact nomatch hu
      | num n =>
        by_contra hbreak
        rw [not_eq_false] at hbreak
        have hspace := isSpace_of_isBreak hbreak
        rw [(text_plain n u hu).1] at hspace
        exact false_ne_true hspace
      | str s => exact hcells s hcell u hu
  · refine hdelim ?_ u hu
    rw [length_map, JsMap.values, length_map] at htwo
    rw [JsMap.keys, length_map]
    exact htwo

theorem str_unbroken {cols : List CodeUnits} {line : CodeUnits}
    (hline : ∀ u ∈ line, isBreak u = false) {s : CodeUnits}
    (h : (.str s : CsvCell ν) ∈ (assignCells cols (split delim line)).values) :
    ∀ u ∈ s, isBreak u = false := by
  obtain ⟨i, hi⟩ := mem_values_assignCells h
  rw [← eq_str_of_readCell hi.symm]
  cases hpiece : (split delim line)[i]? with
  | none => exact fun u hu => nomatch hu
  | some piece =>
    intro u hu
    have hin := infix_of_mem_split (mem_of_getElem? hpiece)
    exact hline u (hin.subset ((infix_trim piece).subset hu))

theorem delim_unbroken {line : CodeUnits} (hline : ∀ u ∈ line, isBreak u = false)
    (htwo : 2 ≤ (split delim line).length) : ∀ u ∈ delim, isBreak u = false := by
  intro u hu
  have hdelim : delim ≠ [] := ne_nil_of_mem hu
  by_contra hbreak
  rw [split_eq_singleton hdelim fun hin => hbreak (hline u (hin.subset hu))] at htwo
  exact absurd htwo (by simp)

theorem split_ne_nil_of_ne_nil {line : CodeUnits} (h : line ≠ []) : split delim line ≠ [] := by
  by_cases hdelim : delim = []
  · rw [split, if_pos hdelim]
    simpa using h
  · exact split_ne_nil hdelim line

theorem flatMap_nonblankLines {texts : List CodeUnits}
    (hunbroken : ∀ text ∈ texts, ∀ u ∈ text, isBreak u = false) :
    texts.flatMap nonblankLines = texts.filter fun text => decide (text ≠ []) := by
  induction texts with
  | nil => rfl
  | cons text texts ih =>
    obtain ⟨htext, htexts⟩ := forall_mem_cons.mp hunbroken
    rw [flatMap_cons, nonblankLines_unbroken htext, ih htexts, ← filter_append]
    rfl

theorem lines_eq {content : CodeUnits} (texts : List CodeUnits)
    (hunbroken : ∀ text ∈ texts, ∀ u ∈ text, isBreak u = false)
    (hlines : nonblankLines content = texts.flatMap nonblankLines)
    (hlength : (nonblankLines content).length = texts.length) :
    nonblankLines content = texts ∧ ∀ text ∈ texts, text ≠ [] := by
  rw [hlines, flatMap_nonblankLines hunbroken, length_filter_eq_length_iff] at hlength
  refine ⟨?_, fun text htext => of_decide_eq_true (hlength text htext)⟩
  rw [hlines, flatMap_nonblankLines hunbroken, filter_eq_self]
  exact hlength

theorem lines_eq_of_kept {content : CodeUnits} (texts : List CodeUnits)
    (hunbroken : ∀ text ∈ texts, ∀ u ∈ text, isBreak u = false)
    (hlines : nonblankLines content = texts.flatMap nonblankLines)
    (hne : ∀ text ∈ texts, text ≠ []) : nonblankLines content = texts := by
  rw [hlines, flatMap_nonblankLines hunbroken, filter_eq_self]
  exact fun text htext => decide_eq_true (hne text htext)

theorem roundTrip_header {options : StreamingCsvOptions} (bufferBytes : Nat) {table : CsvTable ν}
    (hheader : options.hasHeader = true) (hrows : table.rows ≠ []) :
    streamingCsvRows options (writeCsv options bufferBytes table.rows) = table.rows ↔
      HeaderKept options.delim table.header ∧
        ∀ row ∈ table.rows, LineRead options.delim table.header row := by
  have hlines : nonblankLines (writeCsv options bufferBytes table.rows) =
      (options.delim.intercalate table.header :: table.rows.map (rowLine options.delim)).flatMap
        nonblankLines := by
    obtain ⟨row, rows, hcons⟩ := exists_cons_of_ne_nil hrows
    have hkeys := table.keys_eq row (hcons ▸ mem_cons_self)
    rw [hcons, nonblankLines_writeCsv, if_pos hheader, hkeys]
    show _ = nonblankLines _ ++ ((row :: rows).map (rowLine options.delim)).flatMap nonblankLines
    rw [flatMap_map]
  rw [streamingCsvRows_eq, if_pos hheader]
  constructor
  · intro h
    cases hcontent : nonblankLines (writeCsv options bufferBytes table.rows) with
    | nil =>
      rw [hcontent] at h
      exact absurd h.symm hrows
    | cons first rest =>
      rw [hcontent] at h
      have hbroken : ∀ line ∈ first :: rest, ∀ u ∈ line, isBreak u = false := fun line hline =>
        isBreak_of_mem_nonblankLines (hcontent ▸ hline)
      -- the header consists of pieces of the first line
      have hsub : table.header.Sublist ((split options.delim first).map trim) ∧
          ∀ col ∈ (split options.delim first).map trim, col ∈ table.header := by
        obtain ⟨row, rows, hcons⟩ := exists_cons_of_ne_nil hrows
        have hrow : row ∈ table.rows := hcons ▸ mem_cons_self
        obtain ⟨line, -, hread⟩ := mem_map.mp (h ▸ hrow)
        rw [← table.keys_eq row hrow, ← hread]
        exact keys_assignCells_sublist _ _
      have hne : table.header ≠ [] := by
        have hpieces : split options.delim first ≠ [] :=
          split_ne_nil_of_ne_nil (ne_nil_of_mem_nonblankLines (hcontent ▸ mem_cons_self))
        obtain ⟨piece, pieces, hcons⟩ := exists_cons_of_ne_nil hpieces
        exact ne_nil_of_mem (hsub.2 (trim piece) (by
          rw [hcons]
          exact mem_cons_self))
      have hdelim : 2 ≤ table.header.length → ∀ u ∈ options.delim, isBreak u = false := by
        intro htwo
        apply delim_unbroken (hbroken first mem_cons_self)
        have hle := hsub.1.length_le
        rw [length_map] at hle
        omega
      have hnames : ∀ u ∈ options.delim.intercalate table.header, isBreak u = false := by
        intro u hu
        rcases mem_intercalate hu with ⟨name, hname, hu⟩ | ⟨htwo, hu⟩
        · obtain ⟨piece, hpiece, rfl⟩ := mem_map.mp (hsub.1.subset hname)
          exact hbroken first mem_cons_self u
            ((infix_of_mem_split hpiece).subset ((infix_trim piece).subset hu))
        · exact hdelim htwo u hu
      have hrowLines : ∀ row ∈ table.rows, ∀ u ∈ rowLine options.delim row, isBreak u = false := by
        intro row hrow
        obtain ⟨line, hline, hread⟩ := mem_map.mp (h ▸ hrow)
        apply rowLine_unbroken
        · intro s hs
          rw [← hread] at hs
          exact str_unbroken (hbroken line (mem_cons_of_mem _ hline)) hs
        · rw [table.keys_eq row hrow]
          exact hdelim
      -- so the lines are the written ones
      have hlength := congrArg List.length h
      rw [length_map] at hlength
      obtain ⟨hall, hnonblank⟩ := lines_eq (options.delim.intercalate table.header ::
          table.rows.map (rowLine options.delim)) (by
        rw [forall_mem_cons]
        refine ⟨hnames, fun text htext => ?_⟩
        obtain ⟨row, hrow, rfl⟩ := mem_map.mp htext
        exact hrowLines row hrow) hlines (by
        rw [hcontent, length_cons, length_cons, length_map, hlength])
      rw [hcontent] at hall
      obtain ⟨rfl, rfl⟩ := List.cons.inj hall
      obtain ⟨hheaderLine, hrowLinesNe⟩ := forall_mem_cons.mp hnonblank
      obtain ⟨hcut, htrimmed⟩ := eq_split_of_sublist hne trim infix_trim hsub.1
      refine ⟨⟨hcut, htrimmed, hnames, hheaderLine⟩, fun row hrow => ⟨hrowLines row hrow,
        hrowLinesNe _ (mem_map_of_mem hrow), ?_⟩⟩
      have hcols : (split options.delim (options.delim.intercalate table.header)).map trim =
          table.header := by
        rw [hcut]
        exact (map_congr_left htrimmed).trans (map_id _)
      have hread : (table.rows.map (rowLine options.delim)).map (fun line =>
          assignCells ((split options.delim (options.delim.intercalate table.header)).map trim)
            (split options.delim line)) = table.rows := h
      rw [hcols, map_map] at hread
      exact map_inj_left.mp (hread.trans (map_id _).symm) row hrow
  · rintro ⟨hkept, hread⟩
    have hall := lines_eq_of_kept (options.delim.intercalate table.header ::
        table.rows.map (rowLine options.delim)) (by
      rw [forall_mem_cons]
      refine ⟨hkept.unbroken, fun text htext => ?_⟩
      obtain ⟨row, hrow, rfl⟩ := mem_map.mp htext
      exact (hread row hrow).unbroken) hlines (by
      rw [forall_mem_cons]
      refine ⟨hkept.nonblank, fun text htext => ?_⟩
      obtain ⟨row, hrow, rfl⟩ := mem_map.mp htext
      exact (hread row hrow).nonblank)
    have hcols : (split options.delim (options.delim.intercalate table.header)).map trim =
        table.header := by
      rw [hkept.cut]
      exact (map_congr_left hkept.trimmed).trans (map_id _)
    rw [hall]
    show (table.rows.map (rowLine options.delim)).map _ = _
    rw [hcols, map_map]
    exact (map_congr_left fun row hrow => (hread row hrow).read).trans (map_id _)

theorem roundTrip_headerless {options : StreamingCsvOptions} (bufferBytes : Nat)
    {table : CsvTable ν} (hheader : options.hasHeader = false) (hrows : table.rows ≠ []) :
    streamingCsvRows options (writeCsv options bufferBytes table.rows) = table.rows ↔
      ∀ row ∈ table.rows, LineRead options.delim
        (columnNames (split options.delim (rowLine options.delim row)).length) row := by
  have hlines : nonblankLines (writeCsv options bufferBytes table.rows) =
      (table.rows.map (rowLine options.delim)).flatMap nonblankLines := by
    obtain ⟨row, rows, hcons⟩ := exists_cons_of_ne_nil hrows
    rw [hcons, nonblankLines_writeCsv, hheader, if_neg Bool.false_ne_true, flatMap_map]
    rfl
  rw [streamingCsvRows_eq, hheader, if_neg Bool.false_ne_true]
  constructor
  · intro h
    have hbroken : ∀ line ∈ nonblankLines (writeCsv options bufferBytes table.rows),
        ∀ u ∈ line, isBreak u = false := fun line => isBreak_of_mem_nonblankLines
    have hrowLines : ∀ row ∈ table.rows, ∀ u ∈ rowLine options.delim row, isBreak u = false := by
      intro row hrow
      obtain ⟨line, hline, hread⟩ := mem_map.mp (h ▸ hrow)
      apply rowLine_unbroken
      · intro s hs
        rw [← hread] at hs
        exact str_unbroken (hbroken line hline) hs
      · intro htwo
        rw [← hread, keys_assignCells (nodup_columnNames _), length_columnNames] at htwo
        exact delim_unbroken (hbroken line hline) htwo
    have hlength := congrArg List.length h
    rw [length_map] at hlength
    obtain ⟨hall, hnonblank⟩ := lines_eq (table.rows.map (rowLine options.delim)) (by
      intro text htext
      obtain ⟨row, hrow, rfl⟩ := mem_map.mp htext
      exact hrowLines row hrow) hlines (by rw [length_map, hlength])
    intro row hrow
    refine ⟨hrowLines row hrow, hnonblank _ (mem_map_of_mem hrow), ?_⟩
    rw [hall, map_map] at h
    exact map_inj_left.mp (h.trans (map_id _).symm) row hrow
  · intro hread
    have hall := lines_eq_of_kept (table.rows.map (rowLine options.delim)) (by
      intro text htext
      obtain ⟨row, hrow, rfl⟩ := mem_map.mp htext
      exact (hread row hrow).unbroken) hlines (by
      intro text htext
      obtain ⟨row, hrow, rfl⟩ := mem_map.mp htext
      exact (hread row hrow).nonblank)
    rw [hall, map_map]
    exact (map_congr_left fun row hrow => (hread row hrow).read).trans (map_id _)

/-! ### Lines that are read -/

omit [CsvNumber ν] in
theorem length_values (row : CsvRow ν) : row.values.length = row.keys.length := by
  rw [JsMap.values, JsMap.keys, length_map, length_map]

theorem rowLine_eq_texts (hdelim : delim ≠ [])
    (h : ∀ cell ∈ row.values, needsQuotes delim cell.text = false) :
    rowLine delim row = delim.intercalate (row.values.map CsvCell.text) := by
  rw [rowLine, map_encodeCell_eq hdelim h]

theorem lineRead_iff (hdelim : delim ≠ []) (hplain : ∀ cell ∈ row.values, cell.Plain) :
    LineRead delim row.keys row ↔ LineKept delim row.values := by
  constructor
  · intro h
    have hne : row.values ≠ [] := fun hnil => h.nonblank (by
      rw [rowLine, hnil]
      rfl)
    have hread := assignCells_eq_iff.mp h.read
    rw [← length_values] at hread
    obtain ⟨hquotes, hcut⟩ := cut_of_read hdelim hne hread
    rw [map_encodeCell_eq hdelim hquotes] at hcut
    have hline := rowLine_eq_texts hdelim hquotes
    exact ⟨hquotes, hcut, hline ▸ h.unbroken, hline ▸ h.nonblank⟩
  · intro h
    have hline := rowLine_eq_texts hdelim h.unquoted
    refine ⟨hline ▸ h.unbroken, hline ▸ h.nonblank, assignCells_eq_iff.mpr ?_⟩
    rw [hline, h.cut, ← length_values, cellsOf_texts hplain]

theorem rowLine_quotes (h : ∀ cell ∈ row.values, cell = .str [quote]) :
    rowLine [] row = List.replicate (4 * row.values.length) quote := by
  rw [rowLine, nil_intercalate, ← flatten_quotes (ν := ν), ← eq_replicate_of_mem h]

theorem lineRead_empty_iff (hne : row.values ≠ []) :
    LineRead [] row.keys row ↔ ∀ cell ∈ row.values, cell = .str [quote] := by
  constructor
  · intro h
    have hread := assignCells_eq_iff.mp h.read
    have hnonblank := h.nonblank
    rw [← length_values, rowLine, nil_intercalate] at hread
    rw [rowLine, nil_intercalate] at hnonblank
    exact quotes_of_read hnonblank hread
  · intro h
    have hvalues := eq_replicate_of_mem h
    have hline := rowLine_quotes h
    have hpos := length_pos_iff.mpr hne
    refine ⟨?_, ?_, assignCells_eq_iff.mpr ?_⟩
    · rw [hline]
      intro u hu
      rw [eq_of_mem_replicate hu]
      decide
    · rw [hline]
      intro hnil
      have hlength := congrArg List.length hnil
      rw [length_replicate, length_nil] at hlength
      omega
    · rw [hline, ← length_values, hvalues, eq_replicate_iff]
      refine ⟨by simp [cellsOf], fun cell hcell => ?_⟩
      obtain ⟨i, hi, rfl⟩ := mem_map.mp hcell
      rw [length_replicate, mem_range] at hi
      rw [cellAt, split, if_pos rfl, getElem?_map, length_replicate,
        getElem?_replicate_of_lt (by omega)]
      show readCell (quote :: []) = _
      rw [readCell_quote]

/-! ### When the rows come back -/

/-- The header and the lines come back from the reader as they were written. -/
def TableKept (options : StreamingCsvOptions) (table : CsvTable ν) : Prop :=
  table.rows = [] ∨
  ((if options.hasHeader then HeaderKept options.delim table.header
    else table.header = columnNames table.header.length) ∧
  if options.delim = [] then
    options.hasHeader = true ∧ ∀ row ∈ table.rows, ∀ cell ∈ row.values, cell = .str [quote]
  else ∀ row ∈ table.rows, LineKept options.delim row.values)

theorem HeaderKept.ne_nil {header : List CodeUnits} (h : HeaderKept delim header) :
    header ≠ [] := fun hnil => h.nonblank (by rw [hnil]; rfl)

theorem headerless_iff :
    LineRead delim (columnNames (split delim (rowLine delim row)).length) row ↔
      LineRead delim row.keys row ∧
        row.keys = columnNames (split delim (rowLine delim row)).length := by
  constructor
  · intro h
    have hkeys : row.keys = columnNames (split delim (rowLine delim row)).length := by
      rw [← keys_assignCells (nodup_columnNames _) (ν := ν) (split delim (rowLine delim row)),
        h.read]
    exact ⟨hkeys ▸ h, hkeys⟩
  · rintro ⟨h, hkeys⟩
    exact hkeys ▸ h

theorem roundTrip_iff (options : StreamingCsvOptions) (bufferBytes : Nat) (table : CsvTable ν) :
    streamingCsvRows options (writeCsv options bufferBytes table.rows) = table.rows ↔
      TableKept options table := by
  by_cases hrows : table.rows = []
  · rw [hrows]
    exact ⟨fun _ => .inl hrows, fun _ => rfl⟩
  · rw [TableKept, or_iff_right hrows]
    by_cases hheader : options.hasHeader = true
    · rw [roundTrip_header bufferBytes hheader hrows, if_pos hheader]
      refine and_congr_right fun hkept => ?_
      have hvalues : ∀ row ∈ table.rows, row.values ≠ [] := by
        intro row hrow hnil
        have hlength := length_values row
        rw [hnil, table.keys_eq row hrow] at hlength
        exact hkept.ne_nil (length_eq_zero_iff.mp hlength.symm)
      split
      · rename_i hdelim
        rw [and_iff_right hheader, hdelim]
        refine forall₂_congr fun row hrow => ?_
        rw [← table.keys_eq row hrow, lineRead_empty_iff (hvalues row hrow)]
      · rename_i hdelim
        refine forall₂_congr fun row hrow => ?_
        rw [← table.keys_eq row hrow, lineRead_iff hdelim (table.plain row hrow)]
    · rw [not_eq_true] at hheader
      rw [roundTrip_headerless bufferBytes hheader hrows, hheader, if_neg Bool.false_ne_true]
      simp only [headerless_iff]
      obtain ⟨first, rows, hcons⟩ := exists_cons_of_ne_nil hrows
      have hfirst : first ∈ table.rows := hcons ▸ mem_cons_self
      split
      · rename_i hdelim
        rw [hdelim]
        constructor
        · intro h
          -- four quotes are written for each quote, and one column is read for each of them
          obtain ⟨hread, hkeys⟩ := h first hfirst
          have hne : first.values ≠ [] := fun hnil => hread.nonblank (by
            rw [rowLine, hnil]
            rfl)
          have hlength := congrArg List.length hkeys
          rw [rowLine_quotes ((lineRead_empty_iff hne).mp hread), split, if_pos rfl,
            length_columnNames, length_map, length_replicate, ← length_values] at hlength
          have hpos := length_pos_iff.mpr hne
          omega
        · exact fun h => absurd h.2.1 false_ne_true
      · rename_i hdelim
        constructor
        · intro h
          refine ⟨?_, fun row hrow =>
            (lineRead_iff hdelim (table.plain row hrow)).mp (h row hrow).1⟩
          have hkeys := (h first hfirst).2
          rw [table.keys_eq first hfirst] at hkeys
          rw [hkeys, length_columnNames]
        · rintro ⟨hnames, hkept⟩ row hrow
          refine ⟨(lineRead_iff hdelim (table.plain row hrow)).mpr (hkept row hrow), ?_⟩
          rw [rowLine_eq_texts hdelim (hkept row hrow).unquoted, (hkept row hrow).cut,
            length_map, length_values, table.keys_eq row hrow]
          exact hnames

end Tables

end Promin.Data
