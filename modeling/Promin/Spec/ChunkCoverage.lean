import Promin.Agent.Chunking

/-!
# What the chunks of a document cover

White space aside, each chunk ends with what is new in it, and begins with what
it carries over from the chunk before; what is new in the chunks is, in their
order, the text between the delimiters.
-/

namespace Promin.Agent

open Data CodeUnits
open List hiding isEmpty_iff

/-! ## Splitting -/

/-- The pieces with the separators between them. -/
def interleave : (pieces separators : List CodeUnits) → CodeUnits
  | piece :: pieces, separator :: separators =>
    piece ++ separator ++ interleave pieces separators
  | pieces, [] => pieces.flatten
  | [], _ => []

/-- `found` stands in `text` where the delimiter matches. -/
def Delimiter.Matches (text found : CodeUnits) : Delimiter → Prop
  | .string separator => found = separator
  | .pattern re => ∃ q e, re.matchAt text q = some e ∧ found = sliceText text q e

theorem interleave_replicate (separator : CodeUnits) : ∀ pieces : List CodeUnits,
    interleave pieces (List.replicate (pieces.length - 1) separator) =
      separator.intercalate pieces
  | [] => rfl
  | [piece] => by simp [interleave]
  | piece :: next :: pieces => by
    have ih := interleave_replicate separator (next :: pieces)
    rw [intercalate_cons_cons, ← ih]
    rfl

theorem infix_interleave {piece : CodeUnits} : ∀ {pieces separators : List CodeUnits},
    piece ∈ pieces → piece <:+: interleave pieces separators
  | first :: pieces, [], h => infix_of_mem_flatten h
  | first :: pieces, separator :: separators, h => by
    rw [interleave]
    rcases mem_cons.mp h with rfl | h
    · rw [append_assoc]
      exact (prefix_append _ _).isInfix
    · exact (infix_interleave h).trans (suffix_append _ _).isInfix

theorem sliceText_append_drop (text : CodeUnits) {p q : Nat} (hpq : p ≤ q) :
    sliceText text p q ++ text.drop q = text.drop p := by
  conv_rhs => rw [← take_append_drop q text]
  rw [sliceText]
  rcases Nat.le_total q text.length with hq | hq
  · rw [drop_append_of_le_length (by rw [length_take]; omega)]
  · rw [take_of_length_le hq, drop_of_length_le hq, append_nil, append_nil]

theorem sliceText_append_slice (text : CodeUnits) {start place stop : Nat} (h : start ≤ place)
    (h' : place ≤ stop) :
    sliceText text start place ++ sliceText text place stop = sliceText text start stop := by
  have htake : text.take place = (text.take stop).take place := by
    rw [take_take, Nat.min_eq_left h']
  rw [sliceText, htake]
  exact sliceText_append_drop (text.take stop) h

theorem Pattern.splitFrom_interleave (re : Pattern) (text : CodeUnits) (p q : Nat) (hpq : p ≤ q) :
    ∃ separators, (∀ m ∈ separators, (Delimiter.pattern re).Matches text m) ∧
      text.drop p = interleave (re.splitFrom text p q hpq) separators := by
  fun_induction Pattern.splitFrom re text p q hpq with
  | case1 p q hpq hq hnext hmatch ih => exact ih
  | case2 q hpq hq hnext e hmatch hbounds ih => exact ih
  | case3 p q hpq hq hnext e hmatch hbounds he ih =>
    obtain ⟨separators, hseparators, hdrop⟩ := ih
    refine ⟨sliceText text q e :: separators, forall_mem_cons.mpr ⟨⟨q, e, hmatch, rfl⟩,
      hseparators⟩, ?_⟩
    rw [interleave, ← hdrop, append_assoc, sliceText_append_drop text hbounds.1,
      sliceText_append_drop text hpq]
  | case4 p q hpq hq => exact ⟨[], nofun, by simp [interleave]⟩

theorem Delimiter.split_interleave (delimiter : Delimiter) (text : CodeUnits) :
    ∃ separators, (∀ m ∈ separators, delimiter.Matches text m) ∧
      text = interleave (delimiter.split text) separators := by
  cases delimiter with
  | string separator =>
    refine ⟨List.replicate ((Splitting.split separator text).length - 1) separator,
      fun m hm => eq_of_mem_replicate hm, ?_⟩
    rw [split, interleave_replicate, Splitting.intercalate_split]
  | pattern re =>
    by_cases hnil : text = []
    · refine ⟨[], nofun, ?_⟩
      subst hnil
      simp only [split, ↓reduceIte]
      split <;> rfl
    · obtain ⟨separators, hseparators, hdrop⟩ := re.splitFrom_interleave text 0 0 le_rfl
      refine ⟨separators, hseparators, ?_⟩
      rwa [split, if_neg hnil]

theorem Delimiter.infix_of_mem_split {delimiter : Delimiter} {text piece : CodeUnits}
    (h : piece ∈ delimiter.split text) : piece <:+: text := by
  obtain ⟨separators, -, htext⟩ := delimiter.split_interleave text
  conv_rhs => rw [htext]
  exact infix_interleave h

/-! ## Covering -/

def nonspace (text : CodeUnits) : CodeUnits := text.filter fun u => !isSpace u

@[simp] theorem nonspace_append (a b : CodeUnits) : nonspace (a ++ b) = nonspace a ++ nonspace b :=
  filter_append a b

theorem nonspace_eq_nil {text : CodeUnits} (h : ∀ u ∈ text, isSpace u = true) :
    nonspace text = [] := by
  simpa [nonspace] using h

@[simp] theorem nonspace_trim (text : CodeUnits) : nonspace (trim text) = nonspace text := by
  have hfront : nonspace (text.dropWhile isSpace) = nonspace text := by
    conv_rhs => rw [← takeWhile_append_dropWhile (p := isSpace) (l := text)]
    rw [nonspace_append, nonspace_eq_nil fun u hu => mem_takeWhile_imp hu, nil_append]
  have hback := congrArg nonspace
    (rdropWhile_append_rtakeWhile (p := isSpace) (l := text.dropWhile isSpace))
  rw [nonspace_append, nonspace_eq_nil fun u hu => mem_rtakeWhile_imp hu,
    append_nil] at hback
  exact hback.trans hfront

theorem nonspace_blankLine : nonspace blankLine = [] := by decide

/-- Each chunk ends with its share of the units, white space aside, and the shares make up the
    units in the order of the chunks. -/
inductive Covered : List CodeUnits → CodeUnits → Prop
  | nil : Covered [] []
  | cons {chunk share : CodeUnits} {chunks : List CodeUnits} {units : CodeUnits}
      (hshare : share <:+ nonspace chunk) (hrest : Covered chunks units) :
      Covered (chunk :: chunks) (share ++ units)

namespace Covered

variable {chunks chunks' : List CodeUnits} {units units' chunk chunk' share : CodeUnits}

theorem append (h : Covered chunks units) (h' : Covered chunks' units') :
    Covered (chunks ++ chunks') (units ++ units') := by
  induction h with
  | nil => exact h'
  | cons hshare _ ih =>
    rw [append_assoc]
    exact .cons hshare ih

theorem single (hshare : share <:+ nonspace chunk) : Covered [chunk] share := by
  simpa using Covered.cons hshare .nil

theorem nothing (chunks : List CodeUnits) : Covered chunks [] := by
  induction chunks with
  | nil => exact .nil
  | cons chunk chunks ih => exact .cons nil_suffix ih

theorem grow {new : CodeUnits} (h : Covered (chunks ++ [chunk]) units)
    (hnew : nonspace chunk' = nonspace chunk ++ new) :
    Covered (chunks ++ [chunk']) (units ++ new) := by
  induction chunks generalizing units with
  | nil =>
    obtain _ | ⟨hshare, _ | _⟩ := h
    rw [append_nil]
    obtain ⟨carried, hcarried⟩ := hshare
    exact single ⟨carried, by rw [hnew, ← hcarried, append_assoc]⟩
  | cons first chunks ih =>
    obtain _ | ⟨hshare, hrest⟩ := h
    rw [append_assoc]
    exact .cons hshare (ih hrest)

theorem of_snoc_nil (h : Covered (chunks ++ [[]]) units) : Covered chunks units := by
  induction chunks generalizing units with
  | nil =>
    obtain _ | ⟨hshare, _ | _⟩ := h
    rw [suffix_nil.mp hshare]
    exact .nil
  | cons first chunks ih =>
    obtain _ | ⟨hshare, hrest⟩ := h
    exact .cons hshare (ih hrest)

theorem map_trim (h : Covered chunks units) : Covered (chunks.map trim) units := by
  induction h with
  | nil => exact .nil
  | cons hshare _ ih => exact .cons (by rwa [nonspace_trim]) ih

theorem filter {p : CodeUnits → Bool} (hp : ∀ chunk, p chunk = false → chunk = [])
    (h : Covered chunks units) : Covered (chunks.filter p) units := by
  induction h with
  | nil => exact .nil
  | @cons chunk share chunks units hshare _ ih =>
    cases hchunk : p chunk with
    | true =>
      rw [filter_cons_of_pos hchunk]
      exact .cons hshare ih
    | false =>
      rw [hp chunk hchunk] at hshare
      rw [filter_cons_of_neg (by simp [hchunk]), suffix_nil.mp hshare]
      exact ih

end Covered

private theorem eq_nil_of_short {minSize : Nat} (hmin : minSize ≤ 1) (chunk : CodeUnits)
    (h : decide (minSize ≤ chunk.length) = false) : chunk = [] := by
  rw [decide_eq_false_iff_not] at h
  exact length_eq_zero_iff.mp (by omega)

namespace FlatTextChunker

variable {c : FlatTextChunker} (hmin : c.minSize ≤ 1)

include hmin

theorem covered_splitLongText (text : CodeUnits) (start : Nat) :
    ∀ place : Nat, start ≤ place → place ≤ start + c.maxSize →
      Covered (c.splitLongText text start) (nonspace (text.drop place)) := by
  fun_induction c.splitLongText text start with
  | case1 start hlt stop chunk ih =>
    intro place hstart hplace
    have hmax := c.overlap_lt
    by_cases hstop : place ≤ stop
    · have hshare : nonspace (sliceText text place stop) <:+ nonspace chunk := by
        rw [nonspace_trim, ← sliceText_append_slice text hstart hstop, nonspace_append]
        exact suffix_append _ _
      rw [← sliceText_append_drop text hstop, nonspace_append]
      refine Covered.append ?_ ?_
      · by_cases hlength : c.minSize ≤ chunk.length
        · rw [if_pos hlength]
          exact .single hshare
        · rw [if_neg hlength]
          rw [eq_nil_of_short hmin chunk (by simpa using hlength)] at hshare
          rw [suffix_nil.mp hshare]
          exact .nil
      · by_cases hend : stop = text.length
        · rw [if_pos hend, drop_of_length_le hend.ge]
          exact .nil
        · -- the next window starts where this one still reaches
          rw [if_neg hend]
          exact ih stop (by omega) (by omega)
    · rw [drop_of_length_le (by omega)]
      exact .nothing _
  | case2 start hlt =>
    intro place hstart _
    rw [drop_of_length_le (by omega)]
    exact .nil

variable {s : Packing} {units : CodeUnits}

omit hmin in
theorem covered_flush (h : Covered (s.chunks ++ [s.current]) units) : Covered s.flush units := by
  rw [Packing.flush]
  split_ifs with hnil
  · rw [hnil] at h
    exact h.of_snoc_nil
  · exact h

omit hmin in
theorem suffix_withOverlap (previous next : CodeUnits) :
    nonspace next <:+ nonspace (c.withOverlap previous next) := by
  rw [withOverlap]
  split_ifs
  · exact suffix_rfl
  · dsimp only
    split_ifs
    · exact suffix_rfl
    · rw [nonspace_append]
      exact suffix_append _ _

theorem covered_pack (h : Covered (s.chunks ++ [s.current]) units) (part : CodeUnits) :
    Covered ((c.pack s part).chunks ++ [(c.pack s part).current]) (units ++ nonspace part) := by
  by_cases hnil : part = []
  · simpa [pack, hnil, nonspace] using h
  · by_cases hlong : c.maxSize < part.length
    · have hwindows := covered_splitLongText hmin part 0 0 le_rfl (Nat.zero_le _)
      simp only [pack, if_neg hnil, if_pos hlong]
      simpa using ((covered_flush h).append hwindows).append (.single nil_suffix)
    · have hnext : nonspace (if s.current = [] then part else s.current ++ blankLine ++ part) =
          nonspace s.current ++ nonspace part := by
        split_ifs with hempty
        · rw [hempty]
          rfl
        · rw [nonspace_append, nonspace_append, nonspace_blankLine, append_nil]
      rw [pack, if_neg hnil, if_neg hlong]
      dsimp only
      generalize (if s.current = [] then part else s.current ++ blankLine ++ part) = next at hnext ⊢
      split_ifs
      · exact h.grow hnext
      · exact h.append (.single (suffix_withOverlap _ _))

theorem covered_foldl (parts : List CodeUnits) (h : Covered (s.chunks ++ [s.current]) units) :
    Covered (parts.foldl c.pack s).flush (units ++ nonspace parts.flatten) := by
  induction parts generalizing s units with
  | nil => simpa [nonspace] using covered_flush h
  | cons part parts ih =>
    rw [foldl_cons, flatten_cons, nonspace_append, ← append_assoc]
    exact ih (covered_pack hmin h part)

theorem covered_texts (text : CodeUnits) :
    Covered (c.texts text) (nonspace (c.delimiter.split text).flatten) := by
  refine (Covered.map_trim ?_).filter (eq_nil_of_short hmin)
  have hparts : nonspace (((c.delimiter.split text).map trim).filter fun p =>
      c.minSize ≤ p.length).flatten = nonspace (c.delimiter.split text).flatten := by
    induction c.delimiter.split text with
    | nil => rfl
    | cons piece pieces ih =>
      rw [map_cons, flatten_cons, nonspace_append, ← ih, ← nonspace_trim piece,
        filter_cons]
      split_ifs with hlength
      · rw [flatten_cons, nonspace_append]
      · rw [eq_nil_of_short hmin (trim piece) (by simpa using hlength)]
        rfl
  rw [parts]
  split_ifs with hnone
  · rw [← hparts, hnone]
    exact .nothing _
  · rw [← hparts]
    simpa using covered_foldl hmin _ (s := ⟨[], []⟩) (.single nil_suffix)

end FlatTextChunker

/-! ## What a chunk is made of -/

def MadeOf (text joined : CodeUnits) : Prop :=
  ∃ parts : List CodeUnits, (∀ part ∈ parts, part <:+: text) ∧ joined = blankLine.intercalate parts

namespace MadeOf

variable {text joined joined' part : CodeUnits}

theorem of_within (h : part <:+: text) : MadeOf text part :=
  ⟨[part], by simpa using h, by simp⟩

theorem nil (text : CodeUnits) : MadeOf text [] := of_within nil_infix

theorem cons (hpart : part <:+: text) (h : MadeOf text joined) :
    MadeOf text (part ++ blankLine ++ joined) := by
  obtain ⟨_ | ⟨next, parts⟩, hparts, rfl⟩ := h
  · exact ⟨[part, []], by simp [hpart], by simp⟩
  · exact ⟨part :: next :: parts, forall_mem_cons.mpr ⟨hpart, hparts⟩, by
      rw [intercalate_cons_cons]⟩

theorem append (h : MadeOf text joined) (h' : MadeOf text joined') :
    MadeOf text (joined ++ blankLine ++ joined') := by
  obtain ⟨parts, hparts, rfl⟩ := h
  induction parts with
  | nil => exact cons nil_infix h'
  | cons part parts ih =>
    obtain ⟨hpart, hrest⟩ := forall_mem_cons.mp hparts
    cases parts with
    | nil => simpa using cons hpart h'
    | cons next parts =>
      rw [intercalate_cons_cons, append_assoc, append_assoc]
      rw [← append_assoc _ blankLine]
      exact cons hpart (ih hrest)

private theorem dropWhile_space {a : CodeUnits} (h : ∀ u ∈ a, isSpace u = true) (b : CodeUnits) :
    (a ++ b).dropWhile isSpace = b.dropWhile isSpace := by
  rw [dropWhile_append, if_pos]
  rw [List.isEmpty_iff, dropWhile_eq_nil_iff]
  exact h

theorem dropWhile_suffix {s : CodeUnits} (h : MadeOf text joined) (hs : s <:+ joined) :
    MadeOf text (s.dropWhile isSpace) := by
  obtain ⟨parts, hparts, rfl⟩ := h
  induction parts generalizing s with
  | nil => 
    rw [suffix_nil.mp hs]
    exact nil text
  | cons part parts ih =>
    obtain ⟨hpart, hrest⟩ := forall_mem_cons.mp hparts
    cases parts with
    | nil =>
      rw [intercalate_singleton] at hs
      exact of_within ((dropWhile_suffix _).isInfix.trans (hs.isInfix.trans hpart))
    | cons next parts =>
      rw [intercalate_cons_cons] at hs
      set rest := blankLine.intercalate (next :: parts) with hrest'
      rcases suffix_or_suffix_of_suffix hs (suffix_append (part ++ blankLine) rest)
        with hs' | ⟨front, rfl⟩
      · exact ih hrest hs'
      · -- the text is cut in this part or in the blank line behind it
        have hfront : front <:+ part ++ blankLine := by
          obtain ⟨before, hbefore⟩ := hs
          exact ⟨before, by simpa [← append_assoc] using hbefore⟩
        have hspace : ∀ u ∈ blankLine, isSpace u = true := all_eq_true.mp rfl
        rcases suffix_or_suffix_of_suffix hfront (suffix_append part blankLine)
          with hline | ⟨front, rfl⟩
        · rw [dropWhile_space fun u hu => hspace u (hline.mem hu)]
          exact ih hrest suffix_rfl
        · rw [append_assoc, dropWhile_append]
          have hcut : front <:+ part := by
            obtain ⟨before, hbefore⟩ := hfront
            exact ⟨before, by simpa [← append_assoc] using hbefore⟩
          split_ifs
          · rw [dropWhile_space hspace]
            exact ih hrest suffix_rfl
          · rw [← append_assoc]
            exact cons ((dropWhile_suffix _).isInfix.trans (hcut.isInfix.trans hpart))
              ⟨_, hrest, rfl⟩

private theorem rdropWhile_append (a b : CodeUnits) : (a ++ b).rdropWhile isSpace =
    if b.rdropWhile isSpace = [] then a.rdropWhile isSpace else a ++ b.rdropWhile isSpace := by
  simp only [List.rdropWhile, reverse_append, dropWhile_append, List.isEmpty_iff,
    reverse_eq_nil_iff]
  split_ifs <;> simp

theorem rdropWhile (h : MadeOf text joined) : MadeOf text (joined.rdropWhile isSpace) := by
  obtain ⟨parts, hparts, rfl⟩ := h
  induction parts with
  | nil => exact nil text
  | cons part parts ih =>
    obtain ⟨hpart, hrest⟩ := forall_mem_cons.mp hparts
    cases parts with
    | nil =>
      rw [intercalate_singleton]
      have hkept : part.rdropWhile isSpace <+: part := rdropWhile_prefix _ _
      exact of_within (hkept.isInfix.trans hpart)
    | cons next parts =>
      rw [intercalate_cons_cons, rdropWhile_append]
      split_ifs
      · rw [rdropWhile_append, if_pos (by decide)]
        have hkept : part.rdropWhile isSpace <+: part := rdropWhile_prefix _ _
        exact of_within (hkept.isInfix.trans hpart)
      · exact cons hpart (ih hrest)

theorem trim_suffix {s : CodeUnits} (h : MadeOf text joined) (hs : s <:+ joined) :
    MadeOf text (trim s) :=
  (h.dropWhile_suffix hs).rdropWhile

end MadeOf

theorem infix_sliceText (text : CodeUnits) (start stop : Nat) :
    sliceText text start stop <:+: text :=
  (drop_suffix _ _).isInfix.trans <| IsPrefix.isInfix <| take_prefix _ _

namespace FlatTextChunker

variable {c : FlatTextChunker} {text : CodeUnits}

theorem infix_of_mem_splitLongText (part : CodeUnits) (start : Nat) :
    ∀ chunk ∈ c.splitLongText part start, chunk <:+: part := by
  fun_induction c.splitLongText part start with
  | case1 start hlt stop chunk ih =>
    intro t ht
    rcases mem_append.mp ht with ht | ht
    · rw [mem_ite_nil_right, mem_singleton] at ht
      rw [ht.2]
      exact (infix_trim _).trans (infix_sliceText _ _ _)
    · rw [mem_ite_nil_left] at ht
      exact ih t ht.2
  | case2 => exact nofun

def Packed (text : CodeUnits) (s : Packing) : Prop :=
  (∀ chunk ∈ s.chunks, MadeOf text chunk) ∧ MadeOf text s.current

theorem Packed.flush {s : Packing} (h : Packed text s) : ∀ chunk ∈ s.flush, MadeOf text chunk := by
  rw [Packing.flush]
  split_ifs
  · exact h.1
  · exact forall_mem_append.mpr ⟨h.1, by simpa using h.2⟩

theorem madeOf_withOverlap {previous next : CodeUnits} (h : MadeOf text previous)
    (hnext : next <:+: text) : MadeOf text (c.withOverlap previous next) := by
  rw [withOverlap]
  split_ifs
  · exact .of_within hnext
  · dsimp only
    split_ifs
    · exact .of_within hnext
    · exact (h.trim_suffix (drop_suffix _ _)).append (.of_within hnext)

theorem Packed.pack {s : Packing} (h : Packed text s) {part : CodeUnits} (hpart : part <:+: text) :
    Packed text (c.pack s part) := by
  by_cases hnil : part = []
  · simpa [FlatTextChunker.pack, hnil] using h
  · by_cases hlong : c.maxSize < part.length
    · rw [FlatTextChunker.pack, if_neg hnil, if_pos hlong]
      refine ⟨forall_mem_append.mpr ⟨h.flush, fun chunk hchunk => ?_⟩, .nil text⟩
      exact .of_within ((infix_of_mem_splitLongText part 0 chunk hchunk).trans hpart)
    · rw [FlatTextChunker.pack, if_neg hnil, if_neg hlong]
      have hnext : MadeOf text (if s.current = [] then part
          else s.current ++ blankLine ++ part) := by
        split_ifs
        · exact .of_within hpart
        · exact h.2.append (.of_within hpart)
      dsimp only
      generalize (if s.current = [] then part else s.current ++ blankLine ++ part) = next at hnext ⊢
      split_ifs
      · exact ⟨h.1, hnext⟩
      · exact ⟨forall_mem_append.mpr ⟨h.1, by simpa using h.2⟩, madeOf_withOverlap h.2 hpart⟩

theorem infix_of_mem_parts {part : CodeUnits} (h : part ∈ c.parts text) : part <:+: text := by
  rw [parts] at h
  split_ifs at h
  · rw [mem_singleton.mp h]
    exact infix_trim text
  · obtain ⟨piece, hpiece, rfl⟩ := mem_map.mp (mem_filter.mp h).1
    exact (infix_trim piece).trans (Delimiter.infix_of_mem_split hpiece)

theorem madeOf_of_mem_texts {chunk : CodeUnits} (h : chunk ∈ c.texts text) : MadeOf text chunk := by
  obtain ⟨packed, hpacked, rfl⟩ := mem_map.mp (mem_filter.mp h).1
  have hdone := List.foldlRecOn (motive := Packed text) (c.parts text) c.pack (b := ⟨[], []⟩)
    ⟨nofun, .nil text⟩ fun s hs part hpart => hs.pack (infix_of_mem_parts hpart)
  exact (hdone.flush packed hpacked).trim_suffix suffix_rfl

/-- **Chunks cover the text.** With a minimum size of at most 1: the pieces between the matches of
    the delimiter are in the chunks, in order and up to white space, each chunk ending with its
    share of them; the chunks are numbered in order; and each is made of parts of the text with
    blank lines between them. -/
theorem chunk_covers (c : FlatTextChunker) (hmin : c.minSize ≤ 1)
    (document : KnowledgeIngestDocument) :
    let pieces := c.delimiter.split document.text
    (∃ separators, document.text = interleave pieces separators ∧
      (∀ m ∈ separators, c.delimiter.Matches document.text m) ∧
      Covered ((c.chunk document).map (·.text)) (nonspace pieces.flatten)) ∧
    (∀ i (chunk : KnowledgeChunk), (c.chunk document)[i]? = some chunk → chunk.index = i) ∧
    ∀ chunk ∈ c.chunk document, ∃ parts : List CodeUnits,
      (∀ part ∈ parts, part <:+: document.text) ∧ chunk.text = blankLine.intercalate parts := by
  have htexts : (c.chunk document).map (·.text) = c.texts document.text := by
    refine ext_getElem? fun i => ?_
    simp [chunk, Function.comp_def]
  obtain ⟨separators, hseparators, htext⟩ := c.delimiter.split_interleave document.text
  refine ⟨⟨separators, htext, hseparators, htexts ▸ covered_texts hmin document.text⟩, ?_, ?_⟩
  · intro i chunk hchunk
    rw [FlatTextChunker.chunk, List.getElem?_mapIdx] at hchunk
    obtain ⟨text, -, rfl⟩ := Option.map_eq_some_iff.mp hchunk
    rfl
  · intro chunk hchunk
    refine madeOf_of_mem_texts (c := c) ?_
    rw [← htexts]
    exact mem_map_of_mem hchunk

/-- Paragraphs packed, one too long for a chunk, and one behind it. -/
theorem chunk_covers_paragraphs :
    let c : FlatTextChunker := ⟨.pattern blankLines, 10, 1, 3, by decide⟩
    let document : KnowledgeIngestDocument :=
      { id := "doc", text := ofString "abc\n \n\ndef gh\n\nijklmnopqrstuvwxyz\n\nend" }
    let pieces := c.delimiter.split document.text
    (∃ separators, document.text = interleave pieces separators ∧
      (∀ m ∈ separators, c.delimiter.Matches document.text m) ∧
      Covered ((c.chunk document).map (·.text)) (nonspace pieces.flatten)) ∧
    (∀ i (chunk : KnowledgeChunk), (c.chunk document)[i]? = some chunk → chunk.index = i) ∧
    ∀ chunk ∈ c.chunk document, ∃ parts : List CodeUnits,
      (∀ part ∈ parts, part <:+: document.text) ∧ chunk.text = blankLine.intercalate parts :=
  chunk_covers _ (Nat.le_refl 1) _

end FlatTextChunker

end Promin.Agent
