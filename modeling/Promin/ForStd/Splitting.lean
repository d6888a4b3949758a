import Mathlib.Algebra.Order.BigOperators.Group.List
import Mathlib.Algebra.Order.Ring.Nat
import Mathlib.Data.List.Infix

/-!
# Cutting lists at a separator

A text is cut at each occurrence of a separator, found from the left and without
overlaps. An empty separator cuts between all items.
-/

namespace Splitting

open List

variable {α : Type} [DecidableEq α]

def splitFrom (sep : List α) : Nat → List α → List α → List (List α)
  | _, piece, [] => [piece]
  | skip + 1, piece, _ :: rest => splitFrom sep skip piece rest
  | 0, piece, a :: rest =>
    if sep.isPrefixOf (a :: rest) then piece :: splitFrom sep (sep.length - 1) [] rest
    else splitFrom sep 0 (piece ++ [a]) rest

def split (sep text : List α) : List (List α) :=
  if sep = [] then text.map fun a => [a] else splitFrom sep 0 [] text

theorem splitFrom_skip (sep : List α) (skip : Nat) (piece text : List α) :
    splitFrom sep skip piece text = splitFrom sep 0 piece (text.drop skip) := by
  induction skip generalizing text with
  | zero => rfl
  | succ skip ih =>
    cases text with
    | nil => rfl
    | cons a rest => exact ih rest

theorem splitFrom_piece (sep : List α) (piece text : List α) :
    splitFrom sep 0 piece text = (splitFrom sep 0 [] text).modifyHead (piece ++ ·) := by
  induction text generalizing piece with
  | nil =>
    show [piece] = [piece ++ []]
    rw [append_nil]
  | cons a rest ih =>
    rw [splitFrom, splitFrom]
    split
    · rw [modifyHead_cons, append_nil]
    · rw [ih, ih ([] ++ [a]), modifyHead_modifyHead]
      congr 1
      funext x
      simp

variable {sep : List α}

@[simp] theorem split_nil (hsep : sep ≠ []) : split sep [] = [[]] := by
  rw [split, if_neg hsep]
  rfl

theorem split_cons (hsep : sep ≠ []) (a : α) (rest : List α) :
    split sep (a :: rest) = if sep <+: a :: rest then [] :: split sep ((a :: rest).drop sep.length)
      else (split sep rest).modifyHead (a :: ·) := by
  have hlength : 0 < sep.length := length_pos_iff.mpr hsep
  simp only [split, if_neg hsep]
  rw [splitFrom]
  by_cases hstarts : sep <+: a :: rest
  · rw [if_pos <| isPrefixOf_iff_prefix.mpr hstarts, if_pos hstarts, splitFrom_skip]
    congr 2
    obtain ⟨n, hn⟩ : ∃ n, sep.length = n + 1 := ⟨sep.length - 1, by omega⟩
    rw [hn]
    rfl
  · rw [if_neg fun h => hstarts <| isPrefixOf_iff_prefix.mp h, if_neg hstarts, splitFrom_piece]
    rfl

theorem split_cases (hsep : sep ≠ []) (text : List α) :
    (¬ sep <:+: text ∧ split sep text = [text]) ∨
    ∃ piece rest, text = piece ++ (sep ++ rest) ∧ split sep text = piece :: split sep rest ∧
      ∀ x y, text = x ++ (sep ++ y) → piece.length ≤ x.length := by
  induction text with
  | nil =>
    left
    exact ⟨fun h => hsep (infix_nil.mp h), split_nil hsep⟩
  | cons a text ih =>
    rw [split_cons hsep]
    by_cases hstarts : sep <+: a :: text
    · right
      obtain ⟨rest, hrest⟩ := hstarts
      refine ⟨[], rest, hrest.symm, ?_, fun x y _ => Nat.zero_le _⟩
      rw [if_pos ⟨rest, hrest⟩, ← hrest, drop_left]
    · rw [if_neg hstarts]
      rcases ih with ⟨hnone, hsplit⟩ | ⟨piece, rest, htext, hsplit, hfirst⟩
      · left
        rw [hsplit]
        refine ⟨fun h => ?_, rfl⟩
        exact (infix_cons_iff.mp h).elim hstarts hnone
      · right
        refine ⟨a :: piece, rest, by rw [htext]; rfl, by rw [hsplit]; rfl, fun x y hxy => ?_⟩
        cases x with
        | nil => exact absurd ⟨y, hxy.symm⟩ hstarts
        | cons b x =>
          have hle := hfirst x y (List.cons.inj hxy).2
          show piece.length + 1 ≤ x.length + 1
          omega

/-! ## Pieces -/

theorem split_ne_nil (hsep : sep ≠ []) (text : List α) : split sep text ≠ [] := by
  rcases split_cases hsep text with ⟨-, hsplit⟩ | ⟨piece, rest, -, hsplit, -⟩ <;> rw [hsplit] <;>
    exact cons_ne_nil _ _

theorem exists_split (hsep : sep ≠ []) (text : List α) :
    ∃ piece more, split sep text = piece :: more ∧ piece <+: text ∧
      (∀ x y, text = x ++ (sep ++ y) → piece.length ≤ x.length) ∧
      ((piece = text ∧ more = []) ∨
        ∃ rest, text = piece ++ (sep ++ rest) ∧ more = split sep rest) := by
  rcases split_cases hsep text with ⟨hnone, hsplit⟩ | ⟨piece, rest, htext, hsplit, hfirst⟩
  · refine ⟨text, [], hsplit, prefix_rfl, fun x y hxy => ?_, .inl ⟨rfl, rfl⟩⟩
    exact absurd ⟨x, y, by rw [hxy, append_assoc]⟩ hnone
  · exact ⟨piece, split sep rest, hsplit, ⟨sep ++ rest, htext.symm⟩, hfirst,
      .inr ⟨rest, htext, rfl⟩⟩

theorem split_eq_singleton (hsep : sep ≠ []) {text : List α} (h : ¬ sep <:+: text) :
    split sep text = [text] := by
  rcases split_cases hsep text with ⟨-, hsplit⟩ | ⟨piece, rest, htext, -, -⟩
  · exact hsplit
  · exact absurd ⟨piece, rest, by rw [htext, append_assoc]⟩ h

theorem intercalate_split (sep text : List α) : sep.intercalate (split sep text) = text := by
  by_cases hsep : sep = []
  · rw [hsep, split, if_pos rfl]
    induction text with
    | nil => rfl
    | cons a rest ih =>
      cases rest with
      | nil => rfl
      | cons b rest =>
        rw [map_cons, map_cons, intercalate_cons_cons]
        exact congrArg (a :: ·) ih
  · induction hn : text.length using Nat.strong_induction_on generalizing text with
    | _ n ih =>
      rcases split_cases hsep text with ⟨-, hsplit⟩ | ⟨piece, rest, htext, hsplit, -⟩
      · rw [hsplit, intercalate_singleton]
      · have hlength : 0 < sep.length := length_pos_iff.mpr hsep
        have hrest := ih rest.length (by
          rw [← hn, htext, length_append, length_append]
          omega) rest rfl
        rw [hsplit, intercalate_cons_of_ne_nil (split_ne_nil hsep rest), hrest, htext]
        simp

theorem infix_of_mem_split {text piece : List α} (h : piece ∈ split sep text) :
    piece <:+: text := by
  rw [← intercalate_split sep text]
  generalize split sep text = pieces at h
  induction pieces with
  | nil => exact nomatch h
  | cons x pieces ih =>
    cases pieces with
    | nil =>
      obtain rfl := mem_singleton.mp h
      rw [intercalate_singleton]
    | cons y pieces =>
      rw [intercalate_cons_cons]
      rcases mem_cons.mp h with rfl | h
      · rw [append_assoc]
        exact (prefix_append piece _).isInfix
      · exact (ih h).trans (suffix_append _ _).isInfix

omit [DecidableEq α] in
theorem of_mem_splitOnP {p : α → Bool} {text piece : List α} (h : piece ∈ text.splitOnP p) :
    ∀ a ∈ piece, p a = false := by
  induction text generalizing piece with
  | nil =>
    obtain rfl := mem_singleton.mp h
    exact fun _ ha => nomatch ha
  | cons b text ih =>
    rw [splitOnP_cons_eq_if_modifyHead] at h
    split at h
    · rcases mem_cons.mp h with rfl | h
      · exact fun _ ha => nomatch ha
      · exact ih h
    · rename_i hb
      obtain ⟨first, pieces, hpieces⟩ := exists_cons_of_ne_nil (splitOnP_ne_nil p text)
      rw [hpieces] at h ih
      rcases mem_cons.mp h with rfl | h
      · rw [forall_mem_cons]
        exact ⟨Bool.not_eq_true _ ▸ hb, ih mem_cons_self⟩
      · exact ih (mem_cons_of_mem _ h)

/-! ## Joining -/

omit [DecidableEq α] in
theorem mem_intercalate {a : α} : ∀ {pieces : List (List α)}, a ∈ sep.intercalate pieces →
    (∃ piece ∈ pieces, a ∈ piece) ∨ (2 ≤ pieces.length ∧ a ∈ sep)
  | [], h => nomatch h
  | [x], h => by
    rw [intercalate_singleton] at h
    exact .inl ⟨x, mem_singleton_self x, h⟩
  | x :: y :: pieces, h => by
    rw [intercalate_cons_cons, mem_append, mem_append] at h
    rcases h with (h | h) | h
    · exact .inl ⟨x, mem_cons_self, h⟩
    · exact .inr ⟨by simp, h⟩
    · rcases mem_intercalate h with ⟨piece, hpiece, ha⟩ | ⟨-, ha⟩
      · exact .inl ⟨piece, mem_cons_of_mem _ hpiece, ha⟩
      · exact .inr ⟨by simp, ha⟩


omit [DecidableEq α] in
theorem nil_intercalate (pieces : List (List α)) : [].intercalate pieces = pieces.flatten := by
  induction pieces with
  | nil => rfl
  | cons x pieces ih =>
    cases pieces with
    | nil => simp [intercalate_singleton]
    | cons y pieces =>
      rw [intercalate_cons_cons, ih, append_nil]
      rfl

omit [DecidableEq α] in
theorem length_intercalate (sep : List α) : ∀ {pieces : List (List α)}, pieces ≠ [] →
    (sep.intercalate pieces).length + sep.length =
      (pieces.map List.length).sum + pieces.length * sep.length
  | [], h => absurd rfl h
  | [x], _ => by simp [intercalate_singleton]
  | x :: y :: pieces, _ => by
    have ih := length_intercalate sep (cons_ne_nil y pieces)
    rw [intercalate_cons_cons, length_append, length_append, map_cons,
      sum_cons, length_cons, Nat.succ_mul]
    omega

omit [DecidableEq α] in
theorem eq_of_sublist_of_sum_le {l l' : List α} (f : α → Nat) (h : l.Sublist l')
    (hpos : ∀ x ∈ l', 0 < f x) (hsum : (l'.map f).sum ≤ (l.map f).sum) : l = l' := by
  induction h with
  | slnil => rfl
  | @cons l l' a h ih =>
    have hle : (l.map f).sum ≤ (l'.map f).sum := (h.map f).sum_le_sum fun _ _ => Nat.zero_le _
    have ha := hpos a mem_cons_self
    rw [map_cons, sum_cons] at hsum
    omega
  | @cons_cons l l' a h ih =>
    rw [map_cons, map_cons, sum_cons, sum_cons] at hsum
    rw [ih (fun x hx => hpos x (mem_cons_of_mem _ hx)) (by omega)]

omit [DecidableEq α] in
theorem eq_of_sum_le {l : List α} {f g : α → Nat} (hle : ∀ x ∈ l, f x ≤ g x)
    (hsum : (l.map g).sum ≤ (l.map f).sum) : ∀ x ∈ l, f x = g x := by
  induction l with
  | nil => exact fun _ hx => nomatch hx
  | cons a l ih =>
    obtain ⟨ha, hl⟩ := forall_mem_cons.mp hle
    have hrest : (l.map f).sum ≤ (l.map g).sum := sum_le_sum hl
    rw [map_cons, map_cons, sum_cons, sum_cons] at hsum
    rw [forall_mem_cons]
    exact ⟨by omega, ih hl (by omega)⟩

theorem eq_split_of_sublist {texts : List (List α)} (hne : texts ≠ []) (shorten : List α → List α)
    (hshorten : ∀ x, shorten x <:+: x)
    (hsub : texts.Sublist ((split sep (sep.intercalate texts)).map shorten)) :
    split sep (sep.intercalate texts) = texts ∧ ∀ x ∈ texts, shorten x = x := by
  obtain ⟨pieces, hpieces⟩ : ∃ pieces, pieces = split sep (sep.intercalate texts) := ⟨_, rfl⟩
  have hjoin : sep.intercalate pieces = sep.intercalate texts := by
    rw [hpieces, intercalate_split]
  rw [← hpieces] at hsub ⊢
  have hpiecesNe : pieces ≠ [] := fun h => hne (by
    rw [h] at hsub
    exact sublist_nil.mp hsub)
  have htotal := length_intercalate sep hpiecesNe
  rw [hjoin, length_intercalate sep hne] at htotal
  have hlengths : (texts.map List.length).sum ≤ ((pieces.map shorten).map List.length).sum :=
    (hsub.map List.length).sum_le_sum fun _ _ => Nat.zero_le _
  have hshorter : ((pieces.map shorten).map List.length).sum ≤ (pieces.map List.length).sum := by
    rw [map_map]
    exact sum_le_sum fun x _ => (hshorten x).length_le
  have hcount := hsub.length_le
  rw [length_map] at hcount
  have hseps : texts.length * sep.length ≤ pieces.length * sep.length :=
    Nat.mul_le_mul_right _ hcount
  -- so nothing was shortened
  have hsame : ∀ x ∈ pieces, shorten x = x := by
    intro x hx
    refine (hshorten x).eq_of_length ?_
    refine eq_of_sum_le (l := pieces) (f := fun x => (shorten x).length)
      (fun x _ => (hshorten x).length_le) ?_ x hx
    rw [map_map] at hshorter hlengths
    show (pieces.map List.length).sum ≤ (pieces.map (List.length ∘ shorten)).sum
    omega
  have hid : pieces.map shorten = pieces := (map_congr_left hsame).trans (map_id pieces)
  rw [hid] at hsub
  have heq : texts = pieces := by
    by_cases hsep : sep = []
    · refine eq_of_sublist_of_sum_le List.length hsub (fun x hx => ?_) (by
        rw [hsep, length_nil, Nat.mul_zero, Nat.mul_zero] at htotal
        omega)
      rw [hpieces, split, if_pos hsep] at hx
      obtain ⟨a, -, rfl⟩ := mem_map.mp hx
      exact Nat.one_pos
    · have hpos := length_pos_iff.mpr hsep
      refine hsub.eq_of_length_le (Nat.le_of_mul_le_mul_right ?_ hpos)
      rw [map_map] at hshorter hlengths
      omega
  exact ⟨heq.symm, fun x hx => hsame x (heq ▸ hx)⟩

/-! ## Separators that begin anew -/

omit [DecidableEq α] in
/-- A separator that begins with `n + 1` equal items, and then anew, has no others. -/
theorem eq_of_prefix_replicate {a : α} {n : Nat} {rest : List α}
    (h : sep <+: List.replicate (n + 1) a ++ rest) (hrest : rest = [] ∨ sep <+: rest) :
    ∀ x ∈ sep, x = a := by
  rcases hrest with rfl | hrest
  · rw [append_nil] at h
    exact fun x hx => eq_of_mem_replicate (h.subset hx)
  · have hall : ∀ i (hi : i < sep.length), sep[i] = a := by
      intro i
      induction i using Nat.strong_induction_on with
      | _ i ih =>
        intro hi
        have hget := prefix_iff_getElem?.mp h i hi
        by_cases hlt : i < n + 1
        · rw [getElem?_append_left (by simpa using hlt), getElem?_replicate_of_lt hlt]
            at hget
          exact (Option.some.inj hget).symm
        · rw [getElem?_append_right (by simpa using hlt), length_replicate,
            prefix_iff_getElem?.mp hrest _ (by omega)] at hget
          rw [← Option.some.inj hget]
          exact ih _ (by omega) (by omega)
    intro x hx
    obtain ⟨i, hi, rfl⟩ := getElem_of_mem hx
    exact hall i hi

omit [DecidableEq α] in
theorem prefix_cons_of_forall_eq {a : α} {text : List α} (hsep : ∀ x ∈ sep, x = a)
    (h : sep <+: text) : sep <+: a :: text := by
  rw [eq_replicate_of_mem hsep] at h ⊢
  have hlonger : List.replicate sep.length a <+: a :: List.replicate sep.length a := by
    rw [← replicate_succ, prefix_replicate_iff, length_replicate]
    exact ⟨Nat.le_succ _, rfl⟩
  exact hlonger.trans (prefix_cons_inj a |>.mpr h)

end Splitting
