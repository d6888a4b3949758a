import Promin.ForStd.Text
import Promin.Shared.JsValue

/-!
# String literals in JSON text

The escapes of a string literal are a prefix code that never starts with a quotation mark,
so a literal determines its string, and the text after a literal is found again.
-/

namespace Promin

open List

def isEscaped (c : Char) : Bool := c == '"' || c == '\\' || decide (c.toNat < 32)

def escapeCode (c : Char) : List Char := (escapeChar c).toList

private theorem escapeCode_of_not_escaped {c : Char} (h : isEscaped c = false) :
    escapeCode c = [c] := by
  simp only [isEscaped, Bool.or_eq_false_iff, beq_eq_false_iff_ne, decide_eq_false_iff_not] at h
  obtain ⟨⟨hquote, hslash⟩, hcontrol⟩ := h
  have hne : ∀ d : Char, d.toNat < 32 → c ≠ d := by
    intro d hd heq
    exact hcontrol (heq ▸ hd)
  have h8 : c.toNat ≠ 8 := by omega
  have h12 : c.toNat ≠ 12 := by omega
  simp [escapeCode, escapeChar, hquote, hslash, hne '\n' (by decide), hne '\r' (by decide),
    hne '\t' (by decide), h8, h12, hcontrol]

/-- The characters below 32, the quotation mark and the backslash. -/
private def escapedChars : List Char := (34 :: 92 :: List.range 32).map Char.ofNat

private theorem mem_escapedChars {c : Char} (h : isEscaped c = true) : c ∈ escapedChars := by
  simp only [isEscaped, Bool.or_eq_true, beq_iff_eq, decide_eq_true_eq] at h
  rcases h with (rfl | rfl) | hcontrol
  · decide
  · decide
  · have hofNat : Char.ofNat c.toNat = c := Char.ofNat_toNat c
    simp only [escapedChars, map_cons, mem_cons, mem_map, mem_range]
    exact .inr (.inr ⟨c.toNat, hcontrol, hofNat⟩)

private theorem escapedChars_codes : ∀ c ∈ escapedChars,
    (escapeCode c).head? = some '\\' := by
  have hall : (escapedChars.all fun c => (escapeCode c).head? == some '\\') = true := by
    decide +kernel
  intro c hc
  simpa using all_eq_true.mp hall c hc

private theorem escapedChars_prefix_free : ∀ c ∈ escapedChars, ∀ d ∈ escapedChars,
    escapeCode c <+: escapeCode d → c = d := by
  have hall : (escapedChars.all fun c => escapedChars.all fun d =>
      !(escapeCode c).isPrefixOf (escapeCode d) || c == d) = true := by
    decide +kernel
  intro c hc d hd hstarts
  have hpair := all_eq_true.mp (all_eq_true.mp hall c hc) d hd
  rw [← isPrefixOf_iff_prefix] at hstarts
  simpa [hstarts] using hpair

private theorem head_of_escaped {c : Char} {l : List Char} (hc : isEscaped c = true)
    (h : escapeCode c <+: l) : l.head? = some '\\' := by
  have hhead := escapedChars_codes c (mem_escapedChars hc)
  obtain ⟨t, rfl⟩ := h
  rw [head?_append, hhead]
  rfl

private theorem head_of_not_escaped {c : Char} {l : List Char} (hc : isEscaped c = false)
    (h : escapeCode c <+: l) : l.head? = some c := by
  rw [escapeCode_of_not_escaped hc] at h
  obtain ⟨t, rfl⟩ := h
  rfl

theorem escapeCode_prefix_inj {c d : Char} {l : List Char} (hc : escapeCode c <+: l)
    (hd : escapeCode d <+: l) : c = d := by
  have hslash : isEscaped '\\' = true := by decide
  cases hcs : isEscaped c with
  | true =>
    cases hds : isEscaped d with
    | true =>
      cases prefix_or_prefix_of_prefix hc hd with
      | inl hp =>
        exact escapedChars_prefix_free c (mem_escapedChars hcs) d (mem_escapedChars hds) hp
      | inr hp =>
        exact (escapedChars_prefix_free d (mem_escapedChars hds) c (mem_escapedChars hcs) hp).symm
    | false =>
      have heq := (head_of_escaped hcs hc).symm.trans (head_of_not_escaped hds hd)
      rw [← Option.some.inj heq, hslash] at hds
      exact nomatch hds
  | false =>
    cases hds : isEscaped d with
    | true =>
      have heq := (head_of_escaped hds hd).symm.trans (head_of_not_escaped hcs hc)
      rw [← Option.some.inj heq, hslash] at hcs
      exact nomatch hcs
    | false =>
      exact Option.some.inj ((head_of_not_escaped hcs hc).symm.trans (head_of_not_escaped hds hd))

private theorem escapeCode_append_inj (c d : Char) (t t' : List Char)
    (h : escapeCode c ++ t = escapeCode d ++ t') : c = d ∧ t = t' := by
  have hcd : c = d := escapeCode_prefix_inj ⟨t, rfl⟩ ⟨t', h.symm⟩
  subst hcd
  exact ⟨rfl, append_cancel_left h⟩

private theorem escapeCode_append_ne_quote (c : Char) (t t' : List Char) :
    escapeCode c ++ t ≠ '"' :: t' := by
  intro h
  have hpre : escapeCode c <+: '"' :: t' := ⟨t, h⟩
  cases hc : isEscaped c with
  | true => exact nomatch head_of_escaped hc hpre
  | false =>
    have heq : '"' = c := Option.some.inj (head_of_not_escaped hc hpre)
    rw [← heq] at hc
    exact nomatch hc

theorem toList_quoted (s : String) :
    (quoted s).toList = '"' :: (s.toList.flatMap escapeCode ++ ['"']) := by
  have hjoin : (String.join (s.toList.map escapeChar)).toList = s.toList.flatMap escapeCode := by
    rw [String.toList_join, flatMap_map]
    rfl
  simp [quoted, hjoin]

theorem quoted_append_inj {s s' : String} {t t' : List Char}
    (h : (quoted s).toList ++ t = (quoted s').toList ++ t') : s = s' ∧ t = t' := by
  rw [toList_quoted, toList_quoted] at h
  simp only [cons_append, append_assoc, List.cons.injEq, true_and] at h
  obtain ⟨hs, ht⟩ := flatMap_append_inj escapeCode_append_inj escapeCode_append_ne_quote h
  exact ⟨String.toList_inj.mp hs, ht⟩

end Promin
