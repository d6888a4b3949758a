import Mathlib.Data.List.Forall2
import Mathlib.Data.List.Infix

/-!
# Patterns of item classes

A pattern is a sequence of pieces: one of some items, a run of items of a class,
or an item that may be missing.
-/

namespace Patterns

open Option
open List hiding all_eq_true

/-- A part of a pattern. -/
inductive Piece (α : Type) where
  | one (items : List α)
  | many (cls : α → Bool)
  | opt (items : List α)

variable {α : Type}

def Piece.Takes : Piece α → List α → Prop
  | .one items, w => ∃ a ∈ items, w = [a]
  | .many cls, w => ∀ a ∈ w, cls a = true
  | .opt items, w => w = [] ∨ ∃ a ∈ items, w = [a]

abbrev Take (pieces : List (Piece α)) (words : List (List α)) : Prop :=
  List.Forall₂ Piece.Takes pieces words

/-! ## Search -/

/-- The longest run of a class after which the search goes on. -/
def greedy (cls : α → Bool) (go : List α → Option (List (List α))) (taken : List α) :
    List α → Option (List (List α))
  | [] => (go []).map (taken :: ·)
  | a :: s =>
    if cls a then
      (greedy cls go (taken ++ [a]) s).or ((go (a :: s)).map (taken :: ·))
    else (go (a :: s)).map (taken :: ·)

variable [DecidableEq α]

def findPrefix : List (Piece α) → List α → Option (List (List α))
  | [], _ => some []
  | .one _ :: _, [] => none
  | .one items :: pieces, a :: s =>
    if a ∈ items then (findPrefix pieces s).map ([a] :: ·) else none
  | .many cls :: pieces, s => greedy cls (findPrefix pieces) [] s
  | .opt _ :: pieces, [] => (findPrefix pieces []).map ([] :: ·)
  | .opt items :: pieces, a :: s =>
    (if a ∈ items then (findPrefix pieces s).map ([a] :: ·) else none).or
      ((findPrefix pieces (a :: s)).map ([] :: ·))

variable {words : List (List α)} {s w : List α}

omit [DecidableEq α] in
private theorem greedy_sound {cls : α → Bool} {go : List α → Option (List (List α))}
    {taken : List α} (h : greedy cls go taken s = some words) :
    ∃ w rest more, s = w ++ rest ∧ (∀ a ∈ w, cls a = true) ∧ go rest = some more ∧
      words = (taken ++ w) :: more := by
  have hstop : ∀ taken s, (go s).map (taken :: ·) = some words →
      ∃ w rest more, s = w ++ rest ∧ (∀ a ∈ w, cls a = true) ∧ go rest = some more ∧
        words = (taken ++ w) :: more := by
    intro taken s hs
    obtain ⟨more, hmore, rfl⟩ := map_eq_some_iff.mp hs
    exact ⟨[], s, more, rfl, nofun, hmore, by rw [append_nil]⟩
  induction s generalizing taken with
  | nil => exact hstop taken [] h
  | cons a s ih =>
    rw [greedy] at h
    split at h
    · rename_i ha
      rcases or_eq_some_iff.mp h with hmore | ⟨-, hmore⟩
      · obtain ⟨w, rest, more, rfl, hw, hgo, hwords⟩ := ih hmore
        refine ⟨a :: w, rest, more, rfl, forall_mem_cons.mpr ⟨ha, hw⟩, hgo, ?_⟩
        rw [hwords, append_assoc]
        rfl
      · exact hstop taken _ hmore
    · exact hstop taken _ h

omit [DecidableEq α] in
private theorem greedy_complete {cls : α → Bool} {go : List α → Option (List (List α))}
    {rest : List α} (hw : ∀ a ∈ w, cls a = true) (hgo : (go rest).isSome) (taken : List α) :
    (greedy cls go taken (w ++ rest)).isSome := by
  induction w generalizing taken with
  | nil =>
    cases rest with
    | nil =>
      show ((go []).map (taken :: ·)).isSome
      rwa [isSome_map]
    | cons a rest =>
      rw [nil_append, greedy]
      split
      · rw [isSome_or, isSome_map, hgo, Bool.or_true]
      · rwa [isSome_map]
  | cons a w ih =>
    obtain ⟨ha, hw⟩ := forall_mem_cons.mp hw
    rw [cons_append, greedy, if_pos ha, isSome_or, ih hw, Bool.true_or]

variable {pieces : List (Piece α)}

theorem findPrefix_sound
    (h : findPrefix pieces s = some words) : Take pieces words ∧ words.flatten <+: s := by
  induction pieces generalizing s words with
  | nil =>
    cases h
    exact ⟨.nil, nil_prefix⟩
  | cons piece pieces ih =>
    have hread : ∀ a s, (findPrefix pieces s).map ([a] :: ·) = some words →
        ∃ more, words = [a] :: more ∧ Take pieces more ∧ words.flatten <+: a :: s := by
      intro a s hs
      obtain ⟨more, hmore, rfl⟩ := map_eq_some_iff.mp hs
      obtain ⟨htake, hpre⟩ := ih hmore
      exact ⟨more, rfl, htake, cons_prefix_cons.mpr ⟨rfl, hpre⟩⟩
    have hskip : ∀ s, (findPrefix pieces s).map ([] :: ·) = some words →
        ∃ more, words = [] :: more ∧ Take pieces more ∧ words.flatten <+: s := by
      intro s hs
      obtain ⟨more, hmore, rfl⟩ := map_eq_some_iff.mp hs
      exact ⟨more, rfl, ih hmore⟩
    cases piece with
    | one items =>
      cases s with
      | nil => exact nomatch h
      | cons a s =>
        rw [findPrefix] at h
        split at h
        · rename_i ha
          obtain ⟨more, rfl, htake, hpre⟩ := hread a s h
          exact ⟨.cons ⟨a, ha, rfl⟩ htake, hpre⟩
        · exact nomatch h
    | many cls =>
      obtain ⟨w, rest, more, rfl, hw, hgo, rfl⟩ := greedy_sound h
      obtain ⟨htake, hpre⟩ := ih hgo
      refine ⟨.cons hw htake, ?_⟩
      exact (prefix_append_right_inj w).mpr hpre
    | opt items =>
      cases s with
      | nil =>
        obtain ⟨more, rfl, htake, hpre⟩ := hskip [] h
        exact ⟨.cons (.inl rfl) htake, hpre⟩
      | cons a s =>
        rw [findPrefix] at h
        rcases or_eq_some_iff.mp h with hfound | ⟨-, hfound⟩
        · split at hfound
          · rename_i ha
            obtain ⟨more, rfl, htake, hpre⟩ := hread a s hfound
            exact ⟨.cons (.inr ⟨a, ha, rfl⟩) htake, hpre⟩
          · exact nomatch hfound
        · obtain ⟨more, rfl, htake, hpre⟩ := hskip _ hfound
          exact ⟨.cons (.inl rfl) htake, hpre⟩

theorem findPrefix_complete
    (h : Take pieces words) (s : List α) : (findPrefix pieces (words.flatten ++ s)).isSome := by
  induction h with
  | nil => rfl
  | @cons piece w pieces words hw _ ih =>
    rw [flatten_cons, append_assoc]
    cases piece with
    | one items =>
      obtain ⟨a, ha, rfl⟩ := hw
      rw [singleton_append, findPrefix, if_pos ha, isSome_map]
      exact ih
    | many cls => exact greedy_complete hw ih []
    | opt items =>
      rcases hw with rfl | ⟨a, ha, rfl⟩
      · rw [nil_append]
        cases hs : words.flatten ++ s with
        | nil =>
          rw [hs] at ih
          rwa [findPrefix, isSome_map]
        | cons a s' =>
          rw [hs] at ih
          rw [findPrefix, isSome_or]
          simp [ih]
      · rw [singleton_append, findPrefix, if_pos ha, isSome_or, isSome_map,
          ih, Bool.true_or]

/-! ## Alternatives -/

/-- An alternative of a pattern, with a group inside. -/
structure Branch (α : Type) where
  before : List (Piece α)
  group : List (Piece α)
  after : List (Piece α)

structure Match (α : Type) where
  text : List α
  group : List α

def Branch.Reads (b : Branch α) (m : Match α) : Prop :=
  ∃ us gs vs, Take b.before us ∧ Take b.group gs ∧ Take b.after vs ∧
    m.text = us.flatten ++ (gs.flatten ++ vs.flatten) ∧ m.group = gs.flatten

def Branch.exec (b : Branch α) (s : List α) : Option (Match α) :=
  (findPrefix (b.before ++ (b.group ++ b.after)) s).map fun words =>
    { text := words.flatten
      group := ((words.drop b.before.length).take b.group.length).flatten }

def exec (branches : List (Branch α)) (s : List α) : Option (Match α) :=
  branches.findSome? fun b => b.exec s

omit [DecidableEq α] in
private theorem take_append {ps qs : List (Piece α)}
    (h : Take (ps ++ qs) words) :
    Take ps (words.take ps.length) ∧ Take qs (words.drop ps.length) := by
  constructor
  · have htake := forall₂_take ps.length h
    rwa [take_left] at htake
  · have hdrop := forall₂_drop ps.length h
    rwa [drop_left] at hdrop

theorem exec_sound {branches : List (Branch α)} {m : Match α}
    (h : exec branches s = some m) : (∃ b ∈ branches, b.Reads m) ∧ m.text <+: s := by
  obtain ⟨b, hb, hexec⟩ := exists_of_findSome?_eq_some h
  obtain ⟨words, hwords, rfl⟩ := map_eq_some_iff.mp hexec
  obtain ⟨htake, hpre⟩ := findPrefix_sound hwords
  obtain ⟨hbefore, hrest⟩ := take_append htake
  obtain ⟨hgroup, hafter⟩ := take_append hrest
  refine ⟨⟨b, hb, _, _, _, hbefore, hgroup, hafter, ?_, rfl⟩, hpre⟩
  simp only [← flatten_append, take_append_drop]

theorem exec_complete {branches : List (Branch α)} {b : Branch α} (hb : b ∈ branches)
    {m : Match α} (hreads : b.Reads m) (s : List α) : (exec branches (m.text ++ s)).isSome := by
  obtain ⟨us, gs, vs, hus, hgs, hvs, htext, -⟩ := hreads
  have hfound := findPrefix_complete (rel_append hus (rel_append hgs hvs)) s
  rw [exec, List.findSome?_isSome_iff]
  refine ⟨b, hb, ?_⟩
  rw [Branch.exec, isSome_map, htext]
  simpa using hfound

/-! ## Replacement -/

/-- Rewrite the matches of a list of which some items are still to be skipped.  No alternative
    matches the empty list. -/
def replaceFrom (branches : List (Branch α)) (f : Match α → List α) : Nat → List α → List α
  | _, [] => []
  | skip + 1, _ :: s => replaceFrom branches f skip s
  | 0, a :: s =>
    match exec branches (a :: s) with
    | none => a :: replaceFrom branches f 0 s
    | some m => f m ++ replaceFrom branches f (m.text.length - 1) s

def replace (branches : List (Branch α)) (f : Match α → List α) (s : List α) : List α :=
  replaceFrom branches f 0 s

section Replace

variable {branches : List (Branch α)} {f : Match α → List α}

theorem replaceFrom_skip (skip : Nat) (s : List α) :
    replaceFrom branches f skip s = replace branches f (s.drop skip) := by
  induction skip generalizing s with
  | zero => rfl
  | succ skip ih =>
    cases s with
    | nil => rfl
    | cons a s => exact ih s

variable {s : List α}

theorem replace_cons {a : α} (h : exec branches (a :: s) = none) :
    replace branches f (a :: s) = a :: replace branches f s := by
  rw [replace, replaceFrom, h]
  rfl

theorem replace_match {m : Match α} (h : exec branches (m.text ++ s) = some m)
    (hne : m.text ≠ []) : replace branches f (m.text ++ s) = f m ++ replace branches f s := by
  obtain ⟨a, w, hw⟩ := exists_cons_of_ne_nil hne
  rw [hw, cons_append] at h ⊢
  rw [replace, replaceFrom, h]
  simp only
  rw [replaceFrom_skip, hw, length_cons, Nat.add_sub_cancel, drop_left]

theorem replace_induction {P : List α → Prop} (hne : ∀ b ∈ branches, ∀ m, b.Reads m → m.text ≠ [])
    (nil : P []) (cons : ∀ a s, exec branches (a :: s) = none → P s → P (a :: s))
    (found : ∀ m s, exec branches (m.text ++ s) = some m → P s → P (m.text ++ s)) (s : List α) :
    P s := by
  induction hn : s.length using Nat.strong_induction_on generalizing s with
  | _ n ih =>
    cases hexec : exec branches s with
    | none =>
      cases s with
      | nil => exact nil
      | cons a s => exact cons a s hexec (ih s.length (by rw [← hn]; simp) s rfl)
    | some m =>
      obtain ⟨⟨b, hb, hreads⟩, t, rfl⟩ := exec_sound hexec
      have hpos := length_pos_iff.mpr (hne b hb m hreads)
      refine found m t hexec (ih t.length ?_ t rfl)
      rw [← hn, length_append]
      omega

theorem replace_eq_self (h : ∀ x m y, s = x ++ (m.text ++ y) → ∀ b ∈ branches, ¬ b.Reads m) :
    replace branches f s = s := by
  induction s with
  | nil => rfl
  | cons a s ih =>
    have hnone : exec branches (a :: s) = none := by
      cases hexec : exec branches (a :: s) with
      | none => rfl
      | some m =>
        obtain ⟨⟨b, hb, hreads⟩, y, hy⟩ := exec_sound hexec
        exact absurd hreads (h [] m y hy.symm b hb)
    rw [replace_cons hnone, ih]
    intro x m y hs
    exact h (a :: x) m y (by rw [hs]; rfl)

end Replace

/-! ## Key items -/

def Piece.within (K : List α) : Piece α → Bool
  | .one items => items.all (· ∈ K)
  | .many _ | .opt _ => false

def Piece.avoids (K : List α) : Piece α → Bool
  | .one items | .opt items => items.all (· ∉ K)
  | .many cls => K.all fun a => !cls a

def keyed (K : List α) (pieces : List (Piece α)) : Bool :=
  (pieces.all fun p => p.within K || p.avoids K) && pieces.getLast?.any (·.within K)

def keyCount (K : List α) (pieces : List (Piece α)) : Nat := pieces.countP (·.within K)

variable {K : List α}

private theorem within_takes {p : Piece α} (h : p.within K = true)
    (hw : p.Takes w) : ∃ a ∈ K, w = [a] := by
  cases p with
  | one items =>
    obtain ⟨a, ha, rfl⟩ := hw
    exact ⟨a, by simpa using List.all_eq_true.mp h a ha, rfl⟩
  | many cls | opt items => exact nomatch h

theorem avoids_takes {p : Piece α} (h : p.avoids K = true) (hw : p.Takes w) : ∀ a ∈ w, a ∉ K := by
  intro a ha
  cases p with
  | one items =>
    obtain ⟨b, hb, rfl⟩ := hw
    obtain rfl := mem_singleton.mp ha
    simpa using List.all_eq_true.mp h a hb
  | many cls =>
    intro hkey
    have hcls := List.all_eq_true.mp h a hkey
    rw [hw a ha] at hcls
    exact nomatch hcls
  | opt items =>
    rcases hw with rfl | ⟨b, hb, rfl⟩
    · exact nomatch ha
    · obtain rfl := mem_singleton.mp ha
      simpa using List.all_eq_true.mp h a hb

theorem take_avoids (h : pieces.all (·.avoids K) = true) (hwords : Take pieces words) :
    ∀ a ∈ words.flatten, a ∉ K := by
  induction hwords with
  | nil => exact nofun
  | cons hw _ ih =>
    rw [all_cons, Bool.and_eq_true] at h
    intro a ha
    rcases mem_append.mp ha with ha | ha
    · exact avoids_takes h.1 hw a ha
    · exact ih h.2 a ha

private theorem countP_take (h : ∀ p ∈ pieces, (p.within K || p.avoids K) = true)
    (hwords : Take pieces words) :
    words.flatten.countP (· ∈ K) = keyCount K pieces := by
  induction hwords with
  | nil => rfl
  | @cons p w pieces words hw _ ih =>
    obtain ⟨hp, hpieces⟩ := forall_mem_cons.mp h
    have hcons : keyCount K (p :: pieces) =
        keyCount K pieces + if p.within K then 1 else 0 := countP_cons
    rw [flatten_cons, countP_append, ih hpieces, hcons, Nat.add_comm]
    congr 1
    cases hwithin : p.within K with
    | true =>
      obtain ⟨a, ha, rfl⟩ := within_takes hwithin hw
      simp [ha]
    | false =>
      rw [hwithin, Bool.false_or] at hp
      rw [countP_eq_zero.mpr]
      · rfl
      · intro a ha
        simpa using avoids_takes hp hw a ha

theorem ends_take (h : pieces.getLast?.any (·.within K) = true)
    (hwords : Take pieces words) : ∃ v a, a ∈ K ∧ words.flatten = v ++ [a] := by
  obtain ⟨p, hlast, hp⟩ := (any_eq_true _ _).mp h
  obtain ⟨init, rfl⟩ := List.getLast?_eq_some_iff.mp hlast
  obtain ⟨-, hone⟩ := take_append hwords
  rw [← take_append_drop init.length words, flatten_append]
  generalize words.drop init.length = rest at hone
  cases hone with
  | cons hw hnil =>
    cases hnil
    obtain ⟨a, ha, rfl⟩ := within_takes hp hw
    exact ⟨_, a, ha, by rw [flatten_singleton]⟩

private theorem eq_of_prefix_of_keys {P Q : List (Piece α)}
    (hps : keyed K P = true) (hqs : keyed K Q = true)
    (hcount : keyCount K P = keyCount K Q) {us vs : List (List α)} (hus : Take P us)
    (hvs : Take Q vs) (hpre : us.flatten <+: vs.flatten) : us.flatten = vs.flatten := by
  rw [keyed, Bool.and_eq_true, List.all_eq_true] at hps hqs
  have hu := countP_take hps.1 hus
  have hv := countP_take hqs.1 hvs
  obtain ⟨v, a, ha, hends⟩ := ends_take hqs.2 hvs
  obtain ⟨rest, hrest⟩ := hpre
  rcases eq_nil_or_concat rest with rfl | ⟨more, b, rfl⟩
  · rw [← hrest, append_nil]
  · -- The last item is a key that the shorter word does not have.
    rw [concat_eq_append] at hrest
    have hb : b = a := by
      rw [hends, ← append_assoc] at hrest
      exact (append_singleton_inj.mp hrest).2
    rw [← hrest, countP_append, countP_append, hb] at hv
    have hone : [a].countP (· ∈ K) = 1 := by simp [ha]
    omega

theorem eq_of_prefix {P Q : List (Piece α)} (hps : keyed K P = true)
    (hqs : keyed K Q = true) (hcount : keyCount K P = keyCount K Q)
    {us vs : List (List α)} (hus : Take P us) (hvs : Take Q vs)
    (hu : us.flatten <+: s) (hv : vs.flatten <+: s) : us.flatten = vs.flatten := by
  rcases prefix_or_prefix_of_prefix hu hv with hpre | hpre
  · exact eq_of_prefix_of_keys hps hqs hcount hus hvs hpre
  · exact (eq_of_prefix_of_keys hqs hps hcount.symm hvs hus hpre).symm

end Patterns
