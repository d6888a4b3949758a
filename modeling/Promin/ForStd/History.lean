import Mathlib.Data.List.Basic

/-!
# Histories

A history is the list of what happened, newest last.  `Each P` says that every event of it
satisfies `P`, given what had happened before.
-/

namespace History

variable {α : Type} {P : List α → α → Prop} {events l l' past later : List α} {e x : α}

theorem split_append (h : l ++ l' = past ++ x :: later) :
    (∃ later', later = later' ++ l' ∧ l = past ++ x :: later') ∨
      ∃ past', past = l ++ past' ∧ l' = past' ++ x :: later := by
  rcases List.append_eq_append_iff.mp h with ⟨past', hpast, hl'⟩ | ⟨mid, hl, hmid⟩
  · exact .inr ⟨past', hpast, hl'⟩
  · cases mid with
    | nil =>
      simp only [List.append_nil, List.nil_append] at hl hmid
      exact .inr ⟨[], by simp [hl], hmid.symm⟩
    | cons y mid =>
      simp only [List.cons_append, List.cons.injEq] at hmid
      exact .inl ⟨mid, hmid.2, by rw [hl, hmid.1]⟩

theorem split_snoc (h : events ++ [e] = past ++ x :: later) :
    (later = [] ∧ past = events ∧ x = e) ∨
      ∃ later', later = later' ++ [e] ∧ events = past ++ x :: later' := by
  rcases split_append h with hold | ⟨past', hpast, hlast⟩
  · exact .inr hold
  · cases past' with
    | nil =>
      have hinj := List.cons.inj hlast
      exact .inl ⟨hinj.2.symm, by rw [hpast, List.append_nil], hinj.1.symm⟩
    | cons y rest => simp at hlast

def Each (P : List α → α → Prop) (events : List α) : Prop :=
  ∀ past e later, events = past ++ e :: later → P past e

theorem Each.nil : Each P [] := fun past e later h => by simp at h

theorem Each.snoc (h : Each P events) (he : P events e) : Each P (events ++ [e]) := by
  intro past x later hsplit
  cases split_snoc hsplit with
  | inl hlast =>
    obtain ⟨-, rfl, rfl⟩ := hlast
    exact he
  | inr hinside =>
    obtain ⟨later', -, hevents⟩ := hinside
    exact h past x later' hevents

end History
