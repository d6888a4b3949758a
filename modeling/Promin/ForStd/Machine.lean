import Mathlib.Data.List.Nodup

/-!
# Deterministic machines with answers

A `Machine` is a step function: an operation takes a state to the next state and
an answer. A run is a list of operations.
-/

/-- A deterministic transition function with an answer for every operation. -/
structure Machine (σ ω ρ : Type) where
  step : σ → ω → σ × ρ

namespace Machine

open List

variable {σ ω ρ β : Type} (M : Machine σ ω ρ)

/-- State after one operation. -/
def next (s : σ) (o : ω) : σ := (M.step s o).1

/-- Answer of one operation. -/
def out (s : σ) (o : ω) : ρ := (M.step s o).2

def run (s : σ) : List ω → σ
  | [] => s
  | o :: os => run (M.next s o) os

def outs (s : σ) : List ω → List ρ
  | [] => []
  | o :: os => M.out s o :: outs (M.next s o) os

/-- Every operation of the run meets `C` in the state it is issued in. -/
def Always (C : σ → ω → Prop) (s : σ) : List ω → Prop
  | [] => True
  | o :: os => C s o ∧ Always C (M.next s o) os

instance decidableAlways (C : σ → ω → Prop) [∀ s o, Decidable (C s o)] :
    (s : σ) → (os : List ω) → Decidable (M.Always C s os)
  | _, [] => isTrue trivial
  | s, o :: os =>
    have := decidableAlways C (M.next s o) os
    inferInstanceAs (Decidable (C s o ∧ M.Always C (M.next s o) os))

/-- How many operations of the run have the property `E` in the state they are
    issued in. -/
def count (E : σ → ω → Bool) (s : σ) : List ω → Nat
  | [] => 0
  | o :: os => (if E s o then 1 else 0) + count E (M.next s o) os

def trace (labels : σ → ω → List β) (s : σ) : List ω → List β
  | [] => []
  | o :: os => labels s o ++ trace labels (M.next s o) os

def withGhost {γ : Type} (record : γ → σ → ω → γ) : Machine (σ × γ) ω ρ where
  step p o := ((M.next p.1 o, record p.2 p.1 o), M.out p.1 o)

/-- The run has an operation with the property `E`, and `P` holds in every state
    after it. -/
def Since (E : σ → ω → Prop) (P : σ → Prop) (s : σ) (os : List ω) : Prop :=
  ∃ before o after, os = before ++ o :: after ∧ E (M.run s before) o ∧
    ∀ mid, mid <+: after → P (M.run s (before ++ o :: mid))

@[simp] theorem run_nil (s : σ) : M.run s [] = s := rfl

@[simp] theorem run_cons (s : σ) (o : ω) (os : List ω) :
    M.run s (o :: os) = M.run (M.next s o) os := rfl

theorem run_append (s : σ) (os os' : List ω) :
    M.run s (os ++ os') = M.run (M.run s os) os' := by
  induction os generalizing s with
  | nil => rfl
  | cons o os ih => exact ih (M.next s o)

theorem always_append (C : σ → ω → Prop) (s : σ) (os os' : List ω) :
    M.Always C s (os ++ os') ↔ M.Always C s os ∧ M.Always C (M.run s os) os' := by
  induction os generalizing s with
  | nil => simp [Always]
  | cons o os ih =>
    simp only [cons_append, Always, run_cons, ih]
    exact and_assoc.symm

theorem run_snoc (s : σ) (os : List ω) (o : ω) :
    M.run s (os ++ [o]) = M.next (M.run s os) o := by
  rw [run_append]
  rfl

variable {M} {os : List ω} {s : σ} {I P : σ → Prop} {E : σ → ω → Bool} {C D : σ → ω → Prop}

theorem since_last {E : σ → ω → Prop} {o : ω}
    (he : E (M.run s os) o) (hp : P (M.run s (os ++ [o]))) : M.Since E P s (os ++ [o]) := by
  refine ⟨os, o, [], rfl, he, fun mid hmid => ?_⟩
  rw [prefix_nil.mp hmid]
  exact hp

theorem since_snoc {E : σ → ω → Prop} {o : ω}
    (h : M.Since E P s os) (hp : P (M.run s (os ++ [o]))) : M.Since E P s (os ++ [o]) := by
  obtain ⟨before, o', after, rfl, he, hafter⟩ := h
  refine ⟨before, o', after ++ [o], by simp, he, fun mid hmid => ?_⟩
  rcases prefix_concat_iff.mp hmid with rfl | hmid
  · simpa using hp
  · exact hafter mid hmid

theorem always_of_forall (h : ∀ s o, C s o) (s : σ) (os : List ω) :
    M.Always C s os := by
  induction os generalizing s with
  | nil => trivial
  | cons o os ih => exact ⟨h s o, ih _⟩

theorem always_mono (h : ∀ s o, C s o → D s o) (hc : M.Always C s os) : M.Always D s os := by
  induction os generalizing s with
  | nil => trivial
  | cons o os ih => exact ⟨h s o hc.1, ih hc.2⟩

theorem always_congr (h : ∀ s o, C s o ↔ D s o) (s : σ) (os : List ω) :
    M.Always C s os ↔ M.Always D s os :=
  ⟨always_mono fun s o => (h s o).mp, always_mono fun s o => (h s o).mpr⟩

theorem trace_append (labels : σ → ω → List β) (s : σ) (os os' : List ω) :
    M.trace labels s (os ++ os') = M.trace labels s os ++ M.trace labels (M.run s os) os' := by
  induction os generalizing s with
  | nil => rfl
  | cons o os ih => simp [trace, ih]

theorem trace_snoc (labels : σ → ω → List β) (s : σ) (os : List ω) (o : ω) :
    M.trace labels s (os ++ [o]) = M.trace labels s os ++ labels (M.run s os) o := by
  simp [trace_append, trace]

theorem count_snoc (E : σ → ω → Bool) (s : σ) (os : List ω) (o : ω) :
    M.count E s (os ++ [o]) = M.count E s os + if E (M.run s os) o then 1 else 0 := by
  induction os generalizing s with
  | nil => exact Nat.add_comm (if E s o then 1 else 0) 0
  | cons o' os ih =>
    have hrest := ih (M.next s o')
    show (if E s o' then 1 else 0) + M.count E (M.next s o') (os ++ [o]) =
      (if E s o' then 1 else 0) + M.count E (M.next s o') os + _
    rw [hrest, Nat.add_assoc]
    rfl

theorem trace_out (s : σ) (os : List ω) : M.trace (fun s o => [M.out s o]) s os = M.outs s os := by
  induction os generalizing s with
  | nil => rfl
  | cons o os ih => exact congrArg (M.out s o :: ·) (ih (M.next s o))

theorem always_of_mem {C : ω → Prop} (h : ∀ o ∈ os, C o) (s : σ) :
    M.Always (fun _ o => C o) s os := by
  induction os generalizing s with
  | nil => trivial
  | cons o os ih =>
    exact ⟨h o mem_cons_self, ih (fun o' ho' => h o' (mem_cons_of_mem _ ho')) _⟩

theorem always_of_trace {labels : σ → ω → List β} {Q : β → Prop}
    (h : ∀ b ∈ M.trace labels s os, Q b) : M.Always (fun s o => ∀ b ∈ labels s o, Q b) s os := by
  induction os generalizing s with
  | nil => trivial
  | cons o os ih =>
    constructor
    · exact fun b hb => h b (mem_append_left _ hb)
    · exact ih fun b hb => h b (mem_append_right _ hb)

theorem run_induction_always (hstep : ∀ s o, C s o → P s → P (M.next s o))
    (hc : M.Always C s os) (hs : P s) : P (M.run s os) := by
  induction os generalizing s with
  | nil => exact hs
  | cons o os ih => exact ih hc.2 (hstep s o hc.1 hs)

theorem run_induction (hstep : ∀ s o, P s → P (M.next s o))
    (os : List ω) (hs : P s) : P (M.run s os) :=
  run_induction_always (C := fun _ _ => True) (fun s o _ => hstep s o)
    (always_of_forall (fun _ _ => trivial) s os) hs

/-- What every admitted step preserves of the state and the labels so far holds at the
    end of every admitted run. -/
theorem run_induction_trace {labels : σ → ω → List β} {P : σ → List β → Prop}
    (hstep : ∀ s o l, C s o → P s l → P (M.next s o) (l ++ labels s o))
    {l : List β} (hc : M.Always C s os) (hs : P s l) :
    P (M.run s os) (l ++ M.trace labels s os) := by
  induction os generalizing s l with
  | nil => simpa [trace] using hs
  | cons o os ih =>
    have hrest := ih hc.2 (hstep s o l hc.1 hs)
    simpa [trace, append_assoc] using hrest

theorem always_of_invariant (hinv : ∀ s o, I s → I (M.next s o)) (h : ∀ s o, I s → C s o → D s o)
    (hs : I s) (hc : M.Always C s os) : M.Always D s os := by
  induction os generalizing s with
  | nil => trivial
  | cons o os ih => exact ⟨h s o hs hc.1, ih (hinv s o hs) hc.2⟩

/-- A step property that an invariant of the admitted steps gives holds at every step of
    an admitted run. -/
theorem always_of_invariant_always
    (hinv : ∀ s o, C s o → I s → I (M.next s o)) (h : ∀ s o, C s o → I s → D s o)
    (hs : I s) (hc : M.Always C s os) : M.Always D s os := by
  induction os generalizing s with
  | nil => trivial
  | cons o os ih => exact ⟨h s o hc.1 hs, ih (hinv s o hc.1 hs) hc.2⟩

/-- An event that never happens while `P` holds, where every step preserves `P`,
    happens in no run from a state with `P`. -/
theorem count_eq_zero (hstep : ∀ s o, P s → P (M.next s o)) (hno : ∀ s o, P s → E s o = false)
    (os : List ω) (hs : P s) : M.count E s os = 0 := by
  induction os generalizing s with
  | nil => rfl
  | cons o os ih => simp [count, hno s o hs, ih (hstep s o hs)]

/-- An event after which `P` holds, where `P` lasts and rules the event out,
    happens at most once in a run. -/
theorem count_le_one_of_absorbing (hinv : ∀ s o, I s → I (M.next s o))
    (hstep : ∀ s o, I s ∧ P s → P (M.next s o)) (hno : ∀ s o, I s ∧ P s → E s o = false)
    (hafter : ∀ s o, I s → E s o = true → P (M.next s o))
    (os : List ω) (hs : I s) : M.count E s os ≤ 1 := by
  induction os generalizing s with
  | nil => simp [count]
  | cons o os ih =>
    simp only [count]
    by_cases he : E s o = true
    · have hrest : M.count E (M.next s o) os = 0 :=
        count_eq_zero (P := fun s => I s ∧ P s)
          (fun s o h => ⟨hinv s o h.1, hstep s o h⟩) hno os
          ⟨hinv s o hs, hafter s o hs he⟩
      simp [he, hrest]
    · have hrest := ih (hinv s o hs)
      simp only [he, Bool.false_eq_true, ↓reduceIte]
      omega

/-- Labels of an admitted run are related, earlier to later, when the states keep a
    bound on every label so far and new labels are related to all labels within the
    bound. -/
theorem pairwise_trace {L : σ → ω → List β}
    {B : σ → β → Prop} {R : β → β → Prop} (hinv : ∀ s o, C s o → I s → I (M.next s o))
    (hkeep : ∀ s o b, C s o → I s → B s b → B (M.next s o) b)
    (hmark : ∀ s o b, C s o → I s → b ∈ L s o → B (M.next s o) b)
    (hrel : ∀ s o a b, C s o → I s → B s a → b ∈ L s o → R a b)
    (hself : ∀ s o, C s o → I s → (L s o).Pairwise R) (hc : M.Always C s os) (hs : I s) :
    (M.trace L s os).Pairwise R ∧ ∀ a, B s a → ∀ b ∈ M.trace L s os, R a b := by
  induction os generalizing s with
  | nil => simp [trace]
  | cons o os ih =>
    obtain ⟨hpair, hafter⟩ := ih hc.2 (hinv s o hc.1 hs)
    simp only [trace]
    constructor
    · rw [pairwise_append]
      exact ⟨hself s o hc.1 hs, hpair, fun a ha b hb => hafter a (hmark s o a hc.1 hs ha) b hb⟩
    · intro a ha b hb
      rcases mem_append.mp hb with h | h
      · exact hrel s o a b hc.1 hs ha h
      · exact hafter a (hkeep s o a hc.1 hs ha) b h

/-- When every admitted step keeps the balance of what the state holds, what flows in
    and what flows out, so does every admitted run. -/
theorem balance [DecidableEq β] {held : σ → List β} {inflow outflow : σ → ω → List β}
    (hstep : ∀ s o b, C s o → (held s).count b + (inflow s o).count b =
      (held (M.next s o)).count b + (outflow s o).count b) (hc : M.Always C s os) (b : β) :
    (held s).count b + (M.trace inflow s os).count b =
      (held (M.run s os)).count b + (M.trace outflow s os).count b := by
  induction os generalizing s with
  | nil => rfl
  | cons o os ih =>
    have hrest := ih hc.2
    have hfirst := hstep s o b hc.1
    simp only [trace, count_append, run_cons]
    omega

/-- Leaving out the removed operations of a run changes no label of the others, when a
    relation between the two runs is kept by every operation, also by a removed one that
    only the first run takes, and related states label operations alike. -/
theorem trace_purge {L : σ → ω → List β} {removed : ω → Bool} {R : List ω → σ → σ → Prop}
    (hlabel : ∀ o os s t, R (o :: os) s t → removed o = false → L s o = L t o)
    (hquiet : ∀ o os s t, R (o :: os) s t → removed o = true → L s o = [])
    (hkept : ∀ o os s t, R (o :: os) s t → removed o = false → R os (M.next s o) (M.next t o))
    (hremoved : ∀ o os s t, R (o :: os) s t → removed o = true → R os (M.next s o) t)
    {s t : σ} (h : R os s t) :
    M.trace L s os = M.trace L t (os.filter fun o => !removed o) := by
  induction os generalizing s t with
  | nil => rfl
  | cons o os ih =>
    cases ho : removed o with
    | false =>
      simp only [trace, filter_cons, ho, Bool.not_false, ↓reduceIte]
      rw [hlabel o os s t h ho, ih (hkept o os s t h ho)]
    | true =>
      simp only [trace, filter_cons, ho, Bool.not_true, Bool.false_eq_true, ↓reduceIte]
      rw [hquiet o os s t h ho, ih (hremoved o os s t h ho)]
      rfl

theorem nodup_outs_of_fresh {labels : ρ → List β} {Used : σ → β → Prop}
    (hkeep : ∀ s o b, Used s b → Used (M.next s o) b)
    (hmark : ∀ s o b, b ∈ labels (M.out s o) → ¬ Used s b ∧ Used (M.next s o) b)
    (hnd : ∀ s o, (labels (M.out s o)).Nodup) (s : σ) (os : List ω) :
    ((M.outs s os).flatMap labels).Nodup ∧
      ∀ b ∈ (M.outs s os).flatMap labels, ¬ Used s b := by
  induction os generalizing s with
  | nil => simp [outs]
  | cons o os ih =>
    obtain ⟨hn, hfresh⟩ := ih (M.next s o)
    simp only [outs, flatMap_cons]
    constructor
    · rw [nodup_append]
      refine ⟨hnd s o, hn, ?_⟩
      intro a ha b hb hab
      exact hfresh b hb (hab ▸ (hmark s o a ha).2)
    · intro b hb
      rcases mem_append.mp hb with h | h
      · exact (hmark s o b h).1
      · exact fun hu => hfresh b h (hkeep s o b hu)

end Machine
