/-!
# Programs that can crash

A `Prog` is a sequence of atomic actions on a shared state.

It runs against a schedule: a list with one moment for each of its actions, which says what
the environment does to the state before the action.  When the list is used up the program
crashes: it stops for good before its next action.  `Triple env I P m Q E` says that `m`,
started where `I` and `P` hold, keeps `I` up to wherever it crashes, and ends with `Q` when
it returns and with `E` when it throws; `Within n m`, that `m` is over within `n` actions.
-/

/-- Why a program stopped without a result. -/
inductive Stop (ε : Type) where
  | crashed
  | thrown (e : ε)
  deriving DecidableEq

/-- A program over the state `σ`, whose environment acts by moments `μ`. -/
def Prog (μ σ ε α : Type) : Type :=
  List μ → σ → Except (Stop ε) α × List μ × σ

namespace Prog

variable {μ σ ε α β : Type}

protected def pure (a : α) : Prog μ σ ε α := fun ms s => (.ok a, ms, s)

protected def bind (m : Prog μ σ ε α) (f : α → Prog μ σ ε β) : Prog μ σ ε β := fun ms s =>
  match m ms s with
  | (.ok a, ms', s') => f a ms' s'
  | (.error stop, ms', s') => (.error stop, ms', s')

instance : Monad (Prog μ σ ε) where
  pure := Prog.pure
  bind := Prog.bind

protected def throw (e : ε) : Prog μ σ ε α := fun ms s => (.error (.thrown e), ms, s)

/-- Run `m`, and `handler` on what it throws. A crash is final. -/
protected def tryCatch (m : Prog μ σ ε α) (handler : ε → Prog μ σ ε α) : Prog μ σ ε α :=
  fun ms s =>
    match m ms s with
    | (.error (.thrown e), ms', s') => handler e ms' s'
    | (.ok a, ms', s') => (.ok a, ms', s')
    | (.error .crashed, ms', s') => (.error .crashed, ms', s')

instance : MonadExcept ε (Prog μ σ ε) where
  throw := Prog.throw
  tryCatch := Prog.tryCatch

/-- One atomic action, after the environment's moment before it. -/
def act (env : μ → σ → σ) (f : σ → Except ε α × σ) : Prog μ σ ε α := fun ms s =>
  match ms with
  | [] => (.error .crashed, [], s)
  | m :: ms =>
    match f (env m s) with
    | (.ok a, s') => (.ok a, ms, s')
    | (.error e, s') => (.error (.thrown e), ms, s')

/-- Retry `run` while `again` admits what it throws, `left` more times. -/
def retry (again : ε → Bool) (run : Nat → Prog μ σ ε α) (tries : Nat) :
    (left : Nat) → Prog μ σ ε α
  | 0 => run tries
  | left + 1 => tryCatch (run tries) fun e =>
    if again e then retry again run (tries + 1) left else throw e

/-! ## Triples -/

/-- The environment keeps `P`. -/
def Stable (env : μ → σ → σ) (P : σ → Prop) : Prop := ∀ m s, P s → P (env m s)

/-- What a program does from where `P` holds, `I` being kept throughout. -/
def Triple (I P : σ → Prop) (m : Prog μ σ ε α) (Q : α → σ → Prop) (E : ε → σ → Prop) : Prop :=
  ∀ ms s, I s → P s → I (m ms s).2.2 ∧
    match (m ms s).1 with
    | .ok a => Q a (m ms s).2.2
    | .error (.thrown e) => E e (m ms s).2.2
    | .error .crashed => True

variable {I P P' : σ → Prop} {Q Q' : α → σ → Prop} {E E' : ε → σ → Prop} {m : Prog μ σ ε α}

theorem Triple.conseq (h : Triple I P m Q E) (hp : ∀ s, I s → P' s → P s)
    (hq : ∀ a s, I s → Q a s → Q' a s) (he : ∀ e s, I s → E e s → E' e s) :
    Triple I P' m Q' E' := by
  intro ms s hi hpre
  obtain ⟨hi', hpost⟩ := h ms s hi (hp s hi hpre)
  refine ⟨hi', ?_⟩
  split at hpost
  · exact hq _ _ hi' hpost
  · exact he _ _ hi' hpost
  · trivial

theorem Triple.answered {ms ms' : List μ} {s s' : σ} {a : α}
    (h : Triple I P m Q E) (hm : m ms s = (.ok a, ms', s')) (hi : I s) (hp : P s) : Q a s' := by
  have hpost := (h ms s hi hp).2
  rw [hm] at hpost
  exact hpost

theorem Triple.thrown {ms ms' : List μ} {s s' : σ} {e : ε}
    (h : Triple I P m Q E) (hm : m ms s = (.error (.thrown e), ms', s')) (hi : I s) (hp : P s) :
    E e s' := by
  have hpost := (h ms s hi hp).2
  rw [hm] at hpost
  exact hpost

theorem Triple.of_fact {φ : Prop} (h : φ → Triple I P m Q E) :
    Triple I (fun s => P s ∧ φ) m Q E :=
  fun ms s hi hp => h hp.2 ms s hi hp.1

theorem Triple.pure {a : α} (h : ∀ s, I s → P s → Q a s) :
    Triple I P (pure a : Prog μ σ ε α) Q E :=
  fun _ s hi hp => ⟨hi, h s hi hp⟩

theorem Triple.throw {e : ε} (h : ∀ s, I s → P s → E e s) :
    Triple I P (throw e : Prog μ σ ε α) Q E :=
  fun _ s hi hp => ⟨hi, h s hi hp⟩

theorem Triple.bind {f : α → Prog μ σ ε β} {R : β → σ → Prop}
    (hm : Triple I P m Q E) (hf : ∀ a, Triple I (Q a) (f a) R E) :
    Triple I P (m >>= f) R E := by
  intro ms s hi hp
  obtain ⟨hi', hpost⟩ := hm ms s hi hp
  show I (Prog.bind m f ms s).2.2 ∧ _
  simp only [Bind.bind, Prog.bind]
  generalize m ms s = r at hi' hpost
  obtain ⟨answer, ms', s'⟩ := r
  cases answer with
  | ok a => exact hf a ms' s' hi' hpost
  | error stop =>
    cases stop with
    | crashed => exact ⟨hi', trivial⟩
    | thrown e => exact ⟨hi', hpost⟩

theorem Triple.tryCatch {handler : ε → Prog μ σ ε α} {R : ε → σ → Prop}
    (hm : Triple I P m Q R) (hh : ∀ e, Triple I (R e) (handler e) Q E) :
    Triple I P (tryCatch m handler) Q E := by
  intro ms s hi hp
  obtain ⟨hi', hpost⟩ := hm ms s hi hp
  show I (Prog.tryCatch m handler ms s).2.2 ∧ _
  simp only [MonadExcept.tryCatch, Prog.tryCatch]
  generalize m ms s = r at hi' hpost
  obtain ⟨answer, ms', s'⟩ := r
  cases answer with
  | ok a => exact ⟨hi', hpost⟩
  | error stop =>
    cases stop with
    | crashed => exact ⟨hi', trivial⟩
    | thrown e => exact hh e ms' s' hi' hpost

/-- An action: the invariant and the precondition survive the moment before it, and the
    action does the rest. -/
theorem Triple.act {env : μ → σ → σ} {f : σ → Except ε α × σ} (hi : Stable env I)
    (hp : Stable env P) (hf : ∀ s, I s → P s → I (f s).2 ∧
      match (f s).1 with
      | .ok a => Q a (f s).2
      | .error e => E e (f s).2) :
    Triple I P (act env f) Q E := by
  intro ms s hinv hpre
  cases ms with
  | nil => exact ⟨hinv, trivial⟩
  | cons m ms =>
    have h := hf (env m s) (hi m s hinv) (hp m s hpre)
    simp only [Prog.act]
    generalize f (env m s) = r at h
    obtain ⟨answer, s'⟩ := r
    cases answer with
    | ok a => exact h
    | error e => exact h

theorem Triple.retry {again : ε → Bool} {run : Nat → Prog μ σ ε α} {P : Nat → σ → Prop}
    {E : Nat → ε → σ → Prop} {F : ε → σ → Prop} (left : Nat) :
    ∀ tries, (∀ k, tries ≤ k → k ≤ tries + left → Triple I (P k) (run k) Q (E k)) →
      (∀ k e s, k < tries + left → again e = true → E k e s → P (k + 1) s) →
      (∀ k e s, k < tries + left → again e = false → E k e s → F e s) →
      (∀ e s, E (tries + left) e s → F e s) →
      Triple I (P tries) (Prog.retry again run tries left) Q F := by
  induction left with
  | zero =>
    intro tries hrun _ _ hlast
    exact (hrun tries (Nat.le_refl _) (Nat.le_refl _)).conseq (fun _ _ h => h)
      (fun _ _ _ h => h) fun e s _ h => hlast e s h
  | succ left ih =>
    intro tries hrun hagain hstop hlast
    have hlen : tries + (left + 1) = tries + 1 + left := by omega
    apply Triple.tryCatch (hrun tries (Nat.le_refl _) (by omega))
    intro e
    cases he : again e with
    | true =>
      have hrest := ih (tries + 1) (fun k h h' => hrun k (by omega) (by omega))
        (fun k e s h => hagain k e s (by omega)) (fun k e s h => hstop k e s (by omega))
        (fun e s h => hlast e s (hlen ▸ h))
      exact hrest.conseq (fun s _ h => hagain tries e s (by omega) he h) (fun _ _ _ h => h)
        fun _ _ _ h => h
    | false => exact Triple.throw fun s _ h => hstop tries e s (by omega) he h

/-! ## Programs that end -/

/-- The program is over within `n` actions. -/
def Within (n : Nat) (m : Prog μ σ ε α) : Prop :=
  ∀ ms s, n ≤ ms.length →
    (m ms s).1 ≠ .error .crashed ∧ ms.length ≤ (m ms s).2.1.length + n

theorem Within.mono {n n' : Nat} (h : Within n m) (hn : n ≤ n') :
    Within n' m := by
  intro ms s hlen
  obtain ⟨hends, hleft⟩ := h ms s (by omega)
  exact ⟨hends, by omega⟩

theorem Within.pure (a : α) : Within 0 (pure a : Prog μ σ ε α) :=
  fun _ _ _ => ⟨nofun, Nat.le_refl _⟩

theorem Within.throw (e : ε) : Within 0 (throw e : Prog μ σ ε α) :=
  fun _ _ _ => ⟨nofun, Nat.le_refl _⟩

theorem Within.act (env : μ → σ → σ) (f : σ → Except ε α × σ) : Within 1 (act env f) := by
  intro ms s hlen
  cases ms with
  | nil => exact nomatch hlen
  | cons m ms =>
    simp only [Prog.act]
    generalize f (env m s) = r
    obtain ⟨answer, s'⟩ := r
    cases answer with
    | ok a | error e => exact ⟨nofun, Nat.le_refl _⟩

theorem Within.bind {n l : Nat} {f : α → Prog μ σ ε β} (hm : Within n m)
    (hf : ∀ a, Within l (f a)) : Within (n + l) (m >>= f) := by
  intro ms s hlen
  obtain ⟨hends, hleft⟩ := hm ms s (by omega)
  show (Prog.bind m f ms s).1 ≠ .error .crashed ∧
    ms.length ≤ (Prog.bind m f ms s).2.1.length + (n + l)
  unfold Prog.bind
  generalize m ms s = r at hends hleft
  obtain ⟨answer, ms', s'⟩ := r
  cases answer with
  | ok a =>
    simp only at hleft ⊢
    obtain ⟨hends', hleft'⟩ := hf a ms' s' (by omega)
    exact ⟨hends', by omega⟩
  | error stop =>
    simp only at hleft ⊢
    cases stop with
    | crashed => exact absurd rfl hends
    | thrown e => exact ⟨nofun, by omega⟩

/-! ## Starting anew -/

/-- Where the lives of a program lead, each with its own parameter and its own moments. -/
def lives {γ : Type} (m : γ → Prog μ σ ε α) (schedules : List (γ × List μ)) (s : σ) : σ :=
  schedules.foldl (fun s life => (m life.1 life.2 s).2.2) s

theorem lives_induction {γ : Type} {m : γ → Prog μ σ ε α} {J : Nat → σ → Prop}
    (hlife : ∀ g n ms s, J n s → J (n + 1) (m g ms s).2.2) (schedules : List (γ × List μ))
    {n : Nat} {s : σ} (h : J n s) : J (n + schedules.length) (lives m schedules s) := by
  induction schedules generalizing n s with
  | nil => exact h
  | cons life schedules ih =>
    have hrest := ih (hlife life.1 n life.2 s h)
    rw [List.length_cons, show n + (schedules.length + 1) = n + 1 + schedules.length by omega]
    exact hrest

end Prog
