import Promin.ForStd.SlidingWindow
import Promin.Shared.RateLimits

/-!
# Rate limits hold

Over every run on one table, no window of a key holds more permits than its
limiters allow, and a refusal tells exactly when the next permit is there.
-/

namespace Promin.Shared

open List SlidingWindow Machine RateLimitTable

/-! ## What an operation does to the rows of a key -/

/-- What a limiter or a throttle asks the table for. -/
structure PermitRequest where
  key : String
  limit : Int
  windowMs : Int

/-- The permits a call asks for. -/
def RateLimitOp.request : RateLimitOp → Option PermitRequest
  | .advance _ | .remaining _ _ => none
  | .acquire l resource => some ⟨resolveKey l.key resource, l.limit, l.windowMs⟩
  | .tryAcquire l resource => some ⟨resolveKey l.key resource, l.permits, l.windowMs⟩

/-- The permits were granted. -/
def RateLimitAnswer.grants : RateLimitAnswer → Bool
  | .acquired answer => answer.ok
  | .waits waitMs => waitMs == 0
  | .none | .remaining _ => false

/-- How long to wait, of a refusal. -/
def RateLimitAnswer.waitMs : RateLimitAnswer → Int
  | .acquired answer => answer.retryAfterMs
  | .waits waitMs => waitMs
  | .none | .remaining _ => 0

def RateLimitTable.rowsOf (t : RateLimitTable) (key : String) : List RateLimitRow :=
  t.rows.filter fun r => r.key == key

def RateLimitTable.counted (t : RateLimitTable) (key : String) (windowMs : Int) :
    List RateLimitRow :=
  (t.rowsOf key).filter fun r => !decide (r.ts ≤ t.now - windowMs)

variable {t : RateLimitTable} {o : RateLimitOp} {p : PermitRequest}

theorem counted_eq (t : RateLimitTable) (key : String) (windowMs : Int) :
    ((t.rows.filter fun r => !(r.key == key && decide (r.ts ≤ t.now - windowMs))).filter
      fun r => r.key == key) = t.counted key windowMs := by
  rw [counted, rowsOf, filter_filter, filter_filter]
  refine filter_congr fun r _ => ?_
  cases r.key == key <;> simp

structure Acquired (t : RateLimitTable) (p : PermitRequest) (t' : RateLimitTable)
    (answer : AcquireAnswer) : Prop where
  ok : answer.ok = decide (((t.counted p.key p.windowMs).length : Int) < p.limit)
  now : t'.now = t.now
  rows : t'.rowsOf p.key = t.counted p.key p.windowMs ++
    if answer.ok then [{ key := p.key, ts := t.now }] else []
  others : ∀ key, key ≠ p.key → t'.rowsOf key = t.rowsOf key
  retryAfterMs : answer.ok = false → answer.retryAfterMs =
    (((t.counted p.key p.windowMs).map (·.ts)).min?.map fun oldest =>
      max 1 (oldest + p.windowMs - t.now)).getD 1

theorem acquire_spec (t : RateLimitTable) (p : PermitRequest) :
    Acquired t p (t.acquire p.key p.limit p.windowMs).1 (t.acquire p.key p.limit p.windowMs).2 := by
  have hcounted := counted_eq t p.key p.windowMs
  have hothers : ∀ key, key ≠ p.key → ((t.rows.filter fun r =>
      !(r.key == p.key && decide (r.ts ≤ t.now - p.windowMs))).filter fun r => r.key == key) =
      t.rows.filter fun r => r.key == key := by
    intro key hne
    rw [filter_filter]
    refine filter_congr fun r _ => ?_
    by_cases hkey : r.key = key
    · simp [hkey, hne]
    · simp [hkey]
  unfold acquire
  dsimp only
  rw [hcounted]
  by_cases hroom : ((t.counted p.key p.windowMs).length : Int) < p.limit
  · rw [if_pos hroom]
    refine ⟨(decide_eq_true hroom).symm, rfl, ?_, fun key hne => ?_, fun h => by cases h⟩
    · rw [rowsOf, filter_append, hcounted]
      simp
    · rw [rowsOf, filter_append, hothers key hne]
      simp [Ne.symm hne, rowsOf]
  · rw [if_neg hroom]
    refine ⟨(decide_eq_false hroom).symm, rfl, ?_, hothers, fun _ => ?_⟩
    · rw [rowsOf, hcounted]
      simp
    · cases ((t.counted p.key p.windowMs).map (·.ts)).min? <;> rfl

theorem Acquired.one_le {t' : RateLimitTable} {answer : AcquireAnswer} (h : Acquired t p t' answer)
    (hok : answer.ok = false) : 1 ≤ answer.retryAfterMs := by
  rw [h.retryAfterMs hok]
  cases ((t.counted p.key p.windowMs).map (·.ts)).min? with
  | none => exact Int.le_refl 1
  | some oldest => exact Int.le_max_left _ _

theorem next_of_request (t : RateLimitTable) (h : o.request = some p) :
    ∃ answer, Acquired t p (rateLimits.next t o) answer ∧
      (rateLimits.out t o).grants = answer.ok ∧
      (answer.ok = false → (rateLimits.out t o).waitMs = answer.retryAfterMs) := by
  cases o with
  | advance ms => cases h
  | remaining limiter resource => cases h
  | acquire limiter resource =>
    cases h
    exact ⟨_, acquire_spec t _, rfl, fun _ => rfl⟩
  | tryAcquire throttle resource =>
    cases h
    let answer := (t.acquire (resolveKey throttle.key resource) throttle.permits
      throttle.windowMs).2
    have hspec : Acquired t _ (rateLimits.next t (.tryAcquire throttle resource)) answer :=
      acquire_spec t ⟨resolveKey throttle.key resource, throttle.permits, throttle.windowMs⟩
    have hout : rateLimits.out t (.tryAcquire throttle resource) =
        .waits (if answer.ok then 0 else answer.retryAfterMs) := rfl
    refine ⟨answer, hspec, ?_, fun hok => ?_⟩
    · rw [hout, RateLimitAnswer.grants]
      cases hok : answer.ok with
      | true => rfl
      | false =>
        have hwait := hspec.one_le hok
        rw [if_neg Bool.false_ne_true, beq_eq_false_iff_ne]
        omega
    · rw [hout, RateLimitAnswer.waitMs, hok, if_neg Bool.false_ne_true]

theorem next_of_none (t : RateLimitTable) (h : o.request = none) :
    (rateLimits.next t o).rows = t.rows ∧ t.now ≤ (rateLimits.next t o).now := by
  cases o with
  | advance ms =>
    refine ⟨rfl, ?_⟩
    show t.now ≤ t.now + ms
    omega
  | remaining limiter resource => exact ⟨rfl, Int.le_refl _⟩
  | acquire limiter resource => cases h
  | tryAcquire throttle resource => cases h

theorem now_le_next (t : RateLimitTable) (o : RateLimitOp) : t.now ≤ (rateLimits.next t o).now := by
  cases hp : o.request with
  | none => exact (next_of_none t hp).2
  | some p =>
    obtain ⟨answer, hspec, -⟩ := next_of_request t hp
    exact Int.le_of_eq hspec.now.symm

/-! ## No window holds too many -/

/-- The row of the permit, if the operation is granted one under the key. -/
def permitOf (key : String) (t : RateLimitTable) (o : RateLimitOp) : List RateLimitRow :=
  if (o.request.any fun p => p.key == key) && (rateLimits.out t o).grants then
    [{ key := key, ts := t.now }]
  else []

/-- Whatever limiters and throttles share a key, over every run: the permits granted under it
never exceed the limit in any window, if no one asks with a higher limit or a shorter window. -/
theorem permits_capped (t : RateLimitTable) (ops : List RateLimitOp) (key : String) (w : Int)
    (max : Nat) (hops : ∀ o ∈ ops, ∀ p, o.request = some p → p.key = key →
      w ≤ p.windowMs ∧ p.limit ≤ max) :
    Capped (·.ts) w max (rateLimits.trace (permitOf key) t ops) := by
  -- the table may hold more rows than permits of this run, never fewer that still count
  have hrun : Capped (·.ts) w max (rateLimits.trace (permitOf key) t ops) ∧
      Reaches (·.ts) w (rateLimits.run t ops).now (rateLimits.trace (permitOf key) t ops)
        ((rateLimits.run t ops).rowsOf key) :=
    rateLimits.run_induction_trace
      (P := fun t granted => Capped (·.ts) w max granted ∧
        Reaches (·.ts) w t.now granted (t.rowsOf key))
      ?_ (always_of_mem hops t) (l := []) ⟨fun _ => Nat.zero_le _, .nil⟩
  · exact hrun.1
  rintro t o granted ho ⟨hcapped, hreaches⟩
  have hlater := hreaches.later (now_le_next t o)
  cases hp : o.request with
  | none =>
    simp only [permitOf, hp, Option.any_none, Bool.false_and, Bool.false_eq_true, if_false,
      append_nil]
    rw [rowsOf, (next_of_none t hp).1]
    exact ⟨hcapped, hlater⟩
  | some p =>
    obtain ⟨answer, hspec, hgrants, -⟩ := next_of_request t hp
    simp only [permitOf, hp, Option.any_some, hgrants]
    by_cases hkey : p.key = key
    · subst hkey
      obtain ⟨hwindow, hlimit⟩ := ho p hp rfl
      -- a window of `w` reaches no row that the longer one drops
      have hswept : Reaches (·.ts) w t.now granted (t.counted p.key p.windowMs) :=
        hreaches.sweep fun r _ hr => by
          simp only [Bool.not_eq_false', decide_eq_true_eq] at hr
          omega
      rw [hspec.rows, hspec.now]
      cases hok : answer.ok with
      | false => simpa using ⟨hcapped, hswept⟩
      | true =>
        have hroom := of_decide_eq_true (hspec.ok.symm.trans hok)
        simp only [beq_self_eq_true, Bool.and_self, if_true]
        exact ⟨hcapped.append hswept (by omega) rfl, hswept.append rfl⟩
    · simp only [beq_eq_false_iff_ne.mpr hkey, Bool.false_and, Bool.false_eq_true, if_false,
        append_nil, hspec.others key (Ne.symm hkey)]
      exact ⟨hcapped, hlater⟩

/-- One permit in 10 ms. -/
private def onePermit : SqliteRateLimiter := ⟨"k", 1, 10⟩

private theorem request_onePermit {ops : List RateLimitOp}
    (h : ∀ o ∈ ops, o = .acquire onePermit none ∨ o.request = none) :
    ∀ o ∈ ops, ∀ p, o.request = some p → p.key = "k" → p = ⟨"k", 1, 10⟩ := by
  intro o ho p hp _
  cases h o ho with
  | inl heq =>
    subst heq
    cases hp
    rfl
  | inr hnone =>
    rw [hnone] at hp
    cases hp

theorem permits_capped_onePermit :
    let ops := [.acquire onePermit none, .advance 5, .acquire onePermit none, .advance 5,
      .acquire onePermit none]
    rateLimits.trace (permitOf "k") ⟨[], 0⟩ ops = [⟨"k", 0⟩, ⟨"k", 10⟩] ∧
      Capped (·.ts) 10 1 (rateLimits.trace (permitOf "k") ⟨[], 0⟩ ops) := by
  refine ⟨by decide, permits_capped _ _ _ _ _ fun o ho p hp hkey => ?_⟩
  rw [request_onePermit (by simp [RateLimitOp.request]) o ho p hp hkey]
  decide

/-! ## How long to wait -/

structure KeyOk (p : PermitRequest) (t : RateLimitTable) : Prop where
  past : ∀ r ∈ t.rowsOf p.key, r.ts ≤ t.now
  few : ((t.rowsOf p.key).length : Int) ≤ max p.limit 0

theorem KeyOk.next (h : KeyOk p t)
    (ho : ∀ q, o.request = some q → q.key = p.key → q = p) : KeyOk p (rateLimits.next t o) := by
  have hlater := now_le_next t o
  cases hq : o.request with
  | none =>
    have hrows := (next_of_none t hq).1
    constructor
    · rw [rowsOf, hrows]
      exact fun r hr => Int.le_trans (h.past r hr) hlater
    · rw [rowsOf, hrows]
      exact h.few
  | some q =>
    obtain ⟨answer, hspec, -, -⟩ := next_of_request t hq
    by_cases hkey : q.key = p.key
    · obtain rfl := ho q hq hkey
      have hkept : ∀ r ∈ t.counted q.key q.windowMs, r.ts ≤ t.now :=
        fun r hr => h.past r (mem_of_mem_filter hr)
      have hlength : (t.counted q.key q.windowMs).length ≤ (t.rowsOf q.key).length :=
        length_filter_le _ _
      have hfew := h.few
      constructor
      · rw [hspec.rows, hspec.now]
        intro r hr
        rcases mem_append.mp hr with hr | hr
        · exact hkept r hr
        · cases hok : answer.ok with
          | false => simp [hok] at hr
          | true =>
            obtain rfl : r = { key := q.key, ts := t.now } := by simpa [hok] using hr
            exact Int.le_refl _
      · rw [hspec.rows]
        cases hok : answer.ok with
        | false =>
          simp only [Bool.false_eq_true, if_false, append_nil]
          omega
        | true =>
          have hroom := of_decide_eq_true (hspec.ok.symm.trans hok)
          simp only [if_true, length_append, length_singleton]
          omega
    · constructor
      · rw [hspec.others _ (Ne.symm hkey)]
        exact fun r hr => Int.le_trans (h.past r hr) hlater
      · rw [hspec.others _ (Ne.symm hkey)]
        exact h.few

theorem rowsOf_run_others {ops : List RateLimitOp} {key : String} (t : RateLimitTable)
    (h : ∀ o ∈ ops, ∀ q, o.request = some q → q.key ≠ key) :
    (rateLimits.run t ops).rowsOf key = t.rowsOf key ∧ t.now ≤ (rateLimits.run t ops).now := by
  refine run_induction_always (M := rateLimits)
    (P := fun t' => t'.rowsOf key = t.rowsOf key ∧ t.now ≤ t'.now)
    (C := fun _ o => ∀ q, o.request = some q → q.key ≠ key) ?_ (always_of_mem h t)
    ⟨rfl, Int.le_refl _⟩
  rintro t' o ho ⟨hrows, hnow⟩
  refine ⟨?_, Int.le_trans hnow (now_le_next t' o)⟩
  cases hq : o.request with
  | none => rw [rowsOf, (next_of_none t' hq).1, ← hrows, rowsOf]
  | some q =>
    obtain ⟨answer, hspec, -, -⟩ := next_of_request t' hq
    rw [hspec.others key (Ne.symm (ho q hq)), hrows]

/-- A refusal is exact: where a key has one limit and one window, and no one else asks for it in
between, the next request is granted if and only if the time that was told has passed. -/
theorem refusal_exact (now : Int) (ops between : List RateLimitOp) (p : PermitRequest)
    (o o' : RateLimitOp) (ho : o.request = some p) (ho' : o'.request = some p)
    (hops : ∀ o ∈ ops, ∀ q, o.request = some q → q.key = p.key → q = p)
    (hbetween : ∀ o ∈ between, ∀ q, o.request = some q → q.key ≠ p.key)
    (hrefused : (rateLimits.out (rateLimits.run ⟨[], now⟩ ops) o).grants = false) :
    let t := rateLimits.run ⟨[], now⟩ ops
    let t' := rateLimits.run (rateLimits.next t o) between
    (rateLimits.out t' o').grants = true ↔
      0 < p.limit ∧ (rateLimits.out t o).waitMs ≤ t'.now - t.now := by
  intro t t'
  have hkey : KeyOk p t :=
    run_induction_always (M := rateLimits) (P := KeyOk p)
      (C := fun _ o => ∀ q, o.request = some q → q.key = p.key → q = p)
      (fun _ _ ho h => h.next ho) (always_of_mem hops _)
      ⟨forall_mem_nil _, Int.le_max_right _ _⟩
  obtain ⟨answer, hspec, hgrants, hwait⟩ := next_of_request t ho
  have hok : answer.ok = false := hgrants.symm.trans hrefused
  obtain ⟨hrows, hnow⟩ := rowsOf_run_others (rateLimits.next t o) hbetween
  obtain ⟨answer', hspec', hgrants', -⟩ := next_of_request t' ho'
  rw [hspec.rows, hok, if_neg Bool.false_ne_true, append_nil] at hrows
  rw [hspec.now] at hnow
  rw [hgrants', hspec'.ok, decide_eq_true_eq, hwait hok, hspec.retryAfterMs hok]
  have hfull := of_decide_eq_false (hspec.ok.symm.trans hok)
  have hfew := hkey.few
  have hlength : (t.counted p.key p.windowMs).length ≤ (t.rowsOf p.key).length :=
    length_filter_le _ _
  have hcounted : t'.counted p.key p.windowMs = (t.counted p.key p.windowMs).filter
      fun r => !decide (r.ts ≤ t'.now - p.windowMs) := by
    rw [counted, show t'.rowsOf p.key = _ from hrows]
  have hfresh : ∀ r ∈ t.counted p.key p.windowMs, t.now - p.windowMs < r.ts := by
    intro r hr
    have hkept := of_mem_filter hr
    simp only [Bool.not_eq_true', decide_eq_false_iff_not] at hkept
    omega
  rw [hcounted]
  generalize t.counted p.key p.windowMs = counted at hfull hlength hfresh ⊢
  by_cases hpos : 0 < p.limit
  · -- the window is full, so that one row has to leave it
    have hlimit : p.limit = counted.length := by omega
    obtain ⟨m, hm⟩ : ∃ m, (counted.map (·.ts)).min? = some m := by
      cases counted with
      | nil => simp only [length_nil] at hlimit; omega
      | cons r counted => exact ⟨_, min?_cons⟩
    obtain ⟨hmem, hle⟩ := min?_eq_some_iff.mp hm
    obtain ⟨r, hr, rfl⟩ := mem_map.mp hmem
    have hrecent := hfresh r hr
    rw [hlimit, Int.ofNat_lt, length_filter_lt_length_iff_exists, hm]
    show _ ↔ _ ∧ max 1 (r.ts + p.windowMs - t.now) ≤ t'.now - t.now
    constructor
    · rintro ⟨r', hr', hleft⟩
      have hfirst := hle r'.ts (mem_map_of_mem hr')
      simp only [Bool.not_eq_true', decide_eq_false_iff_not, Decidable.not_not] at hleft
      omega
    · rintro ⟨-, hpassed⟩
      refine ⟨r, hr, ?_⟩
      simp only [Bool.not_eq_true', decide_eq_false_iff_not, Decidable.not_not]
      omega
  · constructor
    · intro hroom
      omega
    · exact fun h => absurd h.1 hpos

theorem refusal_exact_onePermit :
    let t := rateLimits.run ⟨[], 0⟩ [.acquire onePermit none]
    let t' := rateLimits.run (rateLimits.next t (.acquire onePermit none)) [.advance 10]
    (rateLimits.out t' (.acquire onePermit none)).grants = true ↔
      (0 : Int) < 1 ∧ (rateLimits.out t (.acquire onePermit none)).waitMs ≤ t'.now - t.now :=
  refusal_exact 0 _ _ ⟨"k", 1, 10⟩ _ _ rfl rfl (request_onePermit (by simp))
    (by simp [RateLimitOp.request]) (by decide)

end Promin.Shared
