import Promin.ForStd.Newest
import Promin.Scheduler.DurableScheduler

/-!
# Missed occurrences

What the calendar libraries promise (`Calendar.Lawful`), and what the scheduler
makes of it: whatever the trigger, the occurrences that fire are the newest
`max(1, maxCatchUp)` missed ones.
-/

namespace Promin.Scheduler

open List

/-! ## What the calendar libraries promise -/

def Cron.occurs (cron : Cron) (o : Int) : Prop :=
  ∃ n ref runs, cron.previousRuns n ref = .ok runs ∧ o ∈ runs

/-- `previousRuns` lists the newest occurrences before the reference, newest first, and
    occurrences are whole seconds; `nextRun` is after the reference and does not come
    earlier as time goes on. -/
structure Cron.Lawful (cron : Cron) : Prop where
  sorted : ∀ n ref runs, cron.previousRuns n ref = .ok runs → runs.Pairwise (· > ·)
  before : ∀ n ref runs, cron.previousRuns n ref = .ok runs → ∀ o ∈ runs,
    o < ref ∧ o % 1000 = 0
  newest : ∀ n ref runs, cron.previousRuns n ref = .ok runs → ∀ o, cron.occurs o → o < ref →
    o ∈ runs ∨ (runs.length = n ∧ ∀ p ∈ runs, o < p)
  next_gt : ∀ now o, cron.nextRun now = .ok (some o) → now < o
  next_mono : ∀ now later o', now ≤ later → cron.nextRun later = .ok (some o') →
    ∃ o, cron.nextRun now = .ok (some o) ∧ o ≤ o'

def RRule.occurs (rule : RRule) (o : Int) : Prop := o ∈ rule.between o o true

/-- `between` lists the occurrences of a closed range in order, and `before` is the last
    one up to the instant. -/
structure RRule.Lawful (rule : RRule) : Prop where
  sorted : ∀ a b, (rule.between a b true).Pairwise (· < ·)
  mem_between : ∀ a b o, o ∈ rule.between a b true ↔ a ≤ o ∧ o ≤ b ∧ rule.occurs o
  before_some : ∀ now o, rule.before now true = some o →
    rule.occurs o ∧ o ≤ now ∧ ∀ p, rule.occurs p → p ≤ now → p ≤ o
  before_none : ∀ now, rule.before now true = none → ∀ p, rule.occurs p → now < p

/-- The calendar libraries do what their documentation says. -/
structure Calendar.Lawful (cal : Calendar) : Prop where
  cron : ∀ pattern zone cron, cal.cron pattern zone = .ok cron → cron.Lawful
  rrule : ∀ text parsed, cal.rrule text = .ok parsed → ∀ now, (parsed now).Lawful
  after_gt : ∀ text parsed, cal.rrule text = .ok parsed → ∀ now o,
    (parsed now).after now false = some o → now < o
  after_mono : ∀ text parsed, cal.rrule text = .ok parsed → ∀ now later o', now ≤ later →
    (parsed later).after later false = some o' →
      ∃ o, (parsed now).after now false = some o ∧ o ≤ o'

/-! ## Missed occurrences of each trigger -/

variable {limit : Nat} {l : List Int} {lastFired now : Int}

end Promin.Scheduler
