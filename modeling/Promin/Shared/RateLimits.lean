import Promin.ForStd.Machine

/-!
# Rate limits in a table

`SqliteRateLimiter` and `SqliteThrottle`: a table holds, by key, the times of
what was granted, and any number of limiters and throttles share it.
-/

namespace Promin.Shared

structure RateLimitRow where
  key : String
  ts : Int
  deriving DecidableEq

structure RateLimitTable where
  rows : List RateLimitRow
  now : Int

structure AcquireAnswer where
  ok : Bool
  retryAfterMs : Int

/-- The transaction of both classes: forget what left the window, count, insert. -/
def RateLimitTable.acquire (t : RateLimitTable) (key : String) (limit windowMs : Int) :
    RateLimitTable × AcquireAnswer :=
  let kept := t.rows.filter fun r => !(r.key == key && decide (r.ts ≤ t.now - windowMs))
  let counted := kept.filter fun r => r.key == key
  if (counted.length : Int) < limit then
    ({ t with rows := kept ++ [{ key := key, ts := t.now }] }, { ok := true, retryAfterMs := 0 })
  else
    let retryAfterMs :=
      match (counted.map (·.ts)).min? with
      | some oldest => max 1 (oldest + windowMs - t.now)
      | none => 1
    ({ t with rows := kept }, { ok := false, retryAfterMs := retryAfterMs })

/-- The empty resource is read as none. -/
def resolveKey (key : String) : Option String → String
  | none => key
  | some resource => if resource = "" then key else key ++ ":" ++ resource

structure SqliteRateLimiter where
  key : String
  limit : Int
  windowMs : Int

namespace SqliteRateLimiter

def runAcquire (l : SqliteRateLimiter) (t : RateLimitTable) (key : String) :
    RateLimitTable × AcquireAnswer :=
  t.acquire key l.limit l.windowMs

def remainingAsync (l : SqliteRateLimiter) (t : RateLimitTable) (resource : Option String) : Int :=
  let key := resolveKey l.key resource
  let counted := t.rows.filter fun r => r.key == key && decide (t.now - l.windowMs < r.ts)
  max 0 (l.limit - counted.length)

end SqliteRateLimiter

structure SqliteThrottle where
  key : String
  permits : Int
  windowMs : Int

/-- `0`, or how long to wait. -/
def SqliteThrottle.tryAcquireInternal (l : SqliteThrottle) (t : RateLimitTable) (key : String) :
    RateLimitTable × Int :=
  match t.acquire key l.permits l.windowMs with
  | (t, answer) => (t, if answer.ok then 0 else answer.retryAfterMs)

inductive RateLimitOp where
  | advance (ms : Nat)
  | acquire (limiter : SqliteRateLimiter) (resource : Option String)
  | remaining (limiter : SqliteRateLimiter) (resource : Option String)
  /-- `tryAcquireAsync`, and each turn of the loop of `acquireAsync`. -/
  | tryAcquire (throttle : SqliteThrottle) (resource : Option String)

inductive RateLimitAnswer where
  | none
  | acquired (answer : AcquireAnswer)
  | remaining (permits : Int)
  | waits (waitMs : Int)

/-- Limiters and throttles on one table. -/
def rateLimits : Machine RateLimitTable RateLimitOp RateLimitAnswer where
  step t o := match o with
    | .advance ms => ({ t with now := t.now + ms }, .none)
    | .acquire limiter resource =>
      let (t, answer) := limiter.runAcquire t (resolveKey limiter.key resource)
      (t, .acquired answer)
    | .remaining limiter resource => (t, .remaining (limiter.remainingAsync t resource))
    | .tryAcquire throttle resource =>
      let (t, waitMs) := throttle.tryAcquireInternal t (resolveKey throttle.key resource)
      (t, .waits waitMs)

end Promin.Shared
