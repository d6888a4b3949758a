import Promin.ForStd.JsMap
import Promin.Shared.JsValue

/-!
# The lease table

`InMemoryLeaseTable`: run locks with monotonic fence tokens. A lease expires
`lockDurationMs` after it was taken or last extended.
-/

namespace Promin.Durable

structure FenceTokenMismatchError where
  workflowId : String
  expected : String
  provided : String
  message : String
  deriving DecidableEq

/-- The fence of a write: the token of the lock it is made under. Absent and empty mean
    an unfenced write. -/
abbrev FenceGuard := Option String

structure Lease where
  expiresAt : Int
  lockedBy : String
  token : String
  attemptId : Option String
  deriving DecidableEq

structure TryLockResult where
  acquired : Bool
  token : Option String := none

structure InMemoryLeaseTable where
  leases : JsMap String Lease
  nextFenceToken : Nat
  instanceId : String
  deriving DecidableEq

namespace InMemoryLeaseTable

def new (instanceId : String) : InMemoryLeaseTable where
  leases := JsMap.empty
  nextFenceToken := 1
  instanceId := instanceId

variable (t : InMemoryLeaseTable)

/-- The lease, while it has not expired. -/
def live (now : Int) (workflowId : String) : Option Lease :=
  (t.leases.get workflowId).filter fun lease => decide (lease.expiresAt > now)

/-- Acquire the lease when it is free or expired; a repeat of the attempt that took it
    gets it back. -/
def tryAcquire (now : Int) (workflowId : String) (lockDurationMs : Int) (attemptId : Option String)
    : InMemoryLeaseTable × TryLockResult :=
  match t.live now workflowId with
  | some lease =>
    if attemptId.isSome && lease.attemptId == attemptId then
      (t, { acquired := true, token := some lease.token })
    else (t, { acquired := false })
  | none =>
    let token := toString t.nextFenceToken
    ({ t with
        nextFenceToken := t.nextFenceToken + 1
        leases := t.leases.set workflowId
          { expiresAt := now + lockDurationMs, lockedBy := t.instanceId, token := token
            attemptId := attemptId } },
      { acquired := true, token := some token })

/-- Release the lease: with a token only its holder's, without one only a lease this
    instance took. -/
def release (workflowId : String) (guard_ : FenceGuard) : InMemoryLeaseTable :=
  match t.leases.get workflowId with
  | none => t
  | some lease =>
    let mine := if truthy guard_ then decide (guard_ = some lease.token)
      else decide (lease.lockedBy = t.instanceId)
    if mine then { t with leases := t.leases.delete workflowId } else t

def checkFence (now : Int) (workflowId : String) (guard_ : FenceGuard) :
    Except FenceTokenMismatchError Unit :=
  if !truthy guard_ then .ok ()
  else
    let provided := guard_.getD ""
    match t.leases.get workflowId with
    | none => .error {
        workflowId := workflowId, expected := "(no lock)", provided := provided
        message := "Fenced write for \"" ++ workflowId ++ "\" rejected — no active lock" }
    | some lease =>
      if lease.token ≠ provided then .error {
        workflowId := workflowId, expected := lease.token, provided := provided
        message := "Fenced write for \"" ++ workflowId ++
          "\" rejected — token mismatch (expected \"" ++
          lease.token ++ "\", got \"" ++ provided ++ "\")" }
      else if lease.expiresAt ≤ now then .error {
        workflowId := workflowId, expected := "(expired)", provided := provided
        message := "Fenced write for \"" ++ workflowId ++ "\" rejected — the lock for token \"" ++
          provided ++ "\" expired" }
      else .ok ()

/-- Extend the lease. A token holder whose lease is gone or re-taken is rejected; without
    a token, a lease this instance doesn't hold is left alone. -/
def extend (now : Int) (workflowId : String) (lockDurationMs : Int) (guard_ : FenceGuard) :
    InMemoryLeaseTable × Except FenceTokenMismatchError Unit :=
  match t.checkFence now workflowId guard_ with
  | .error e => (t, .error e)
  | .ok () =>
    match t.leases.get workflowId with
    | none => (t, .ok ())
    | some lease =>
      if !truthy guard_ && lease.lockedBy != t.instanceId then (t, .ok ())
      else
        let lease := { lease with expiresAt := now + lockDurationMs }
        ({ t with leases := t.leases.set workflowId lease }, .ok ())

def isHeld (workflowId : String) (nowMs : Int) : Bool :=
  (t.live nowMs workflowId).isSome

def forget (workflowId : String) : InMemoryLeaseTable :=
  { t with leases := t.leases.delete workflowId }

end InMemoryLeaseTable

end Promin.Durable
