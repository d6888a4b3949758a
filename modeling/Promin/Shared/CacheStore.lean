import Promin.ForStd.JsMap
import Promin.ForStd.Machine

/-!
# The in-memory cache

`MemoryCache`: a `Map` of entries with their expiry, whose first key goes when a new key comes
at capacity.  An expired entry stays until it is looked at.
-/

namespace Promin.Shared

structure MemoryCacheEntry (α : Type) where
  value : α
  expiresAt : Int

structure MemoryCacheConfig where
  ttlMs : Int
  maxSize : Option Nat

structure MemoryCache (κ α : Type) where
  entries : JsMap κ (MemoryCacheEntry α)
  now : Int

inductive CacheOp (κ α : Type) where
  | advance (ms : Nat)
  | get (key : κ)
  | set (key : κ) (value : α) (ttlMs : Option Int)
  | delete (key : κ)
  | has (key : κ)
  | clear
  | size

/-- What a call returns.  `set` returns nothing; here it says which key made room. -/
inductive CacheAnswer (κ α : Type) where
  | none
  | value (value : Option α)
  | set (evicted : Option κ)
  | has (found : Bool)
  | size (n : Nat)
  deriving DecidableEq

namespace MemoryCache

variable {κ α : Type} [DecidableEq κ]

def new (now : Int) : MemoryCache κ α where
  entries := JsMap.empty
  now := now

def atCapacity (config : MemoryCacheConfig) (size : Nat) : Bool :=
  match config.maxSize with
  | none => false
  | some maxSize => decide (maxSize ≤ size)

def expired (now : Int) (entry : MemoryCacheEntry α) : Bool := decide (now > entry.expiresAt)

variable (c : MemoryCache κ α)

/-- A read moves its entry to the end. -/
def get (key : κ) : MemoryCache κ α × CacheAnswer κ α :=
  match c.entries.get key with
  | none => (c, .value none)
  | some entry =>
    if expired c.now entry then ({ c with entries := c.entries.delete key }, .value none)
    else
      -- Move to end (most recently used).
      ({ c with entries := (c.entries.delete key).set key entry }, .value (some entry.value))

/-- The key that makes room for a new one: the first, unless it is the value `undefined`. -/
def oldest (isUndefined : κ → Bool) (config : MemoryCacheConfig) (c : MemoryCache κ α) (key : κ) :
    Option κ :=
  if atCapacity config c.entries.size && !c.entries.has key then
    c.entries.keys.head?.filter fun k => !isUndefined k
  else none

def set (isUndefined : κ → Bool) (config : MemoryCacheConfig) (c : MemoryCache κ α) (key : κ)
    (value : α) (ttlMs : Option Int) : MemoryCache κ α × CacheAnswer κ α :=
  let oldest := c.oldest isUndefined config key
  let entries := match oldest with
    | none => c.entries
    | some k => c.entries.delete k
  ({ c with
      entries := entries.set key { value := value, expiresAt := c.now + ttlMs.getD config.ttlMs } },
    .set oldest)

/-- Whether the key is stored; its entry stays where it is. -/
def has (key : κ) : MemoryCache κ α × CacheAnswer κ α :=
  match c.entries.get key with
  | none => (c, .has false)
  | some entry =>
    if expired c.now entry then ({ c with entries := c.entries.delete key }, .has false)
    else (c, .has true)

/-- Purge what is expired, then count. -/
def size : MemoryCache κ α × CacheAnswer κ α :=
  let entries := c.entries.filter fun _ entry => !expired c.now entry
  ({ c with entries := entries }, .size entries.size)

end MemoryCache

/-- The transition function of a cache.  `isUndefined` tells the key `undefined`. -/
def memoryCache {κ α : Type} [DecidableEq κ] (isUndefined : κ → Bool) (config : MemoryCacheConfig) :
    Machine (MemoryCache κ α) (CacheOp κ α) (CacheAnswer κ α) where
  step c o := match o with
    | .advance ms => ({ c with now := c.now + ms }, .none)
    | .get key => c.get key
    | .set key value ttlMs => c.set isUndefined config key value ttlMs
    | .delete key => ({ c with entries := c.entries.delete key }, .none)
    | .has key => c.has key
    | .clear => ({ c with entries := JsMap.empty }, .none)
    | .size => c.size

end Promin.Shared
