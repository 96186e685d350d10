import Quire.Action
import Quire.Cache.Memory
import Quire.Json.Value
import Quire.Settings.Basic
/-!
# Cache adapters

What a cache must offer, over any state of its own, and the adapters that are built in.
-/
namespace Quire

/-- A call of a cache. -/
inductive CacheCall where
  | get (key : String)
  | set (key : String) (ttl : Nat)
  | delete (key : String)
  | clear (pattern : String)
deriving DecidableEq, Repr

namespace CacheCall

def name : CacheCall → String
  | .get _ => "get"
  | .set _ _ => "set"
  | .delete _ => "delete"
  | .clear _ => "clear"

/-- A call as a row of its name and what it is given. -/
def toValue (c : CacheCall) : Value :=
  .arr (.str c.name ::
    match c with
    | .get key | .delete key => [.str key]
    | .set key ttl => [.str key, .nat ttl]
    | .clear pattern => [.str pattern])

end CacheCall

/-- A store of texts by key, in which entries expire. Any call may fail. -/
structure CacheAdapter (κ : Type) where
  get : String → Action κ (Option String)
  /-- Writes a text that lives for a number of seconds. -/
  set : String → String → Nat → Action κ Unit
  /-- Drops an entry, and says whether it was there. -/
  delete : String → Action κ Bool
  supportsClear : Bool
  /-- Drops the entries of all keys that a pattern matches, and returns their number. -/
  clear : String → Action κ Nat
  isEnabled : Bool

namespace CacheAdapter

variable {κ : Type}

/-- Refuses to clear by pattern. -/
def refuseClear (pattern : String) : Action κ Nat :=
  Action.fail (.cache s!"pattern delete of '{pattern}' is not supported by this adapter")

/-- An adapter that keeps nothing. -/
def disabled : CacheAdapter κ where
  get _ := pure none
  set _ _ _ := pure ()
  delete _ := pure false
  supportsClear := false
  clear _ := pure 0
  isEnabled := false

/-- An adapter over a part of a larger state. -/
def lift {τ : Type} (part : Part κ τ) (a : CacheAdapter τ) : CacheAdapter κ where
  get key := part.lift (a.get key)
  set key text ttl := part.lift (a.set key text ttl)
  delete key := part.lift (a.delete key)
  supportsClear := a.supportsClear
  clear pattern := part.lift (a.clear pattern)
  isEnabled := a.isEnabled

/-- The adapter that announces each call before it carries it out. A call whose announcement fails
is not carried out. -/
def announcing (a : CacheAdapter κ) (announce : CacheCall → Action κ Unit) : CacheAdapter κ where
  get key := do
    announce (.get key)
    a.get key
  set key text ttl := do
    announce (.set key ttl)
    a.set key text ttl
  delete key := do
    announce (.delete key)
    a.delete key
  supportsClear := a.supportsClear
  clear pattern := do
    announce (.clear pattern)
    a.clear pattern
  isEnabled := a.isEnabled

/-- Reads an entry as something other than text. -/
def fetch {α : Type} (a : CacheAdapter κ) (read : String → Option α) (key : String) :
    Action κ (Option α) := do
  match ← a.get key with
  | none => pure none
  | some text =>
    match read text with
    | some x => pure (some x)
    | none => Action.fail (.cache s!"corrupt entry '{key}'")

end CacheAdapter

/-- A cache in memory with a clock that advances at every operation. -/
structure TickingCache where
  cache : MemoryCache
  now : Nat
deriving Repr

namespace TickingCache

/-- When the clock is read first. A clock has been running for a while by then, so that the longest
times to live lie beyond what it can show. -/
def start : Nat := 24 * 60 * 60 * MemoryCache.second

/-- A cache for a number of entries. -/
def empty (capacity : Nat) : TickingCache := ⟨.empty capacity, start⟩

/-- The live texts at the present time. -/
def live (s : TickingCache) : List (String × String) := s.cache.live s.now

/-- Whether a key has a live entry at the present time. -/
def contains (key : String) (s : TickingCache) : Bool := s.cache.contains s.now key

/-- An operation at the present time. -/
def step {α : Type} (f : Nat → MemoryCache → α × MemoryCache) : Action TickingCache α :=
  Action.ofStep fun s =>
    let (a, cache) := f s.now s.cache
    (a, ⟨cache, s.now + 1⟩)

/-- The adapter of a cache in memory. -/
def adapter : CacheAdapter TickingCache where
  get key := step fun now c => c.get now key
  set key text ttl := step fun now c => ((), c.set now key text ttl)
  delete key := step fun now c => c.delete now key
  supportsClear := true
  clear pattern := step fun _ c => c.clear pattern
  isEnabled := true

end TickingCache

/-- The adapter that the settings ask for. No cache server can be reached from here. -/
def CacheSettings.adapter (s : CacheSettings) : Except Fault (CacheAdapter TickingCache) :=
  if !s.enabled then .ok .disabled
  else
    match s.backend with
    | .memory => .ok TickingCache.adapter
    | .redis => .error (.configuration "Invalid Redis config")

end Quire
