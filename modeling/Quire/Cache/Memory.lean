import Quire.Cache.Glob
import Quire.Number.Powers
/-!
# The cache in memory

A bounded map from keys to texts in which every entry expires. Times are readings of a clock in
nanoseconds; the operations are functions of the map and the present time.
-/
namespace Quire

/-- A text with the time at which it expires. -/
structure CacheEntry where
  text : String
  expiresAt : Nat
deriving DecidableEq, Repr

namespace CacheEntry

def isLive (now : Nat) (e : CacheEntry) : Bool := now < e.expiresAt

end CacheEntry

/-- The map, in order of insertion. -/
structure MemoryCache where
  capacity : Nat
  entries : List (String × CacheEntry) := []
deriving Repr

namespace MemoryCache

/-- Nanoseconds in a second. -/
def second : Nat := tenPow 9

/-- The first time that the clock cannot show. -/
def timeLimit : Nat := twoPow 63 * second

/-- A hundred years, for entries whose time of expiry the clock cannot show. -/
def farFuture : Nat := 100 * 365 * 24 * 60 * 60 * second

/-- The time of expiry of what is to live for a time. -/
def expiryAfter (now life : Nat) : Nat :=
  if now + life < timeLimit then now + life else now + farFuture

/-- The time of expiry after a number of seconds. -/
def expiry (now ttl : Nat) : Nat := expiryAfter now (ttl * second)

/-- A map for at least one entry. -/
def empty (capacity : Nat) : MemoryCache := { capacity := max capacity 1 }

/-- The entry of a key, live or not. -/
def find? (key : String) (c : MemoryCache) : Option CacheEntry := c.entries.lookup key

/-- Drops the entry of a key. -/
def drop (key : String) (c : MemoryCache) : MemoryCache :=
  { c with entries := c.entries.filter (·.1 != key) }

/-- An entry that expires first. Where several expire at the same time the map may drop any of them;
here it is the one that was written first. -/
def firstToExpire : List (String × CacheEntry) → Option (String × CacheEntry)
  | [] => none
  | e :: rest =>
    match firstToExpire rest with
    | none => some e
    | some f => if f.2.expiresAt < e.2.expiresAt then some f else some e

/-- Drops expired entries from a full map, and if none was expired the one that expires first. -/
def makeRoom (now : Nat) (c : MemoryCache) : MemoryCache :=
  if c.entries.length < c.capacity then c
  else
    let live := { c with entries := c.entries.filter (·.2.isLive now) }
    if live.entries.length < c.capacity then live
    else
      match firstToExpire live.entries with
      | some (key, _) => live.drop key
      | none => live

/-- The live text of a key. An expired entry is dropped. -/
def get (now : Nat) (key : String) (c : MemoryCache) : Option String × MemoryCache :=
  match c.find? key with
  | some e => if e.isLive now then (some e.text, c) else (none, c.drop key)
  | none => (none, c)

/-- Writes a text that lives for a time. A new key may need room. -/
def write (now : Nat) (key text : String) (life : Nat) (c : MemoryCache) : MemoryCache :=
  let e : CacheEntry := ⟨text, expiryAfter now life⟩
  let c := if (c.find? key).isSome then c.drop key else c.makeRoom now
  { c with entries := c.entries ++ [(key, e)] }

/-- Writes a text that lives for a number of seconds. -/
def set (now : Nat) (key text : String) (ttl : Nat) (c : MemoryCache) : MemoryCache :=
  c.write now key text (ttl * second)

/-- Drops the entry of a key, and says whether it was live. -/
def delete (now : Nat) (key : String) (c : MemoryCache) : Bool × MemoryCache :=
  ((c.find? key).any (·.isLive now), c.drop key)

/-- Drops the entries of all keys that a pattern matches, and returns their number. -/
def clear (pattern : String) (c : MemoryCache) : Nat × MemoryCache :=
  (c.entries.countP fun e => Glob.isMatch pattern e.1,
    { c with entries := c.entries.filter fun e => !Glob.isMatch pattern e.1 })

/-- Whether a key has a live entry. -/
def contains (now : Nat) (key : String) (c : MemoryCache) : Bool :=
  (c.find? key).any (·.isLive now)

/-- The live entries. -/
def live (now : Nat) (c : MemoryCache) : List (String × String) :=
  (c.entries.filter (·.2.isLive now)).map fun e => (e.1, e.2.text)

end MemoryCache
end Quire
