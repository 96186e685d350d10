import Quire.Json.Value
import Quire.Wire.Record
/-!
# Cache statistics

Counters of what happened to a collection's cache, the same as published metrics, and the version
counter of the collection's lists.
-/
namespace Quire

/-- A published counter: its name and its labels. -/
structure Metric where
  name : String
  labels : List (String × String)
deriving DecidableEq, Repr

/-- The name with the labels in braces. -/
def Metric.text (m : Metric) : String :=
  m.name ++ "\x7b" ++ String.intercalate "," (m.labels.map fun l => l.1 ++ "=" ++ l.2) ++ "\x7d"

/-- How often each of several counters was raised. -/
def Metric.tally (raised : List Metric) : Document :=
  raised.foldl (fun d m => d.set m.text (.nat (raised.count m))) []

/-- What can happen to a cache. -/
inductive CacheEvent where
  | hit
  | miss
  | set
  | invalidation (kind : String)
  | error (operation : String)
deriving DecidableEq, Repr

/-- The counter that an event of a collection raises. -/
def CacheEvent.metric (collection : String) : CacheEvent → Metric
  | .hit => ⟨"folio_cache_hits_total", [("collection", collection)]⟩
  | .miss => ⟨"folio_cache_misses_total", [("collection", collection)]⟩
  | .set => ⟨"folio_cache_sets_total", [("collection", collection)]⟩
  | .invalidation kind =>
    ⟨"folio_cache_invalidations_total", [("collection", collection), ("kind", kind)]⟩
  | .error operation =>
    ⟨"folio_cache_errors_total", [("collection", collection), ("operation", operation)]⟩

/-- The published counters with their descriptions. -/
def metricDescriptions : List (String × String) :=
  [("folio_cache_hits_total", "Total number of reads served from the cache"),
    ("folio_cache_misses_total", "Total number of reads that missed the cache"),
    ("folio_cache_sets_total", "Total number of cache entries written"),
    ("folio_cache_invalidations_total",
      "Total number of cache invalidations (entry deletes and version bumps)"),
    ("folio_cache_errors_total",
      "Total number of cache adapter errors handled as a miss or no-op")]

/-- The counters of one collection. -/
structure CacheStats where
  collection : String
  /-- Whether events are also published as metrics. -/
  publish : Bool
  hits : Nat := 0
  misses : Nat := 0
  sets : Nat := 0
  invalidations : Nat := 0
  errors : Nat := 0
  /-- The published events, in order. -/
  published : List Metric := []
deriving Repr

namespace CacheStats

/-- Counts an event. -/
def count (e : CacheEvent) (s : CacheStats) : CacheStats :=
  match e with
  | .hit => { s with hits := s.hits + 1 }
  | .miss => { s with misses := s.misses + 1 }
  | .set => { s with sets := s.sets + 1 }
  | .invalidation _ => { s with invalidations := s.invalidations + 1 }
  | .error _ => { s with errors := s.errors + 1 }

/-- Counts an event, and publishes it if events are published. -/
def record (e : CacheEvent) (s : CacheStats) : CacheStats :=
  let t := s.count e
  if s.publish then { t with published := s.published ++ [e.metric s.collection] } else t

/-- The share of hits among reads, zero before the first read. -/
def hitRate (s : CacheStats) : Binary64 :=
  if s.hits + s.misses = 0 then .zero
  else ((Binary64.ofInt s.hits).div? (.ofInt (s.hits + s.misses : Nat))).getD .zero

end CacheStats

/-- The counters at one moment. -/
structure CacheSnapshot where
  collection : String
  hits : Nat
  misses : Nat
  sets : Nat
  invalidations : Nat
  errors : Nat
  version : Nat
  hitRate : Binary64
deriving DecidableEq, Repr

/-- The counters now, under the present version. -/
def CacheStats.snapshot (s : CacheStats) (version : Nat) : CacheSnapshot :=
  ⟨s.collection, s.hits, s.misses, s.sets, s.invalidations, s.errors, version, s.hitRate⟩

namespace CacheSnapshot

open Wire

def toValue (s : CacheSnapshot) : Value :=
  .obj [("collection", .str s.collection), ("hits", .nat s.hits), ("misses", .nat s.misses),
    ("sets", .nat s.sets), ("invalidations", .nat s.invalidations), ("errors", .nat s.errors),
    ("version", .nat s.version), ("hitRate", .float s.hitRate)]

def read? (v : Value) : Option CacheSnapshot := do
  match ← slots? ["collection", "hits", "misses", "sets", "invalidations", "errors", "version",
    "hitRate"] v with
  | [collection, hits, misses, sets, invalidations, errors, version, hitRate] =>
    some {
      collection := ← collection.required string?
      hits := ← hits.required nat64?
      misses := ← misses.required nat64?
      sets := ← sets.required nat64?
      invalidations := ← invalidations.required nat64?
      errors := ← errors.required nat64?
      version := ← version.required nat64?
      hitRate := ← hitRate.required Value.binary64? }
  | _ => none

end CacheSnapshot

instance : Written CacheSnapshot := ⟨CacheSnapshot.toValue, CacheSnapshot.read?⟩

/-! ## Versions -/

/-- The version of a collection's lists, part of every list key. It is a counter of 64 bits. -/
structure ListVersion where
  current : Nat := 0
deriving DecidableEq, Repr

namespace ListVersion

/-- The version after this one. The counter goes on from zero at its end, where a build that checks
for overflow stops instead. -/
def next (version : Nat) : Nat := (version + 1) % twoPow 64

/-- The version is not the last one. -/
def HasNext (version : Nat) : Prop := version + 1 < twoPow 64

instance (version : Nat) : Decidable (HasNext version) := inferInstanceAs (Decidable (_ < _))

theorem next_of_hasNext {version : Nat} (h : HasNext version) : next version = version + 1 :=
  Nat.mod_eq_of_lt h

theorem next_le (version : Nat) : next version ≤ version + 1 := Nat.mod_le _ _

/-- The next version, also returned. -/
def bump (v : ListVersion) : Nat × ListVersion := (next v.current, ⟨next v.current⟩)

/-- Raises the version to one that was seen; never lowers it. -/
def observe (seen : Nat) (v : ListVersion) : Nat × ListVersion :=
  (max v.current seen, ⟨max v.current seen⟩)

/-- Back to zero. -/
def reset (_ : ListVersion) : ListVersion := ⟨0⟩

end ListVersion
end Quire
