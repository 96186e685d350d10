/-!
# Faults

What can go wrong, by cause. Faults of the request are told apart from faults of the surroundings;
each cause has one wording, one code and one status.
-/
namespace Quire

/-- The cause of a failed operation. -/
inductive Fault where
  | validation (text : String)
  /-- Keyset paging without a sort. -/
  | missingSort
  | invalidSort (text : String)
  | invalidCursor (text : String)
  | cursorVersion (expected found : Nat)
  /-- A cursor of another sort order. -/
  | cursorSort
  | notFound (resource id : String)
  | store (text : String)
  | cache (text : String)
  | configuration (text : String)
  | internal (text : String)
  /-- Documents cannot be sorted by comparisons that contradict each other. Nothing handles this
  fault: the operation is aborted. -/
  | contradictoryOrder
  /-- A cause from outside, in its own words. -/
  | other (text : String)
deriving DecidableEq, Repr

namespace Fault

/-- The wording of a fault. -/
def message : Fault → String
  | .validation t => "Validation error: " ++ t
  | .missingSort => "Keyset pagination requires a sort specification"
  | .invalidSort t => "Invalid sort: " ++ t
  | .invalidCursor t => "Invalid cursor: " ++ t
  | .cursorVersion e f => s!"Cursor version mismatch: expected {e}, found {f}"
  | .cursorSort => "Cursor was issued for a different sort order"
  | .notFound r i => s!"Resource not found: {r} with id {i}"
  | .store t => "Store error: " ++ t
  | .cache t => "Cache error: " ++ t
  | .configuration t => "Configuration error: " ++ t
  | .internal t => "Internal error: " ++ t
  | .contradictoryOrder =>
    "user-provided comparison function does not correctly implement a total order"
  | .other t => t

/-- The code for programs. -/
def code : Fault → String
  | .validation _ => "VALIDATION_ERROR"
  | .missingSort => "MISSING_SORT"
  | .invalidSort _ => "INVALID_SORT"
  | .invalidCursor _ => "INVALID_CURSOR"
  | .cursorVersion _ _ => "CURSOR_VERSION_MISMATCH"
  | .cursorSort => "CURSOR_SORT_MISMATCH"
  | .notFound _ _ => "NOT_FOUND"
  | .store _ => "STORE_ERROR"
  | .cache _ => "CACHE_ERROR"
  | .configuration _ => "CONFIGURATION_ERROR"
  | .internal _ => "INTERNAL_ERROR"
  | .contradictoryOrder => "ABORTED"
  | .other _ => "INTERNAL_ERROR"

/-- The status of an answer over HTTP. -/
def status : Fault → Nat
  | .validation _ | .missingSort | .invalidSort _ | .invalidCursor _ | .cursorVersion _ _
  | .cursorSort => 400
  | .notFound _ _ => 404
  | .store _ | .cache _ | .configuration _ | .internal _ | .contradictoryOrder | .other _ => 500

/-- Whether the request is to blame. -/
def isClient (f : Fault) : Bool := f.status < 500

/-- Whether a repetition can succeed. -/
def isRetriable : Fault → Bool
  | .store _ | .cache _ => true
  | _ => false

end Fault

end Quire
