import Quire.Json.Value
/-!
# Records

Records are written as objects with their fields in order, and are read from an object with the
fields by name or from an array with the fields in order. Reading ignores further fields of an
object, and takes no further items of an array.

A choice is written as an object whose only field is the name of the alternative, or as that name
alone. Where a choice stands inside a record that itself begins with a tag, it is read loosely.
-/
namespace Quire.Wire

/-- How choices are read. -/
inductive Reading where
  /-- The content of a choice is an object, or null where the name says all. -/
  | strict
  /-- The content of a choice may also be an array, or an empty object where the name says all. -/
  | loose
deriving DecidableEq, Repr

/-- What a record holds for one of its fields. -/
inductive Slot where
  | given (v : Value)
  /-- An object without the field. -/
  | absent
  /-- An array that ends before the field. -/
  | cut
deriving Repr

/-- The slots of an array for the given fields. -/
def arraySlots? : List String → List Value → Option (List Slot)
  | [], [] => some []
  | [], _ :: _ => none
  | names, [] => some (names.map fun _ => .cut)
  | _ :: names, v :: vs => (arraySlots? names vs).map (.given v :: ·)

/-- The slot of an object for a field. -/
def objectSlot (fields : Document) (name : String) : Slot :=
  match fields.get? name with
  | some v => .given v
  | none => .absent

/-- The slots of a record for its fields. -/
def slots? (names : List String) : Value → Option (List Slot)
  | .obj fields => some (names.map (objectSlot fields))
  | .arr items => arraySlots? names items
  | _ => none

/-- The slots of the content of a choice for its fields. -/
def contentSlots? (reading : Reading) (names : List String) (v : Value) : Option (List Slot) :=
  match reading, v with
  | .strict, .arr _ => none
  | _, v => slots? names v

namespace Slot

variable {α : Type}

/-- A field that must be there. -/
def required (read : Value → Option α) : Slot → Option α
  | .given v => read v
  | _ => none

/-- A field that may be null, or absent from an object. -/
def optional (read : Value → Option α) : Slot → Option (Option α)
  | .given .null => some none
  | .given v => (read v).map some
  | .absent => some none
  | .cut => none

/-- A field with a default. -/
def orElse (default : α) (read : Value → Option α) : Slot → Option α
  | .given v => read v
  | _ => some default

/-- A field that may be null or missing. -/
def optionalOrMissing (read : Value → Option α) : Slot → Option (Option α)
  | .given .null => some none
  | .given v => (read v).map some
  | _ => some none

end Slot

/-! ## Plain values -/

def bool? : Value → Option Bool
  | .bool b => some b
  | _ => none

def string? : Value → Option String
  | .str s => some s
  | _ => none

/-- A whole number from zero to below `2 ^ 64`. -/
def nat64? (v : Value) : Option Nat := v.unsigned64?

/-- A whole number from zero to below `2 ^ 32`. -/
def nat32? (v : Value) : Option Nat := v.unsigned64?.filter (· < twoPow 32)

def value? (v : Value) : Option Value := some v

def document? (v : Value) : Option Document := v.document?

/-- A list, item by item. -/
def list? {α : Type} (read : Value → Option α) : Value → Option (List α)
  | .arr items => items.mapM read
  | _ => none

/-- Named texts, as an object of strings. -/
def texts? (v : Value) : Option (List (String × String)) := do
  (← v.document?).mapM fun (name, text) => (string? text).map (name, ·)

/-- A pair, as an array of two. -/
def pair? {α β : Type} (first : Value → Option α) (second : Value → Option β) :
    Value → Option (α × β)
  | .arr [a, b] => do
    let x ← first a
    let y ← second b
    some (x, y)
  | _ => none

/-- Whether a value is the content of a choice whose name says all. -/
def isEmptyContent (reading : Reading) : Value → Bool
  | .null => true
  | .obj [] => reading == .loose
  | _ => false

/-- One of several words: a string, or an object with the word as its only field and nothing in
it. -/
def word? {α : Type} (words : List (String × α)) (reading : Reading) : Value → Option α
  | .str s => words.lookup s
  | .obj [(s, v)] => if isEmptyContent reading v then words.lookup s else none
  | _ => none

/-- The slots of a tag and its content. The tag is a word; in an array it is a string. -/
def tagged? {α : Type} (tag content : String) (words : List (String × α)) (v : Value) :
    Option (α × Slot) := do
  let readTag : Value → Option α :=
    match v with
    | .arr _ => fun t => (string? t).bind (words.lookup ·)
    | _ => word? words .strict
  match ← slots? [tag, content] v with
  | [t, c] => some (← t.required readTag, c)
  | _ => none

/-- The tag of a record, with the record of its other fields. -/
def splitTag? (tag : String) : Value → Option (String × Value)
  | v@(.obj (fields : Document)) => do some (← string? (← fields.get? tag), v)
  | .arr (.str t :: rest) => some (t, .arr rest)
  | _ => none

/-- A field that is written only when it has a value. -/
def present (name : String) : Option Value → List (String × Value)
  | some v => [(name, v)]
  | none => []

end Quire.Wire

namespace Quire

/-- A type whose values are written as JSON values and read from them. -/
class Written (α : Type) where
  toValue : α → Value
  read? : Value → Option α

open Wire

instance : Written Bool := ⟨.bool, bool?⟩

instance : Written String := ⟨.str, string?⟩

instance : Written Nat := ⟨.nat, nat64?⟩

instance : Written Value := ⟨id, some⟩

instance : Written Unit := ⟨fun _ => .null, fun v => if v.isNull then some () else none⟩

instance {α : Type} [Written α] : Written (List α) :=
  ⟨fun items => .arr (items.map Written.toValue), list? Written.read?⟩

instance {α : Type} [Written α] : Written (Option α) where
  toValue := .ofOption Written.toValue
  read?
    | .null => some none
    | v => (Written.read? v).map some

/-- A document is written as the object that it is. -/
instance : Written Document := ⟨.obj, document?⟩

/-- A field of a written form. -/
def written {α : Type} [Written α] (name : String) (a : α) : String × Value :=
  (name, Written.toValue a)

end Quire
