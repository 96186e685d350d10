import Quire.Number.Binary64
/-!
# Values and documents

Schemaless values and the documents made of them. A document lists its fields in increasing order
of name; `Document.set` and `Document.erase` keep that order, and `Value.normalize` brings a value
read from elsewhere into it.
-/
namespace Quire

/-- A schemaless value. Whole numbers and binary64 numbers are different representations, also
where they are equal as numbers. -/
inductive Value where
  | null
  | bool (b : Bool)
  | int (n : Int)
  | float (x : Binary64)
  | str (s : String)
  | arr (items : List Value)
  | obj (fields : List (String × Value))
deriving Inhabited, Repr, BEq

/-- Named fields, in increasing order of name. -/
abbrev Document := List (String × Value)

namespace Document

/-- The value of a field. -/
def get? (name : String) : Document → Option Value
  | [] => none
  | (k, v) :: rest => if k = name then some v else get? name rest

/-- Writes a field in its place, over an older value of the same name. -/
def set (name : String) (value : Value) : Document → Document
  | [] => [(name, value)]
  | (k, v) :: rest =>
    if name < k then (name, value) :: (k, v) :: rest
    else if name = k then (name, value) :: rest
    else (k, v) :: set name value rest

/-- Removes a field. -/
def erase (name : String) : Document → Document
  | [] => []
  | (k, v) :: rest => if k = name then erase name rest else (k, v) :: erase name rest

/-- Writes fields one after another, so the last of a name wins. -/
def ofFields (fields : List (String × Value)) : Document :=
  fields.foldl (fun d f => set f.1 f.2 d) []

@[simp] theorem get?_nil (name : String) : get? name [] = none := rfl

@[simp] theorem get?_set_self (name : String) (value : Value) (d : Document) :
    get? name (set name value d) = some value := by
  induction d with
  | nil => simp [set, get?]
  | cons f rest ih =>
    obtain ⟨k, v⟩ := f
    simp only [set]
    split
    · simp [get?]
    · split
      · simp [get?]
      · next h => simp [get?, ih, Ne.symm h]

@[simp] theorem get?_set_of_ne {name other : String} (h : other ≠ name) (value : Value)
    (d : Document) : get? other (set name value d) = get? other d := by
  induction d with
  | nil => simp [set, get?, Ne.symm h]
  | cons f rest ih =>
    obtain ⟨k, v⟩ := f
    simp only [set]
    split
    · simp [get?, Ne.symm h]
    · split
      · next hk => subst hk; simp [get?, Ne.symm h]
      · simp [get?, ih]

@[simp] theorem get?_erase_self (name : String) (d : Document) :
    get? name (erase name d) = none := by
  induction d with
  | nil => rfl
  | cons f rest ih =>
    obtain ⟨k, v⟩ := f
    by_cases h : k = name <;> simp [erase, get?, h, ih]

@[simp] theorem get?_erase_of_ne {name other : String} (h : other ≠ name) (d : Document) :
    get? other (erase name d) = get? other d := by
  induction d with
  | nil => rfl
  | cons f rest ih =>
    obtain ⟨k, v⟩ := f
    by_cases hk : k = name
    · subst hk; simp [erase, get?, ih, Ne.symm h]
    · simp [erase, get?, ih, hk]

end Document

namespace Value

mutual
/-- Sorts the fields of every object by name and keeps the last of equal names. -/
def normalize : Value → Value
  | .arr items => .arr (normalizeItems items)
  | .obj fields => .obj (Document.ofFields (normalizeFields fields))
  | v => v

/-- Normalizes each item. -/
def normalizeItems : List Value → List Value
  | [] => []
  | v :: rest => v.normalize :: normalizeItems rest

/-- Normalizes the value of each field, in place. -/
def normalizeFields : List (String × Value) → List (String × Value)
  | [] => []
  | (k, v) :: rest => (k, v.normalize) :: normalizeFields rest
end

def isNull : Value → Bool
  | .null => true
  | _ => false

/-- Whether a whole number fits in 64 bits, of which one is its sign. -/
def inSigned64 (n : Int) : Bool := -(twoPow 63 : Int) ≤ n && n < twoPow 63

/-- The whole number of a value in the signed 64-bit range. -/
def signed64? : Value → Option Int
  | .int n => if inSigned64 n then some n else none
  | _ => none

/-- The whole number of a value in the unsigned 64-bit range. -/
def unsigned64? : Value → Option Nat
  | .int n => if 0 ≤ n ∧ n < twoPow 64 then some n.toNat else none
  | _ => none

/-- The number of a value, rounded to binary64. -/
def binary64? : Value → Option Binary64
  | .int n => some (.ofInt n)
  | .float x => some x
  | _ => none

/-- A computed number, or null where it is too large for the format. -/
def ofFloat? : Option Binary64 → Value
  | some x => .float x
  | none => .null

/-- A count. -/
def nat (n : Nat) : Value := .int n

/-- Null for an absent value. -/
def ofOption {α : Type} (f : α → Value) : Option α → Value
  | some a => f a
  | none => .null

/-- The documents of a list, as one value. -/
def documents (docs : List Document) : Value := .arr (docs.map .obj)

/-- An object's fields. -/
def document? : Value → Option Document
  | .obj fields => some fields
  | _ => none

/-- A field of an object. -/
def field? (name : String) : Value → Option Value
  | .obj fields => Document.get? name fields
  | _ => none

end Value
end Quire
