import Quire.Settings.Scalar
import Quire.Text.Blank
/-!
# Setting trees

Settings from one place form a tree of named tables. Trees are laid over one another: a table joins
the table of the same name, and anything else takes the place of whatever was there. Names do not
distinguish upper and lower case. A path leads to a place in a tree, through tables by name and
through lists by place.
-/
namespace Quire

/-- Settings from one place. -/
inductive SettingTree where
  | leaf (s : Scalar)
  | table (fields : List (String × SettingTree))
  | list (items : List SettingTree)
  /-- A place that holds nothing yet. -/
  | gap
deriving Inhabited, Repr

/-- The named trees of one table, or of a whole layer of settings. -/
abbrev SettingTree.Layer := List (String × SettingTree)

namespace SettingTree

/-- The fields of a table; nothing else has any. -/
def fields : SettingTree → Layer
  | .table fs => fs
  | _ => []

/-- The items of a list; nothing else has any. -/
def items : SettingTree → List SettingTree
  | .list ts => ts
  | _ => []

/-- The tree under a name. -/
def get? (name : String) (t : SettingTree) : Option SettingTree := t.fields.lookup name

/-- Puts a tree under a name, in the place of an older one. -/
def put (name : String) (t : SettingTree) : Layer → Layer
  | [] => [(name, t)]
  | (k, u) :: rest => if k = name then (name, t) :: rest else (k, u) :: put name t rest

mutual
/-- Lays a tree over what is under a name. -/
def lay (name : String) (upper : SettingTree) (base : SettingTree) : SettingTree :=
  match upper with
  | .table fs =>
    let below := (base.get? (Scalar.lower name)).getD (.table [])
    .table (put (Scalar.lower name) (layAll fs below) base.fields)
  | t => .table (put (Scalar.lower name) t base.fields)

/-- Lays several named trees over a tree. -/
def layAll (upper : Layer) (base : SettingTree) : SettingTree :=
  match upper with
  | [] => base
  | (name, t) :: rest => layAll rest (lay name t base)
end

/-! ## Paths -/

/-- A step of a path. -/
inductive Step where
  | name (s : String)
  /-- A place in a list; negative places count from its end. -/
  | place (i : Int)
deriving DecidableEq, Repr

/-- Whether a character can stand in a name inside a path. -/
def isNameChar (c : Char) : Bool := c.isAlphanum || c = '_' || c = '-' || c = ' '

/-- The name at the head of a text, with the rest. -/
def nameStep? (cs : List Char) : Option (Step × List Char) :=
  match cs.takeWhile isNameChar with
  | [] => none
  | name => some (.name (String.ofList name), cs.dropWhile isNameChar)

/-- The place at the head of a text, after its opening bracket, with the rest. -/
def placeStep? (cs : List Char) : Option (Step × List Char) := do
  let isBlank := fun c => c == ' ' || c == '\t'
  let number := (cs.dropWhile isBlank).takeWhile fun c => c == '-' || c.isDigit
  let rest := (cs.dropWhile isBlank).drop number.length
  let i ← (Text.signedNumeral? number).filter Value.inSigned64
  match rest.dropWhile isBlank with
  | ']' :: rest => some (.place i, rest)
  | _ => none

/-- The steps after the first: names after dots, places in brackets. The bound is the number of
characters left. -/
def laterSteps? : Nat → List Char → Option (List Step)
  | _, [] => some []
  | bound + 1, '.' :: rest => do
    let (s, rest) ← nameStep? rest
    (laterSteps? bound rest).map (s :: ·)
  | bound + 1, '[' :: rest => do
    let (s, rest) ← placeStep? rest
    (laterSteps? bound rest).map (s :: ·)
  | _, _ => none

/-- The steps of a path. The first is a name. -/
def pathSteps? (path : String) : Option (List Step) := do
  let (s, rest) ← nameStep? path.toList
  (laterSteps? rest.length rest).map (s :: ·)

/-- Changes an item of a list. Where the list is too short for the place, gaps fill it up, in front
if the place counts from the end. -/
def changePlace (i : Int) (change : SettingTree → SettingTree) (ts : List SettingTree) :
    List SettingTree :=
  let far := if i < 0 then i.natAbs else i.natAbs + 1
  let filler := List.replicate (far - ts.length) SettingTree.gap
  if i < 0 then
    let filled := filler ++ ts
    filled.modify (filled.length - far) change
  else (ts ++ filler).modify i.natAbs change

/-- Lays a tree over what is at the end of a path. On the way, whatever is no table or list of the
kind that a step needs becomes an empty one. -/
def layAt (upper : SettingTree) : List Step → SettingTree → SettingTree
  | [], _ => upper
  | [.name n], base => lay n upper base
  | .name n :: rest, base =>
    let below := (base.get? (Scalar.lower n)).getD .gap
    .table (put (Scalar.lower n) (layAt upper rest below) base.fields)
  | .place i :: rest, base => .list (changePlace i (layAt upper rest) base.items)

/-- Lays a tree over what is at the end of a path. What is no path counts as one name. -/
def layAtPath (path : String) (upper : SettingTree) (base : SettingTree) : SettingTree :=
  layAt upper ((pathSteps? path).getD [.name path]) base

/-- Lays one layer over a tree. Its outermost names are paths. -/
def overlay (layer : Layer) (base : SettingTree) : SettingTree :=
  layer.foldl (fun t f => layAtPath f.1 f.2 t) base

end SettingTree
end Quire
