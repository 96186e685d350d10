import Quire.Query.Pipeline
/-!
# Groups and accumulators
-/
namespace Quire

/-- A field over the documents of a group, where it is neither missing nor null. -/
def presentValues (field : String) (members : List Document) : List Value :=
  (members.map (·.fieldOrNull field)).filter (!·.isNull)

/-- The sum of whole numbers of the signed 64-bit range, as long as every partial sum is in it. -/
def wholeSum? : Int → List Value → Option Int
  | total, [] => some total
  | total, v :: vs =>
    match v.signed64? with
    | some n => if Value.inSigned64 (total + n) then wholeSum? (total + n) vs else none
    | none => none

/-- The sum of binary64 numbers from left to right. -/
def floatSum? (xs : List Binary64) : Option Binary64 := xs.foldlM Binary64.add? .negZero

def isNumber : Value → Bool
  | .int _ => true
  | .float _ => true
  | _ => false

/-- The sum of the numbers among values: whole while all of them are, otherwise in binary64. -/
def sumOf (values : List Value) : Value :=
  let numbers := values.filter isNumber
  match wholeSum? 0 numbers with
  | some n => .int n
  | none => .ofFloat? (floatSum? (numbers.filterMap Value.binary64?))

/-- The mean of the numbers among values. -/
def meanOf (values : List Value) : Value :=
  let numbers := values.filterMap Value.binary64?
  if numbers.isEmpty then .null
  else
    .ofFloat? do
      let total ← floatSum? numbers
      total.div? (.ofInt numbers.length)

/-- The first of the least values. -/
def leastOf : List Value → Value
  | [] => .null
  | v :: vs => vs.foldl (fun m x => if m.compare x == .gt then x else m) v

/-- The last of the greatest values. -/
def greatestOf : List Value → Value
  | [] => .null
  | v :: vs => vs.foldl (fun m x => if m.compare x == .gt then m else x) v

/-- The value of an accumulator over a group. -/
def Accumulator.valueOn (members : List Document) : Accumulator → Value
  | .count => .nat members.length
  | .sum f => sumOf (presentValues f members)
  | .avg f => meanOf (presentValues f members)
  | .min f => leastOf (presentValues f members)
  | .max f => greatestOf (presentValues f members)
  | .first f => (members.head?.map (·.fieldOrNull f)).getD .null

/-- Adds a document to the first group with an equal key, or opens a group. -/
def joinGroup (key : Value) (d : Document) :
    List (Value × List Document) → List (Value × List Document)
  | [] => [(key, [d])]
  | (k, members) :: rest =>
    if k.equal key then (k, members ++ [d]) :: rest else (k, members) :: joinGroup key d rest

/-- The key of a document. -/
def groupKey (field : Option String) (d : Document) : Value :=
  match field with
  | some f => d.fieldOrNull f
  | none => .null

/-- The groups of documents, in order of first appearance. -/
def groupsOf (field : Option String) (docs : List Document) : List (Value × List Document) :=
  docs.foldl (fun groups d => joinGroup (groupKey field d) d groups) []

/-- The field that holds the key of a group. -/
def groupKeyField : String := "_id"

/-- The document of a group. -/
def groupRow (accumulators : List (String × Accumulator)) (group : Value × List Document) :
    Document :=
  accumulators.foldl (fun row a => row.set a.1 (a.2.valueOn group.2)) [(groupKeyField, group.1)]

/-- One document per group. -/
def groupRows (field : Option String) (accumulators : List (String × Accumulator))
    (docs : List Document) : List Document :=
  (groupsOf field docs).map (groupRow accumulators)

end Quire
