import Quire.Settings.Tree
/-!
# Setting files

Settings in TOML: tables under headers, keys with dots, inline tables, strings, whole numbers and
truth values. A file that names a value twice, or opens a table twice, is refused as a whole.

The reader works on the characters that are left; every reader of a part returns the part together
with what follows it.
-/
namespace Quire.Toml

/-! ## Blanks, comments, line ends -/

def isBlank (c : Char) : Bool := c = ' ' || c = '\t'

def skipBlanks (cs : List Char) : List Char := cs.dropWhile isBlank

/-- Whether a character can stand unescaped in a comment or a string: everything but controls. -/
def isPlain (c : Char) : Bool := c = '\t' || (0x20 ≤ c.toNat && c.toNat ≠ 0x7F)

/-- What follows a line end, where there is one. -/
def lineEnd? : List Char → Option (List Char)
  | '\n' :: rest => some rest
  | '\r' :: '\n' :: rest => some rest
  | _ => none

def skipComment : List Char → List Char
  | '#' :: rest => rest.dropWhile isPlain
  | cs => cs

/-- What follows the end of a line that holds nothing further than blanks and a comment. -/
def finishLine? (cs : List Char) : Option (List Char) :=
  match skipComment (skipBlanks cs) with
  | [] => some []
  | rest => lineEnd? rest

/-! ## Strings -/

/-- The character of an escape with hexadecimal digits. -/
def codePoint? (digits : List Char) : Option Char := do
  let ds ← digits.mapM Text.hexDigit?
  let n := Text.natOfDigits 16 ds
  if n.isValidChar then some (Char.ofNat n) else none

/-- The character of an escape, after its backslash. -/
def escape? : List Char → Option (Char × List Char)
  | 'b' :: rest => some ('\x08', rest)
  | 't' :: rest => some ('\t', rest)
  | 'n' :: rest => some ('\n', rest)
  | 'f' :: rest => some ('\x0c', rest)
  | 'r' :: rest => some ('\r', rest)
  | '"' :: rest => some ('"', rest)
  | '\\' :: rest => some ('\\', rest)
  | 'u' :: rest =>
    if rest.length < 4 then none else (codePoint? (rest.take 4)).map (·, rest.drop 4)
  | 'U' :: rest =>
    if rest.length < 8 then none else (codePoint? (rest.take 8)).map (·, rest.drop 8)
  | _ => none

/-- How a string is delimited. -/
structure Quoting where
  mark : Char
  /-- Whether backslashes escape. -/
  escapes : Bool
  /-- Whether the string goes over several lines, between tripled marks. -/
  long : Bool

/-- What follows blanks and line ends. -/
def skipSpace : List Char → List Char
  | '\r' :: '\n' :: rest => skipSpace rest
  | c :: rest => if isBlank c || c = '\n' then skipSpace rest else c :: rest
  | [] => []

/-- What follows the backslash of a line that goes on: the next text, all blank space skipped. -/
def continuation? (cs : List Char) : Option (List Char) :=
  (lineEnd? (skipBlanks cs)).map skipSpace

/-- Where a string ends: the marks that still belong to it, and what follows. -/
def closing? (q : Quoting) (cs : List Char) : Option (List Char × List Char) :=
  let marks := (cs.takeWhile (· == q.mark)).length
  if q.long then
    if 3 ≤ marks then
      let extra := min (marks - 3) 2
      some (List.replicate extra q.mark, cs.drop (extra + 3))
    else none
  else if 1 ≤ marks then some ([], cs.drop 1)
  else none

/-- The text of a string after its opening marks. The bound is the number of characters left. -/
def stringBody? (q : Quoting) : Nat → List Char → Option (List Char × List Char)
  | 0, _ => none
  | bound + 1, cs =>
    match closing? q cs with
    | some found => some found
    | none =>
      let go := fun (c : Char) (rest : List Char) =>
        (stringBody? q bound rest).map fun (text, tail) => (c :: text, tail)
      match cs with
      | [] => none
      | c :: rest =>
        if q.escapes && c = '\\' then
          match escape? rest with
          | some (e, rest) => go e rest
          | none => if q.long then (continuation? rest).bind (stringBody? q bound) else none
        else if isPlain c then go c rest
        else if q.long then (lineEnd? cs).bind (go '\n')
        else none

/-- A string of either mark; `allowLong` admits tripled marks. -/
def string? (allowLong : Bool) (cs : List Char) : Option (String × List Char) :=
  let read := fun (q : Quoting) (body : List Char) =>
    (stringBody? q (body.length + 1) body).map fun (text, tail) => (String.ofList text, tail)
  let long := fun (q : Quoting) (body : List Char) => read q ((lineEnd? body).getD body)
  match cs with
  | '"' :: '"' :: '"' :: body =>
    if allowLong then long ⟨'"', true, true⟩ body else some ("", '"' :: body)
  | '\'' :: '\'' :: '\'' :: body =>
    if allowLong then long ⟨'\'', false, true⟩ body else some ("", '\'' :: body)
  | '"' :: body => read ⟨'"', true, false⟩ body
  | '\'' :: body => read ⟨'\'', false, false⟩ body
  | _ => none

/-! ## Numbers and words -/

/-- Digits of a base; single underscores may stand between two digits. -/
def digits (read : Char → Option Nat) : List Char → List Nat × List Char
  | c :: '_' :: d :: rest =>
    match read c, read d with
    | some n, some _ => let (ds, tail) := digits read (d :: rest); (n :: ds, tail)
    | some n, none => ([n], '_' :: d :: rest)
    | none, _ => ([], c :: '_' :: d :: rest)
  | c :: rest =>
    match read c with
    | some n => let (ds, tail) := digits read rest; (n :: ds, tail)
    | none => ([], c :: rest)
  | [] => ([], [])

/-- The digits of a base up to ten. -/
def digitBelow (base : Nat) (c : Char) : Option Nat := (Text.digit? c).filter (· < base)

/-- A whole number in the signed 64-bit range. -/
def inRange? (n : Int) (rest : List Char) : Option (Scalar × List Char) :=
  if Value.inSigned64 n then some (.int n, rest) else none

/-- A whole number after a mark for its base. -/
def basedInt? (base : Nat) (read : Char → Option Nat) (cs : List Char) :
    Option (Scalar × List Char) :=
  match digits read cs with
  | ([], _) => none
  | (ds, rest) => inRange? (Text.natOfDigits base ds) rest

/-- A decimal whole number after its sign. Only zero itself starts with a zero. -/
def decimalInt? (negative : Bool) (cs : List Char) : Option (Scalar × List Char) :=
  match digits Text.digit? cs with
  | ([], _) => none
  | (0 :: _ :: _, _) => none
  | (ds, rest) =>
    let n : Int := Text.natOfDigits 10 ds
    inRange? (if negative then -n else n) rest

/-- What follows a word at the head of a text. -/
def afterWord? : List Char → List Char → Option (List Char)
  | [], cs => some cs
  | w :: word, c :: cs => if w = c then afterWord? word cs else none
  | _ :: _, [] => none

/-- A value other than a table. -/
def scalar? (cs : List Char) : Option (Scalar × List Char) :=
  match cs with
  | '"' :: _ | '\'' :: _ => (string? true cs).map fun (s, rest) => (.str s, rest)
  | 't' :: rest => (afterWord? ['r', 'u', 'e'] rest).map (.bool true, ·)
  | 'f' :: rest => (afterWord? ['a', 'l', 's', 'e'] rest).map (.bool false, ·)
  | '0' :: 'x' :: rest => basedInt? 16 Text.hexDigit? rest
  | '0' :: 'o' :: rest => basedInt? 8 (digitBelow 8) rest
  | '0' :: 'b' :: rest => basedInt? 2 (digitBelow 2) rest
  | '+' :: rest => decimalInt? false rest
  | '-' :: rest => decimalInt? true rest
  | _ => decimalInt? false cs

/-! ## Keys -/

def isBareKeyChar (c : Char) : Bool := c.isAlphanum || c = '_' || c = '-'

/-- One name of a key. -/
def simpleKey? (cs : List Char) : Option (String × List Char) :=
  match cs with
  | '"' :: _ | '\'' :: _ => string? false cs
  | _ =>
    match cs.takeWhile isBareKeyChar with
    | [] => none
    | name => some (String.ofList name, cs.dropWhile isBareKeyChar)

/-- Keys have fewer names than this, and inline tables are nested less deep. -/
def nestingLimit : Nat := 80

/-- The names of a key, blanks around each. The bound is the number of characters left. -/
def names? : Nat → List Char → Option (List String × List Char)
  | 0, _ => none
  | bound + 1, cs => do
    let (name, rest) ← simpleKey? (skipBlanks cs)
    match skipBlanks rest with
    | '.' :: rest => (names? bound rest).map fun (names, tail) => (name :: names, tail)
    | rest => some ([name], rest)

/-- A key: names between dots. -/
def key? (cs : List Char) : Option (List String × List Char) :=
  (names? (cs.length + 1) cs).filter fun found => found.1.length < nestingLimit

/-! ## Tables -/

/-- What opened a table. -/
inductive Opening where
  /-- A header of its own. -/
  | header
  /-- A header of a table inside it. -/
  | passing
  /-- A key with dots. -/
  | dotted
deriving DecidableEq

/-- What stands under a name. -/
inductive Node where
  | value (t : SettingTree)
  /-- A table that may still grow. -/
  | table (opening : Opening) (fields : List (String × Node))

/-- The named things of an open table. -/
abbrev Fields := List (String × Node)

/-- Replaces what stands under a name. -/
def putNode (name : String) (n : Node) : Fields → Fields
  | [] => [(name, n)]
  | (k, m) :: rest => if k = name then (name, n) :: rest else (k, m) :: putNode name n rest

/-- Opens a table by its header. A table that was only passed through may be opened once. -/
def openTable? : List String → Fields → Option Fields
  | [], fs => some fs
  | [name], fs =>
    match fs.lookup name with
    | none => some (putNode name (.table .header []) fs)
    | some (.table .passing inner) => some (putNode name (.table .header inner) fs)
    | some _ => none
  | name :: rest, fs =>
    match fs.lookup name with
    | none => (openTable? rest []).map fun inner => putNode name (.table .passing inner) fs
    | some (.table opening inner) =>
      (openTable? rest inner).map fun inner => putNode name (.table opening inner) fs
    | some (.value _) => none

/-- Writes a value under a key of an open table. Dots lead through tables without a header of their
own, and the value itself goes into a table that dots opened. -/
def writeKey? (t : SettingTree) : List String → Fields → Option Fields
  | [], _ => none
  | [name], fs => if (fs.lookup name).isSome then none else some (putNode name (.value t) fs)
  | name :: rest, fs =>
    match fs.lookup name with
    | none => (writeKey? t rest []).map fun inner => putNode name (.table .dotted inner) fs
    | some (.table opening inner) =>
      if opening = .dotted ∨ (opening = .passing ∧ 1 < rest.length) then
        (writeKey? t rest inner).map fun inner => putNode name (.table opening inner) fs
      else none
    | some (.value _) => none

/-- Writes a value under a key of the table with the given header. -/
def writeBelow? (t : SettingTree) (key : List String) : List String → Fields → Option Fields
  | [], fs => writeKey? t key fs
  | name :: rest, fs =>
    match fs.lookup name with
    | some (.table opening inner) =>
      (writeBelow? t key rest inner).map fun inner => putNode name (.table opening inner) fs
    | _ => none

mutual
/-- The tree of what stands under a name. -/
def Node.toTree : Node → SettingTree
  | .value t => t
  | .table _ fields => .table (treesOf fields)

/-- The trees of named things. -/
def treesOf : List (String × Node) → SettingTree.Layer
  | [] => []
  | (name, n) :: rest => (name, n.toTree) :: treesOf rest
end

/-! ## Values -/

mutual
/-- A value inside `depth` inline tables. -/
def value? (bound : Nat) (depth : Nat) (cs : List Char) : Option (SettingTree × List Char) :=
  match bound with
  | 0 => none
  | bound + 1 =>
    match cs with
    | '\x7b' :: rest =>
      if depth + 1 < nestingLimit then
        match skipBlanks rest with
        | '\x7d' :: rest => some (.table [], rest)
        | rest =>
          (pairs? bound (depth + 1) [] rest).map fun (fs, tail) => (.table (treesOf fs), tail)
      else none
    | _ => (scalar? cs).map fun (s, rest) => (.leaf s, rest)

/-- The pairs of an inline table, with the closing brace. -/
def pairs? (bound : Nat) (depth : Nat) (fs : Fields) (cs : List Char) :
    Option (Fields × List Char) :=
  match bound with
  | 0 => none
  | bound + 1 => do
    let (key, rest) ← key? cs
    match rest with
    | '=' :: rest =>
      let (t, rest) ← value? bound depth (skipBlanks rest)
      let fs ← writeKey? t key fs
      match skipBlanks rest with
      | '\x7d' :: rest => some (fs, rest)
      | ',' :: rest => pairs? bound depth fs rest
      | _ => none
    | _ => none
end

/-! ## Files -/

/-- A header after its opening bracket. -/
def header? (cs : List Char) : Option (List String × List Char) := do
  let (key, rest) ← key? cs
  match rest with
  | ']' :: rest => (finishLine? rest).map (key, ·)
  | _ => none

/-- A key with its value. -/
def pair? (cs : List Char) : Option (List String × SettingTree × List Char) := do
  let (key, rest) ← key? cs
  match rest with
  | '=' :: rest =>
    let (t, rest) ← value? (rest.length + 1) 0 (skipBlanks rest)
    let rest ← finishLine? rest
    some (key, t, rest)
  | _ => none

/-- The tables of a file, line by line, with the header in force. -/
def lines? : Nat → List String → Fields → List Char → Option Fields
  | 0, _, fs, _ => some fs
  | bound + 1, header, fs, cs =>
    match skipBlanks cs with
    | [] => some fs
    | '[' :: rest => do
      let (key, rest) ← header? rest
      let fs ← openTable? key fs
      lines? bound key fs rest
    | cs =>
      match finishLine? cs with
      | some rest => lines? bound header fs rest
      | none => do
        let (key, t, rest) ← pair? cs
        let fs ← writeBelow? t key header fs
        lines? bound header fs rest

/-- A byte order mark in front of a text is no part of it. -/
def skipMark : List Char → List Char
  | c :: rest => if c.toNat = 0xFEFF then rest else c :: rest
  | [] => []

/-- The settings in the text of a file. -/
def read? (text : String) : Option SettingTree.Layer :=
  let cs := skipMark text.toList
  (lines? (cs.length + 1) [] [] cs).map treesOf

end Quire.Toml
