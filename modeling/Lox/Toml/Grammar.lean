import Lox.Text.Utf8
import Lox.Toml.Quoted

/-!
# The grammar of a settings file

A file is a sequence of lines: a header that opens a table, or a key and a value. This module
reads the lines; what they define together is the matter of the document. Values nest, so the
readers of values carry a bound on the nesting, which `statements?` takes from the length of the
file.
-/

namespace Lox.Toml

/-- The parts of a key. -/
abbrev Key := List String

/-- A value as it is written. -/
inductive Raw where
  | scalar (s : Scalar)
  | array (items : List Raw)
  /-- A table within a line. -/
  | table (entries : List (Key × Raw))

/-- A line of a file. -/
inductive Statement where
  /-- Opens a table, or one more table of a list of them. -/
  | header (list : Bool) (key : Key)
  | assign (key : Key) (value : Raw)

/-- A character that may stand in a file: no control characters but tabs and line ends, a
carriage return only before a line feed. -/
def areAdmissible : List Char → Bool
  | [] => true
  | '\r' :: cs =>
    match cs with
    | '\n' :: _ => areAdmissible cs
    | _ => false
  | c :: cs => (c = '\t' || c = '\n' || (' ' ≤ c && c ≠ '\x7f')) && areAdmissible cs

/-- The bytes of a file without the mark of their order. -/
def withoutMark : Bytes → Bytes
  | 0xEF :: 0xBB :: 0xBF :: bs => bs
  | 0xFF :: 0xFE :: bs => bs
  | 0xFE :: 0xFF :: bs => bs
  | bs => bs

/-- The characters of a file, if all of them may stand in one. -/
def characters? (file : Bytes) : Option (List Char) :=
  let bs := withoutMark file
  if Utf8.isValid bs then (some (Utf8.decode bs)).filter areAdmissible else none

/-- A character of a key without quotes. -/
def isBare (c : Char) : Bool :=
  ('a' ≤ c && c ≤ 'z') || ('A' ≤ c && c ≤ 'Z') || isDigit c || c = '_' || c = '-'

/-- A character of a value without quotes. -/
def isWord (c : Char) : Bool :=
  isBare c || c = '+' || c = '.' || c = ':'

/-- What follows the blanks at the front. -/
def skipBlanks (cs : List Char) : List Char :=
  cs.dropWhile isBlank

/-- What follows blanks, line ends and comments. The flag says whether the front is within a
comment. -/
def skipLines : Bool → List Char → List Char
  | _, [] => []
  | true, c :: cs => skipLines (c ≠ '\n') cs
  | false, c :: cs =>
    if isBlank c || isLineEnd c then skipLines false cs
    else if c = '#' then skipLines true cs
    else c :: cs

/-- Whether nothing but a comment is left on the line. -/
def atLineEnd (cs : List Char) : Bool :=
  match skipBlanks cs with
  | [] => true
  | c :: _ => isLineEnd c || c = '#'

/-- A part of a key. -/
def part? (cs : List Char) : Option (String × List Char) :=
  match cs with
  | '"' :: _ | '\'' :: _ => (quotedName cs).map fun (s, rest) => (String.ofList s, rest)
  | _ =>
    let bare := cs.takeWhile isBare
    if bare.isEmpty then none else some (String.ofList bare, cs.drop bare.length)

/-- A key, in parts divided by points. -/
def key? : Nat → List Char → Option (Key × List Char)
  | 0, _ => none
  | n + 1, cs => do
    let (p, rest) ← part? (skipBlanks cs)
    match skipBlanks rest with
    | '.' :: more =>
      let (ps, rest) ← key? n more
      return (p :: ps, rest)
    | rest => return ([p], rest)

/-- A scalar. A date and a time may be divided by a blank. -/
def scalar? (cs : List Char) : Option (Scalar × List Char) :=
  match cs with
  | '"' :: _ | '\'' :: _ => (quoted cs).map fun (s, rest) => (.text (String.ofList s), rest)
  | _ =>
    let front := cs.takeWhile isWord
    let rest := cs.drop front.length
    match rest with
    | ' ' :: d :: _ =>
      if isDate front && isDigit d then
        let time := (rest.drop 1).takeWhile isWord
        (word? (front ++ ' ' :: time)).map (·, rest.drop (time.length + 1))
      else (word? front).map (·, rest)
    | _ => (word? front).map (·, rest)

mutual

/-- A value. -/
def value? : Nat → List Char → Option (Raw × List Char)
  | 0, _ => none
  | n + 1, cs =>
    match skipBlanks cs with
    | '[' :: rest => items? n rest []
    | '{' :: rest => entries? n rest []
    | cs => (scalar? cs).map fun (s, rest) => (.scalar s, rest)

/-- The items of an array, up to its end. -/
def items? : Nat → List Char → List Raw → Option (Raw × List Char)
  | 0, _, _ => none
  | n + 1, cs, seen =>
    match skipLines false cs with
    | ']' :: rest => some (.array seen.reverse, rest)
    | cs =>
      match value? n cs with
      | none => none
      | some (v, rest) =>
        match skipLines false rest with
        | ',' :: rest => items? n rest (v :: seen)
        | ']' :: rest => some (.array (v :: seen).reverse, rest)
        | _ => none

/-- The entries of a table within a line, up to its end. -/
def entries? : Nat → List Char → List (Key × Raw) → Option (Raw × List Char)
  | 0, _, _ => none
  | n + 1, cs, seen =>
    match skipLines false cs with
    | '}' :: rest => some (.table seen.reverse, rest)
    | cs =>
      match keyValue? n cs with
      | none => none
      | some (e, rest) =>
        match skipLines false rest with
        | ',' :: rest => entries? n rest (e :: seen)
        | '}' :: rest => some (.table (e :: seen).reverse, rest)
        | _ => none

/-- A key and its value. -/
def keyValue? : Nat → List Char → Option ((Key × Raw) × List Char)
  | 0, _ => none
  | n + 1, cs =>
    match key? (n + 1) cs with
    | some (k, '=' :: rest) => (value? n rest).map fun (v, rest) => ((k, v), rest)
    | _ => none

end

/-- A header, after its opening bracket. -/
def header? (n : Nat) (cs : List Char) : Option (Statement × List Char) :=
  match cs with
  | '[' :: cs =>
    match key? n cs with
    | some (k, ']' :: ']' :: rest) => some (.header true k, rest)
    | _ => none
  | cs =>
    match key? n cs with
    | some (k, ']' :: rest) => some (.header false k, rest)
    | _ => none

/-- One line of a file. -/
def statement? (n : Nat) (cs : List Char) : Option (Statement × List Char) :=
  match cs with
  | '[' :: cs => header? n cs
  | cs => (keyValue? n cs).map fun ((k, v), rest) => (.assign k v, rest)

/-- The lines of a file, of which there are at most as many as the bound says. -/
def statementsFrom? (depth : Nat) :
    Nat → List Char → List Statement → Option (List Statement)
  | 0, _, _ => none
  | n + 1, cs, seen =>
    match skipLines false cs with
    | [] => some seen.reverse
    | cs =>
      match statement? depth cs with
      | none => none
      | some (s, rest) =>
        if atLineEnd rest then statementsFrom? depth n rest (s :: seen) else none

/-- The lines of a file, if it keeps to the grammar. -/
def statements? (file : Bytes) : Option (List Statement) := do
  let cs ← characters? file
  statementsFrom? (3 * cs.length + 3) (cs.length + 1) cs []

end Lox.Toml
