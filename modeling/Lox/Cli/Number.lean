/-!
# Numbers on the command line

An integer argument may be written in base ten, or in another base after a mark: `0x`, `0o`, `0b`,
or a zero alone for base eight. Underscores may divide the digits. The digits are read from the
left, and reading stops at the first thing that is wrong.
-/

namespace Lox.Cli

/-- What can be wrong with an argument. -/
inductive Problem where
  | badSyntax
  | outOfRange
  deriving DecidableEq, Repr

/-- The wording of a problem. -/
def Problem.text : Problem → String
  | badSyntax => "invalid syntax"
  | outOfRange => "value out of range"

/-- An ASCII letter in lower case. -/
def lower (c : Char) : Char :=
  if 'A' ≤ c ∧ c ≤ 'Z' then Char.ofNat (c.toNat + 32) else c

/-- The value of a digit; letters go on after nine. -/
def digit? (c : Char) : Option Nat :=
  if '0' ≤ c ∧ c ≤ '9' then some (c.toNat - '0'.toNat)
  else if 'a' ≤ lower c ∧ lower c ≤ 'z' then some ((lower c).toNat - 'a'.toNat + 10)
  else none

/-- The base that a mark stands for, if two characters are one. -/
def markBase? (c d : Char) : Option Nat :=
  if c ≠ '0' then none
  else
    match lower d with
    | 'b' => some 2
    | 'o' => some 8
    | 'x' => some 16
    | _ => none

/-- The base of a number without its sign, and its digits. -/
def splitBase (cs : List Char) : Nat × List Char :=
  match cs with
  | c :: d :: e :: rest =>
    match markBase? c d with
    | some base => (base, e :: rest)
    | none => if c = '0' then (8, d :: e :: rest) else (10, cs)
  | '0' :: rest => (8, rest)
  | _ => (10, cs)

/-- The bound that a number must not reach while its digits are read. -/
def wordBound : Nat := Nat.pow 2 64

/-- Reads digits onto a number, passing over underscores. -/
def readDigits (base : Nat) : Nat → List Char → Except Problem Nat
  | n, [] => .ok n
  | n, c :: cs =>
    if c = '_' then readDigits base n cs
    else
      match digit? c with
      | none => .error .badSyntax
      | some d =>
        if base ≤ d then .error .badSyntax
        else if wordBound ≤ n * base + d then .error .outOfRange
        else readDigits base (n * base + d) cs

/-- Whether each underscore stands between two digits. The flag says whether a digit was just
seen. -/
def underscoresFit : Bool → List Char → Bool
  | _, [] => true
  | _, ['_'] => false
  | afterDigit, c :: cs =>
    if c = '_' then afterDigit && underscoresFit false cs else underscoresFit true cs

/-- Whether the underscores of a number without its sign are in place. The mark of a base counts
as a digit. -/
def underscoresOk (cs : List Char) : Bool :=
  match cs with
  | c :: d :: rest =>
    match markBase? c d with
    | some _ => underscoresFit true rest
    | none => underscoresFit false cs
  | _ => underscoresFit false cs

/-- The magnitude of a number without its sign. -/
def magnitude (cs : List Char) : Except Problem Nat :=
  if cs.isEmpty then .error .badSyntax
  else
    let (base, ds) := splitBase cs
    match readDigits base 0 ds with
    | .error e => .error e
    | .ok n => if underscoresOk cs then .ok n else .error .badSyntax

/-- The integer that an argument is; it must be a signed word. -/
def integer (s : String) : Except Problem Int :=
  let (negative, cs) :=
    match s.toList with
    | '-' :: cs => (true, cs)
    | '+' :: cs => (false, cs)
    | cs => (false, cs)
  match magnitude cs with
  | .error e => .error e
  | .ok n =>
    if negative then if Nat.pow 2 63 < n then .error .outOfRange else .ok (-(n : Int))
    else if Nat.pow 2 63 ≤ n then .error .outOfRange
    else .ok n

/-- The words for truth values. -/
def truthWords : List (String × Bool) :=
  [("1", true), ("t", true), ("T", true), ("TRUE", true), ("true", true), ("True", true),
   ("0", false), ("f", false), ("F", false), ("FALSE", false), ("false", false), ("False", false)]

/-- The truth value that an argument is. -/
def truth (s : String) : Except Problem Bool :=
  match truthWords.lookup s with
  | some b => .ok b
  | none => .error .badSyntax

end Lox.Cli
