import Lox.Toml.Scalar

/-!
# Quoted texts of a settings file

There are four kinds of quoted text: in double quotes, where a backslash begins an escape, or in
single quotes, where nothing does; and each of them on one line in single marks or over several
lines in triple ones. All readers here begin after the opening mark and give the text and what
follows the closing mark.
-/

namespace Lox.Toml

/-- A text and what follows it. -/
abbrev Quoted := Option (List Char × List Char)

/-- A character that ends a line. A carriage return only stands before a line feed. -/
def isLineEnd (c : Char) : Bool :=
  c = '\n' || c = '\r'

/-- A blank within a line. -/
def isBlank (c : Char) : Bool :=
  c = ' ' || c = '\t'

/-- The character that an escape of one letter stands for. -/
def escape? (c : Char) : Option Char :=
  match c with
  | 'b' => some '\x08'
  | 't' => some '\t'
  | 'n' => some '\n'
  | 'f' => some '\x0c'
  | 'r' => some '\r'
  | 'e' => some '\x1b'
  | '"' => some '"'
  | '\\' => some '\\'
  | _ => none

/-- The character whose number some digits spell, if it has one. -/
def scalarOf? (ds : List Char) : Option Char := do
  let n := ofDigits 16 (← ds.mapM (digitValue? 16))
  if n.isValidChar then some (Char.ofNat n) else none

/-- The number of digits after the letter of a numeric escape. -/
def numericWidth? (c : Char) : Option Nat :=
  match c with
  | 'x' => some 2
  | 'u' => some 4
  | 'U' => some 8
  | _ => none

/-- The character that the escape after a backslash stands for, and how many characters the
escape has. -/
def escaped? : List Char → Option (Char × Nat)
  | [] => none
  | c :: cs =>
    match numericWidth? c with
    | some width =>
      let ds := cs.take width
      if ds.length = width then (scalarOf? ds).map (·, width + 1) else none
    | none => (escape? c).map (·, 1)

/-- What follows the closing mark of a text over several lines, given what follows its first
three quotes: some quotes more belong to the text, but at most `room` of them. -/
def closing (quote : Char) (room : Nat) (seen cs : List Char) : Quoted :=
  let more := cs.takeWhile (· = quote)
  if more.length ≤ room then some (seen.reverse ++ more, cs.drop more.length) else none

/-- How many quotes may stand before the closing mark of a text in triple double quotes: two, or
three right after a backslash. -/
def roomAfter (previous : Char) : Nat :=
  if previous = '\\' then 3 else 2

/-- Whether three quotes stand at the front. -/
def atTriple (quote : Char) : List Char → Bool
  | a :: b :: c :: _ => a = quote && b = quote && c = quote
  | _ => false

/-- Whether only blanks stand before the end of the line. -/
def endsLine (cs : List Char) : Bool :=
  match cs.dropWhile isBlank with
  | c :: _ => isLineEnd c
  | [] => false

/-- `basic skip cs seen` reads a text in double quotes after passing over `skip` characters of an
escape. -/
def basic : Nat → List Char → List Char → Quoted
  | _, [], _ => none
  | skip + 1, _ :: cs, seen => basic skip cs seen
  | 0, c :: cs, seen =>
    if c = '"' then some (seen.reverse, cs)
    else if isLineEnd c then none
    else if c = '\\' then
      match escaped? cs with
      | some (d, n) => basic n cs (d :: seen)
      | none => none
    else basic 0 cs (c :: seen)

/-- Reads a text in single quotes. -/
def literal (cs : List Char) : Quoted :=
  let body := cs.takeWhile fun c => c ≠ '\'' && !isLineEnd c
  match cs.drop body.length with
  | '\'' :: rest => some (body, rest)
  | _ => none

/-- `longBasic skip trim previous cs seen` reads a text in triple double quotes, after a character
`previous`. While `trim` holds, it passes over blanks and line ends, which a backslash at the end
of a line calls for. -/
def longBasic : Nat → Bool → Char → List Char → List Char → Quoted
  | _, _, _, [], _ => none
  | skip + 1, trim, _, c :: cs, seen => longBasic skip trim c cs seen
  | 0, trim, previous, c :: cs, seen =>
    if trim && (isBlank c || isLineEnd c) then longBasic 0 true c cs seen
    else if atTriple '"' (c :: cs) then closing '"' (roomAfter previous) seen (cs.drop 2)
    else if c = '\\' then
      if endsLine cs then longBasic 0 true c cs seen
      else
        match escaped? cs with
        | some (d, n) => longBasic n false c cs (d :: seen)
        | none => none
    else longBasic 0 false c cs (c :: seen)

/-- Reads a text in triple single quotes. -/
def longLiteral : List Char → List Char → Quoted
  | [], _ => none
  | c :: cs, seen =>
    if atTriple '\'' (c :: cs) then closing '\'' 2 seen (cs.drop 2)
    else longLiteral cs (c :: seen)

/-- What follows the opening mark of a text over several lines: a line end right after it is not
part of the text. -/
def firstLine : List Char → List Char
  | '\n' :: cs => cs
  | '\r' :: '\n' :: cs => cs
  | cs => cs

/-- Reads the quoted text at the front, if one is there. -/
def quoted (cs : List Char) : Quoted :=
  match cs with
  | '"' :: rest =>
    if atTriple '"' cs then longBasic 0 false '"' (firstLine (rest.drop 2)) [] else basic 0 rest []
  | '\'' :: rest =>
    if atTriple '\'' cs then longLiteral (firstLine (rest.drop 2)) [] else literal rest
  | _ => none

/-- Reads the quoted text at the front, which has to be on one line. -/
def quotedName (cs : List Char) : Quoted :=
  match cs with
  | '"' :: rest => basic 0 rest []
  | '\'' :: rest => literal rest
  | _ => none

end Lox.Toml
