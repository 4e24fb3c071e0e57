import Lox.Token.Basic

/-!
# From source text to tokens

`scan` reads a source text from left to right. At each point `step` looks at the character there
and at what follows, and says how far the stretch that begins here reaches and which kind of
token it is, if any: blanks and comments are stretches without a kind. The reader then passes
over the stretch and looks again. No character is lost, and a stretch is never empty. A `Scanner`
does the same one token at a time.

Lines are counted by line feeds alone. A token carries the line on which it begins, so a string
that spans lines is reported where it opens.
-/

namespace Lox.Token

/-- A decimal digit. -/
def isDigit (c : Char) : Bool :=
  '0' ≤ c && c ≤ '9'

/-- A letter of the Latin alphabet, or the underscore. -/
def isLetter (c : Char) : Bool :=
  ('a' ≤ c && c ≤ 'z') || ('A' ≤ c && c ≤ 'Z') || c == '_'

/-- A blank between tokens. -/
def isBlank (c : Char) : Bool :=
  c == ' ' || c == '\t' || c == '\r' || c == '\n'

/-- The stretch of source at some point: its kind, or none for what is skipped, and the number
of characters in it after the first. -/
structure Step where
  kind? : Option Kind
  extra : Nat
  deriving DecidableEq, Repr

namespace Step

/-- A stretch that is passed over. -/
def skip (extra : Nat) : Step :=
  ⟨none, extra⟩

/-- A stretch that is a token. -/
def token (kind : Kind) (extra : Nat) : Step :=
  ⟨some kind, extra⟩

end Step

/-- The number of digits after the first in a number: the rest of the integral part and, when
a digit follows the point, the point and the fraction. -/
def numberExtra (rest : List Char) : Nat :=
  let whole := (rest.takeWhile isDigit).length
  match rest.drop whole with
  | '.' :: d :: more =>
    if isDigit d then whole + 2 + (more.takeWhile isDigit).length else whole
  | _ => whole

/-- The stretch that a quote begins: up to the next quote, or all that is left. -/
def quoteStep (rest : List Char) : Step :=
  let body := (rest.takeWhile (· ≠ '"')).length
  if (rest.drop body).isEmpty then .token .stray body else .token .text (body + 1)

/-- The stretch of an operator that an equals sign may lengthen. -/
def orEqual (alone withEqual : Kind) (rest : List Char) : Step :=
  if rest.head? = some '=' then .token withEqual 1 else .token alone 0

/-- The stretch that begins with the character `c` and goes on in `rest`. -/
def step (c : Char) (rest : List Char) : Step :=
  if isBlank c then .skip 0
  else if isDigit c then .token .number (numberExtra rest)
  else if isLetter c then
    let more := rest.takeWhile fun d => isLetter d || isDigit d
    .token (wordKind (c :: more)) more.length
  else
    match c with
    | '/' =>
      if rest.head? = some '/' then .skip (rest.takeWhile (· ≠ '\n')).length
      else .token .slash 0
    | '(' => .token .leftParen 0
    | ')' => .token .rightParen 0
    | '{' => .token .leftBrace 0
    | '}' => .token .rightBrace 0
    | ';' => .token .semicolon 0
    | ',' => .token .comma 0
    | '.' => .token .dot 0
    | '-' => .token .minus 0
    | '+' => .token .plus 0
    | '*' => .token .star 0
    | '!' => orEqual .bang .bangEqual rest
    | '=' => orEqual .equal .equalEqual rest
    | '<' => orEqual .less .lessEqual rest
    | '>' => orEqual .greater .greaterEqual rest
    | '"' => quoteStep rest
    | _ => .token .stray 0

/-- What a scan finds: the tokens before the end, and the line on which the end lies. -/
structure Scanned where
  tokens : List Token
  endLine : Nat
  deriving DecidableEq, Repr

namespace Scanned

/-- The token that stands for the end of the source. -/
def finish (s : Scanned) : Token :=
  Token.atEnd s.endLine

end Scanned

/-- `scanFrom skip cs line seen` reads `cs` after passing over `skip` characters of a stretch
already taken; `line` is the line of the next stretch, and `seen` holds the tokens so far, last
first. -/
def scanFrom : Nat → List Char → Nat → List Token → Scanned
  | _, [], line, seen => ⟨seen.reverse, line⟩
  | skip + 1, _ :: cs, line, seen => scanFrom skip cs line seen
  | 0, c :: cs, line, seen =>
    let s := step c cs
    let stretch := c :: cs.take s.extra
    let next := line + stretch.count '\n'
    match s.kind? with
    | none => scanFrom s.extra cs next seen
    | some kind => scanFrom s.extra cs next (⟨kind, stretch, line⟩ :: seen)

/-- The tokens of a source text. -/
def scan (cs : List Char) : Scanned :=
  scanFrom 0 cs 1 []

/-- A scanner, which is asked for one token after another: what is left of the source, and the line
on which that begins. -/
structure Scanner where
  rest : List Char
  line : Nat := 1

namespace Scanner

/-- `nextFrom skip cs line` looks for the next token in `cs` after passing over `skip` characters of
a stretch already taken; `line` is the line of the next stretch. -/
def nextFrom : Nat → List Char → Nat → Token × Scanner
  | _, [], line => (Token.atEnd line, ⟨[], line⟩)
  | skip + 1, _ :: cs, line => nextFrom skip cs line
  | 0, c :: cs, line =>
    let s := step c cs
    let stretch := c :: cs.take s.extra
    let next := line + stretch.count '\n'
    match s.kind? with
    | none => nextFrom s.extra cs next
    | some kind => (⟨kind, stretch, line⟩, ⟨cs.drop s.extra, next⟩)

/-- The next token, and the scanner after it. At the end there is only the end, again and again. -/
def next (s : Scanner) : Token × Scanner :=
  nextFrom 0 s.rest s.line

end Scanner

end Lox.Token
