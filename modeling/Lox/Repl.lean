import Lox.Interpret

/-!
# The read-eval-print loop

Each line of input is a program of its own. Blank lines are passed over. The value of a line is
printed in its readable form; a failure is logged, and the loop goes on.
-/

namespace Lox.Repl

/-- A character that leaves a line blank. -/
def isSpace (c : Char) : Bool :=
  let n := c.toNat
  (0x09 ≤ n && n ≤ 0x0D) || n = 0x20 || n = 0x85 || n = 0xA0 || n = 0x1680 ||
    (0x2000 ≤ n && n ≤ 0x200A) || n = 0x2028 || n = 0x2029 || n = 0x202F || n = 0x205F || n = 0x3000

/-- Whether a line is blank. -/
def isBlank (line : Bytes) : Bool :=
  (Utf8.decode line).all isSpace

/-- A line whose bytes are given last first. A carriage return before the end of the line does not
belong to it. -/
def ended : Bytes → Bytes
  | 0x0D :: bs => bs.reverse
  | bs => bs.reverse

/-- The lines of some input, where `line` is the line so far and `lines` are those before it, both
newest first. What follows the last line feed is a line too. -/
def linesFrom : Bytes → List Bytes → Bytes → List Bytes
  | [], lines, line => (ended line :: lines).reverse
  | b :: bs, lines, line =>
    if b = Utf8.lineFeed then linesFrom bs (ended line :: lines) []
    else linesFrom bs lines (b :: line)

/-- The lines of some input. -/
def lines (input : Bytes) : List Bytes :=
  linesFrom input [] []

/-- The engine that answers, and what has been logged so far, in order. -/
structure State where
  engine : Engine Console
  log : List Log.Entry := []

/-- The state in which the loop begins. -/
def start (o : Machine.Options) : State where
  engine := .new o {}

/-- Takes in a line. -/
def step (s : State) (line : Bytes) : State :=
  if isBlank line then s
  else
    let (r, e) := s.engine.call (.interpret line)
    match r.result with
    | .error f => ⟨e, s.log ++ r.log ++ [⟨.error, f.text⟩]⟩
    | .ok v =>
      let shown := Utf8.ofString (v.readable ++ "\n")
      ⟨{ e with console := (r.console.write? shown).getD r.console }, s.log ++ r.log⟩

/-- Takes in lines, one after another. -/
def runLines (o : Machine.Options) (lines : List Bytes) : State :=
  lines.foldl step (start o)

/-- Takes in the lines of some input. -/
def run (o : Machine.Options) (input : Bytes) : State :=
  runLines o (lines input)

end Lox.Repl
