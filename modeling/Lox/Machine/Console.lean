import Lox.Text.Utf8

/-!
# Where output goes

`print` writes to a sink, which may be anything that takes bytes and may refuse to. One `print`
is one write. The console is the sink that keeps what it has taken, newest first, and may be set
to refuse any write after a given number of them.
-/

namespace Lox

/-- A place to write to. -/
class Sink (κ : Type) where
  /-- Writes some bytes at once. It gives the sink afterwards and, if the write failed, why. -/
  write : κ → Bytes → κ × Option String

/-- A place to print to. -/
structure Console where
  /-- How many more writes are accepted, if there is a bound. -/
  room : Option Nat := none
  /-- What was written, newest first. -/
  written : List Bytes := []
  deriving DecidableEq, Repr

namespace Console

/-- The wording of a refused write. -/
def refusal : String := "output closed"

/-- Writes some bytes at once, unless the console refuses. -/
def write? (c : Console) (bytes : Bytes) : Option Console :=
  match c.room with
  | none => some { c with written := bytes :: c.written }
  | some 0 => none
  | some (n + 1) => some { room := some n, written := bytes :: c.written }

/-- Everything that was written, in order. -/
def output (c : Console) : Bytes :=
  c.written.reverse.flatten

/-- The console with its past output taken away. -/
def cleared (c : Console) : Console :=
  { c with written := [] }

instance : Sink Console where
  write c bytes :=
    match c.write? bytes with
    | some c => (c, none)
    | none => (c, some refusal)

end Console

end Lox
