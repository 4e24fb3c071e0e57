/-!
# The log

Log entries have a level and a message. The verbosity of a log is a level too: an entry is shown
when its level is no finer than that. Level names are read without regard to the case of their
letters.
-/

namespace Lox.Log

/-- The levels, from the gravest to the finest. -/
inductive Level where
  | panic | fatal | error | warning | info | debug | trace
  deriving DecidableEq, Repr

namespace Level

/-- The place of a level, growing finer. -/
def rank : Level → Nat
  | panic => 0
  | fatal => 1
  | error => 2
  | warning => 3
  | info => 4
  | debug => 5
  | trace => 6

/-- How an entry shows its level. -/
def label : Level → String
  | panic => "PANIC"
  | fatal => "FATAL"
  | error => "ERROR"
  | warning => "WARNING"
  | info => "INFO"
  | debug => "DEBUG"
  | trace => "TRACE"

/-- The names by which levels are asked for. -/
def names : List (String × Level) :=
  [("panic", panic), ("fatal", fatal), ("error", error), ("warn", warning), ("warning", warning),
   ("info", info), ("debug", debug), ("trace", trace)]

/-- The lower-case letter of a character, for the characters whose lower case is an ASCII letter;
any other character is left alone, since no level name could match it. Besides the ASCII capitals
these are the dotted capital I and the Kelvin sign. -/
def lower (c : Char) : Char :=
  if c = 'İ' then 'i'
  else if c = 'K' then 'k'
  else if 'A' ≤ c ∧ c ≤ 'Z' then Char.ofNat (c.toNat + 32)
  else c

/-- The level with a name, whatever the case of its letters. -/
def ofName? (name : String) : Option Level :=
  (names.find? fun entry => entry.1.toList = name.toList.map lower).map Prod.snd

/-- Whether a log of this verbosity shows entries of a level. -/
def shows (verbosity level : Level) : Bool :=
  level.rank ≤ verbosity.rank

end Level

/-- A log entry. -/
structure Entry where
  level : Level
  message : String
  deriving DecidableEq, Repr

/-- An entry as it is written. -/
def Entry.text (e : Entry) : String :=
  e.level.label ++ " " ++ e.message ++ "\n"

/-- The entries that a log of some verbosity shows. -/
def shown (verbosity : Level) (entries : List Entry) : List Entry :=
  entries.filter fun e => verbosity.shows e.level

end Lox.Log
