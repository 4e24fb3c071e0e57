/-!
# Tokens

A token is a kind, the stretch of source it was read from, and the line on which that stretch
begins. Two kinds stand for no construct of the language: `stray`, for a stretch that begins no
token, and `eof`, for the end of the source.

The kinds are numbered in the order of `Kind.all`, and a number outside it still has a name.
-/

namespace Lox

namespace Token

/-- The kinds of token. -/
inductive Kind where
  | leftParen | rightParen | leftBrace | rightBrace
  | comma | dot | minus | plus | semicolon | slash | star
  | bang | bangEqual | equal | equalEqual | greater | greaterEqual | less | lessEqual
  | identifier | text | number
  | kwAnd | kwBreak | kwClass | kwContinue | kwElse | kwFalse | kwFor | kwFun | kwIf | kwNil
  | kwOr | kwPrint | kwReturn | kwSuper | kwThis | kwTrue | kwVar | kwWhile
  | stray | eof
  deriving DecidableEq, Repr

namespace Kind

/-- All kinds, in the order of their numbers. -/
def all : List Kind :=
  [leftParen, rightParen, leftBrace, rightBrace, comma, dot, minus, plus, semicolon, slash, star,
   bang, bangEqual, equal, equalEqual, greater, greaterEqual, less, lessEqual, identifier, text,
   number, kwAnd, kwBreak, kwClass, kwContinue, kwElse, kwFalse, kwFor, kwFun, kwIf, kwNil, kwOr,
   kwPrint, kwReturn, kwSuper, kwThis, kwTrue, kwVar, kwWhile, stray, eof]

/-- The name of a kind. -/
def name : Kind → String
  | leftParen => "TLParen"
  | rightParen => "TRParen"
  | leftBrace => "TLBrace"
  | rightBrace => "TRBrace"
  | comma => "TComma"
  | dot => "TDot"
  | minus => "TMinus"
  | plus => "TPlus"
  | semicolon => "TSemi"
  | slash => "TSlash"
  | star => "TStar"
  | bang => "TBang"
  | bangEqual => "TBangEqual"
  | equal => "TEqual"
  | equalEqual => "TEqualEqual"
  | greater => "TGreater"
  | greaterEqual => "TGreaterEqual"
  | less => "TLess"
  | lessEqual => "TLessEqual"
  | identifier => "TIdent"
  | text => "TStr"
  | number => "TNum"
  | kwAnd => "TAnd"
  | kwBreak => "TBreak"
  | kwClass => "TClass"
  | kwContinue => "TContinue"
  | kwElse => "TElse"
  | kwFalse => "TFalse"
  | kwFor => "TFor"
  | kwFun => "TFun"
  | kwIf => "TIf"
  | kwNil => "TNil"
  | kwOr => "TOr"
  | kwPrint => "TPrint"
  | kwReturn => "TReturn"
  | kwSuper => "TSuper"
  | kwThis => "TThis"
  | kwTrue => "TTrue"
  | kwVar => "TVar"
  | kwWhile => "TWhile"
  | stray => "TErr"
  | eof => "TEOF"

/-- The name of the kind with a given number. -/
def nameAt (n : Int) : String :=
  match if n < 0 then none else all[n.toNat]? with
  | some k => k.name
  | none => s!"TokenType({n})"

end Kind

/-- The words that are keywords, with their kinds. -/
def keywords : List (String × Kind) :=
  [("and", .kwAnd), ("break", .kwBreak), ("class", .kwClass), ("continue", .kwContinue),
   ("else", .kwElse), ("false", .kwFalse), ("for", .kwFor), ("fun", .kwFun), ("if", .kwIf),
   ("nil", .kwNil), ("or", .kwOr), ("print", .kwPrint), ("return", .kwReturn),
   ("super", .kwSuper), ("this", .kwThis), ("true", .kwTrue), ("var", .kwVar),
   ("while", .kwWhile)]

/-- The kind of a word: a keyword if it is one, else an identifier. -/
def wordKind (word : List Char) : Kind :=
  match keywords.find? fun entry => entry.1.toList = word with
  | some (_, kind) => kind
  | none => .identifier

end Token

/-- A token: its kind, the stretch of source it was read from, and the line where that begins. -/
structure Token where
  kind : Token.Kind
  lexeme : List Char
  line : Nat
  deriving DecidableEq, Repr

namespace Token

/-- The end of the source, met on a given line. -/
def atEnd (line : Nat) : Token :=
  ⟨.eof, [], line⟩

/-- What is wrong with a stray stretch: a quote begins a string that is never closed, and any
other character begins no token at all. -/
def strayReason (t : Token) : String :=
  if t.lexeme.head? = some '"' then "unterminated string" else "unexpected character"

/-- The text of a token: for a stray stretch what is wrong with it, else its lexeme. -/
def text (t : Token) : String :=
  if t.kind = .stray then t.strayReason else String.ofList t.lexeme

end Token

end Lox
