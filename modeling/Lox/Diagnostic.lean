import Lox.Token.Basic

/-!
# Diagnostics

What is wrong with a source text: a reason, and the token it is found at.
-/

namespace Lox

/-- The reasons for which a source text is rejected. -/
inductive Reason where
  /-- The token is stray. -/
  | stray
  /-- The token stands where an operand should begin. -/
  | expectExpression
  /-- The token stands where a group should be closed. -/
  | expectRightParen
  /-- The token is an equals sign after an expression. -/
  | invalidTarget
  /-- The token stands where an expression statement should end. -/
  | expectEndOfExpression
  /-- The token stands where a `print` statement should end. -/
  | expectEndOfValue
  /-- The token is a literal for which there is no room among the constants. -/
  | tooManyConstants
  /-- The token is the last of an operand too long to be jumped over. -/
  | jumpTooFar
  deriving DecidableEq, Repr

/-- A reason, and the token it is found at. -/
structure Diagnostic where
  reason : Reason
  token : Token
  deriving DecidableEq, Repr

namespace Diagnostic

/-- The wording of the reason. -/
def wording (d : Diagnostic) : String :=
  match d.reason with
  | .stray => d.token.strayReason
  | .expectExpression => "expect expression"
  | .expectRightParen => "expect ')' after expression"
  | .invalidTarget => "invalid assignment target"
  | .expectEndOfExpression => "expect ';' after expression"
  | .expectEndOfValue => "expect ';' after value"
  | .tooManyConstants => "too many constants in one chunk"
  | .jumpTooFar => "too much code to jump over"

/-- How a diagnostic names its token. -/
def subject (d : Diagnostic) : String :=
  match d.token.kind with
  | .eof => "EOF"
  | .identifier => "identifier `" ++ String.ofList d.token.lexeme ++ "`"
  | _ => "`" ++ String.ofList d.token.lexeme ++ "`"

/-- The line of a diagnostic. -/
def line (d : Diagnostic) : Nat :=
  d.token.line

/-- The text of a diagnostic without its line. -/
def text (d : Diagnostic) : String :=
  "at " ++ d.subject ++ ", " ++ d.wording

end Diagnostic

end Lox
