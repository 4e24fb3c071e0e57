/-!
# Columns

Filling a text with blanks or zeros up to a width, for listings.
-/

namespace Lox.Text

/-- `s` with `fill` put before it up to `width` characters. -/
def padLeft (width : Nat) (fill : Char) (s : String) : String :=
  String.ofList (List.replicate (width - s.length) fill) ++ s

/-- `s` with blanks put after it up to `width` characters. -/
def padRight (width : Nat) (s : String) : String :=
  s ++ String.ofList (List.replicate (width - s.length) ' ')

/-- The texts one after another. -/
def join (parts : List String) : String :=
  String.ofList (parts.flatMap String.toList)

end Lox.Text
