import Lox.Text.Printable
import Lox.Text.Utf8

/-!
# Quoted text

The readable form of a byte string: double quotes around it, printable characters as they are,
and an escape for everything else. A quote and a backslash are escaped by a backslash, the seven
control characters with a letter of their own by that letter, the other ASCII controls and every
stray byte by two hexadecimal digits after `\x`, and any other character by four digits after
`\u` or, beyond U+FFFF, eight after `\U`. So the form is a text even when the bytes are not.
-/

namespace Lox.Text

/-- The hexadecimal digits of `n`, in lower case, filled with zeros to at least `width`. -/
def hex (width n : Nat) : List Char :=
  let digits := Nat.toDigits 16 n
  List.replicate (width - digits.length) '0' ++ digits

/-- The letter that names a control character in an escape. -/
def controlLetter? (c : Char) : Option Char :=
  match c.toNat with
  | 0x07 => some 'a'
  | 0x08 => some 'b'
  | 0x09 => some 't'
  | 0x0A => some 'n'
  | 0x0B => some 'v'
  | 0x0C => some 'f'
  | 0x0D => some 'r'
  | _ => none

/-- How text between two quote marks spells a character. -/
def quoteCharWith (mark c : Char) : List Char :=
  if c = mark ∨ c = '\\' then ['\\', c]
  else if isPrintable c then [c]
  else
    match controlLetter? c with
    | some letter => ['\\', letter]
    | none =>
      if c.toNat < 0x80 then '\\' :: 'x' :: hex 2 c.toNat
      else if c.toNat < 0x10000 then '\\' :: 'u' :: hex 4 c.toNat
      else '\\' :: 'U' :: hex 8 c.toNat

/-- How text in double quotes spells a character. -/
def quoteChar (c : Char) : List Char :=
  quoteCharWith '"' c

/-- A character in single quotes. -/
def quotedChar (c : Char) : String :=
  String.ofList ('\'' :: quoteCharWith '\'' c ++ ['\''])

/-- How quoted text spells a piece of a byte string. -/
def quotePiece : Utf8.Piece → List Char
  | .char c => quoteChar c
  | .stray b => '\\' :: 'x' :: hex 2 b.toNat

/-- A byte string in double quotes. -/
def quoted (bs : Bytes) : String :=
  String.ofList ('"' :: (Utf8.pieces bs).flatMap quotePiece ++ ['"'])

end Lox.Text
