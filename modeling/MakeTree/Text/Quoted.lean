import MakeTree.Text.Basic
import MakeTree.Text.Printable

/-!
Text quoted in messages: between quotes, on one line, every character that would not show
written as an escape.
-/

namespace MakeTree.Quoted

/-- Hexadecimal digits in lower case, without leading zeros. -/
def hex (n : Nat) : Text := Nat.toDigits 16 n

/-- The character by its code point, as in `\u{301}`. -/
def codePoint (c : Char) : Text := ['\\', 'u', '\x7b'] ++ hex c.toNat ++ ['\x7d']

/-- One character between two `quote`s. -/
def escape (quote c : Char) : Text :=
  if c = '\t' then ['\\', 't']
  else if c = '\n' then ['\\', 'n']
  else if c = '\r' then ['\\', 'r']
  else if c = '\x00' then ['\\', '0']
  else if c = '\\' ∨ c = quote then ['\\', c]
  else if isPrintable c then [c]
  else codePoint c

/-- A text in double quotes. -/
def text (t : Text) : String := String.ofList (['"'] ++ t.flatMap (escape '"') ++ ['"'])

/-- A character in single quotes. -/
def char (c : Char) : String := String.ofList (['\''] ++ escape '\'' c ++ ['\''])

end MakeTree.Quoted
