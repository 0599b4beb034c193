/-!
Source text as a list of characters: how line breaks, line continuations and blanks look at the
head of a text, and how long a text is in UTF-8. A line break is LF, CR, or CR LF as one.
-/

namespace MakeTree

/-- Source text, character by character. -/
abbrev Text := List Char

namespace Text

/-- The length in UTF-8. -/
def byteSize : Text → Nat
  | [] => 0
  | c :: t => c.utf8Size + byteSize t

@[simp] theorem byteSize_append (a b : Text) : byteSize (a ++ b) = byteSize a + byteSize b := by
  induction a with
  | nil => simp [byteSize]
  | cons c a ih => simp [byteSize, ih, Nat.add_assoc]

/-- The characters that start in the first `n` bytes. -/
def takeBytes : Nat → Text → Text
  | 0, _ => []
  | _ + 1, [] => []
  | n + 1, c :: t => c :: takeBytes (n + 1 - c.utf8Size) t

/-- For a text that begins with a line break, how many characters of it follow the first. -/
def lineBreak? : Text → Option Nat
  | '\r' :: '\n' :: _ => some 1
  | '\r' :: _ => some 0
  | '\n' :: _ => some 0
  | _ => none

/-- For a text that begins with a backslash and a line break, how many characters of the two
follow the backslash. -/
def continuation? : Text → Option Nat
  | '\\' :: t => (lineBreak? t).map (· + 1)
  | _ => none

/-- Text up to the next line break, which is left out. -/
def line (t : Text) : Text := t.takeWhile fun c => c != '\n' && c != '\r'

end Text

/-- A blank separates words and does not end a line. -/
def isBlank (c : Char) : Bool := c == ' ' || c == '\t' || c == '\x0b' || c == '\x0c'

/-- Control characters: U+0000 to U+001F and U+007F to U+009F. -/
def isControl (c : Char) : Bool := c.toNat < 0x20 || (0x7f ≤ c.toNat && c.toNat < 0xa0)

/-- Control characters that no makefile may hold: all but blanks and line breaks. -/
def isIllegal (c : Char) : Bool := isControl c && !isBlank c && c != '\n' && c != '\r'

end MakeTree
