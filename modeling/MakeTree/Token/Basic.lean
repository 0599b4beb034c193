import MakeTree.Text.Position
import MakeTree.Text.Quoted
import MakeTree.Token.Kind

/-!
Tokens, the nesting frames that are open between them, and what can be wrong with a text before
it is parsed.
-/

namespace MakeTree

structure Token where
  kind : TokenKind
  text : Text
  position : Position
deriving DecidableEq, Repr

namespace Token

def stop (t : Token) : Nat := t.position.offset + t.text.byteSize

/-- Whether the token is plain text reading `s`. -/
def isText (t : Token) (s : Text) : Bool := t.kind == .plainText && t.text == s

end Token

/-- What an open frame waits for: the end of an expansion, or of a parenthesis inside one. -/
inductive FrameKind where
  | expansion
  | literalParen
deriving DecidableEq, Repr

namespace FrameKind

def display : FrameKind → String
  | expansion => "expansion"
  | literalParen => "parenthesis"

def name : FrameKind → String
  | expansion => "Expansion"
  | literalParen => "LiteralParen"

end FrameKind

/-- A frame that is still open, with the position of the token that opened it. -/
structure Frame where
  kind : FrameKind
  position : Position
deriving DecidableEq, Repr

inductive LexError where
  | illegalCharacter (position : Position) (character : Char)
  | unterminated (frame : Frame)
deriving DecidableEq, Repr

namespace LexError

def position : LexError → Position
  | illegalCharacter p _ => p
  | unterminated f => f.position

def message : LexError → String
  | illegalCharacter p c => p.display ++ ": illegal character " ++ Quoted.char c
  | unterminated f => f.position.display ++ ": unterminated " ++ f.kind.display

/-- Whether no token can follow the error. -/
def isFatal : LexError → Bool
  | illegalCharacter .. => false
  | unterminated _ => true

end LexError

end MakeTree
