import MakeTree.Token.Basic

/-!
Why a text is refused, and how it is said.
-/

namespace MakeTree

/-- What would have been accepted at the place of an error. -/
inductive Expected where
  | token (kind : TokenKind)
  | statement
  | variableName
  | fileName
  | macroName
  | target
  | openParen
  | closeParen
  | conditional
  | expression
  | text
deriving DecidableEq, Repr

namespace Expected

def display : Expected → String
  | token kind => kind.display
  | statement => "statement"
  | variableName => "variable name"
  | fileName => "file name"
  | macroName => "macro name"
  | target => "target"
  | openParen => "'('"
  | closeParen => "')'"
  | conditional => "conditional"
  | expression => "expression"
  | text => "text"

/-- One alternative by itself, several as a list. -/
def describe : List Expected → String
  | [] => "nothing"
  | [e] => e.display
  | es => "one of " ++ ", ".intercalate (es.map display)

end Expected

inductive ParseError where
  | unexpectedToken (found : Token) (expected : List Expected)
  | unexpectedEnd (expected : List Expected)
deriving DecidableEq, Repr

namespace ParseError

def expected : ParseError → List Expected
  | unexpectedToken _ es => es
  | unexpectedEnd es => es

def position? : ParseError → Option Position
  | unexpectedToken t _ => some t.position
  | unexpectedEnd _ => none

def message : ParseError → String
  | unexpectedToken t es =>
    t.position.display ++ ": unexpected " ++ t.kind.display ++ " " ++ Quoted.text t.text ++
      ", expected " ++ Expected.describe es
  | unexpectedEnd es => "unexpected end of input, expected " ++ Expected.describe es

end ParseError

inductive Error where
  | notUtf8
  | lex (e : LexError)
  | parse (e : ParseError)
deriving DecidableEq, Repr

namespace Error

/-- What went wrong, without the stage at which it did. -/
def cause : Error → String
  | notUtf8 => "stream did not contain valid UTF-8"
  | lex e => e.message
  | parse e => e.message

def message : Error → String
  | notUtf8 => "IO error: " ++ cause notUtf8
  | lex e => "Lex error: " ++ e.message
  | parse e => "Parse error: " ++ e.message

end Error

end MakeTree
