import MakeTree.Error

/-!
The log: what is recorded while a text is read, in order.
-/

namespace MakeTree

inductive Level where
  | trace
  | debug
  | warn
deriving DecidableEq, Repr

def Level.name : Level → String
  | trace => "TRACE"
  | debug => "DEBUG"
  | warn => "WARN"

inductive Event where
  | opened (position : Position) (frame : FrameKind)
  | closed (position : Position) (frame : FrameKind)
  | skipped (e : LexError)
  | statement (first : TokenKind)
  | failed (e : ParseError)
deriving DecidableEq, Repr

namespace Event

def level : Event → Level
  | opened .. | closed .. => .trace
  | skipped _ => .warn
  | statement _ | failed _ => .debug

def message : Event → String
  | opened p frame => p.display ++ ": open " ++ frame.display
  | closed p frame => p.display ++ ": close " ++ frame.display
  | skipped e => "skipping " ++ e.message
  | statement first => "statement starting with " ++ first.display
  | failed e => "parse failed: " ++ e.message

end Event

end MakeTree
