import MakeTree.Grammar.Statement

/-!
From text to tree. A text is first read through for illegal characters and open frames, and is
parsed only if nothing there speaks against it.
-/

namespace MakeTree

structure Options where
  recipePrefix : Char := '\t'
  /-- refuse illegal characters, which are skipped otherwise -/
  strict : Bool := false
deriving DecidableEq, Repr

structure Outcome where
  events : List Event
  result : Except Error Tree

/-- The tree of a text that has been read through. -/
def Lexer.parse (lx : Lexer) : Outcome :=
  let (nests, trailing) := lx.nests
  match Parser.statements (Line.split nests) ⟨[], [], []⟩ with
  | .ok _ s => ⟨s.events, .ok (.node .root (s.built ++ trailing.map Trivia.tree))⟩
  | .error e s => ⟨s.events ++ [.failed e], .error (.parse e)⟩

def parse (text : Text) (options : Options) : Outcome :=
  let lx := Lexer.start text options.recipePrefix
  match lx.survey options.strict with
  | (events, some e) => ⟨events, .error (.lex e)⟩
  | (events, none) =>
    let outcome := lx.parse
    ⟨events ++ outcome.events, outcome.result⟩

/-- Parse text that comes as bytes. -/
def parseBytes (bytes : ByteArray) (options : Options) : Except Error Tree :=
  match String.fromUTF8? bytes with
  | none => .error .notUtf8
  | some s => (parse s.toList options).result

end MakeTree
