import MakeTree.Nest.Layout

/-!
Parsers of makefile grammar. A parser takes nests off the current line, puts trees behind those
already built, and records what it does; when it fails, what was recorded stays.
-/

namespace MakeTree

structure Cursor where
  /-- what is left of the current line; nothing is left only at the end of the text -/
  unread : List Nest
  /-- the trees of the node being built -/
  built : List Tree
  events : List Event

abbrev Parser := EStateM ParseError Cursor

namespace Parser

def unread : Parser (List Nest) := return (← get).unread

/-- Go on with another line. -/
def load (line : List Nest) : Parser Unit := modify fun s => { s with unread := line }

def build (ts : List Tree) : Parser Unit := modify fun s => { s with built := s.built ++ ts }

def record (es : List Event) : Parser Unit := modify fun s => { s with events := s.events ++ es }

/-- Run `p` and make one node of what it builds. -/
def within {α : Type} (kind : NodeKind) (p : Parser α) : Parser α := do
  let outer := (← get).built
  modify fun s => { s with built := [] }
  let a ← p
  modify fun s => { s with built := outer ++ [.node kind s.built] }
  return a

/-- Refuse the first of `ns`. -/
def failAt {α : Type} (ns : List Nest) (expected : List Expected) : Parser α :=
  throw <| match ns with
  | [] => .unexpectedEnd expected
  | n :: _ => .unexpectedToken n.token expected

/-- Refuse what comes next. -/
def fail {α : Type} (expected : List Expected) : Parser α := do
  failAt (← unread) expected

/-- Build the trees of the first `count` nests. -/
def move (count : Nat) : Parser Unit := do
  let ns ← unread
  build (Nest.treesOf (ns.take count))
  load (ns.drop count)

def advance : Parser Unit := move 1

/-- Build the trees of all nests up to the first that fails the test. -/
def moveWhile (p : Nest → Bool) : Parser Unit := do
  move ((← unread).takeWhile p).length

def skipWhitespace : Parser Unit := moveWhile Nest.isWhitespace

/-- Skip blanks and a recipe prefix. -/
def skipLeading : Parser Unit := moveWhile (·.kind.isLeading)

def kind? : Parser (Option TokenKind) := return (← unread).head?.map Nest.kind

def nextIs (p : Nest → Bool) : Parser Bool := return (← unread).head?.any p

/-- Whether `p` holds of what comes next, or no more than a comment is left of the line. -/
def endsOr (p : Nest → Bool) : Parser Bool :=
  return (← unread).head?.all fun n => n.isLineBreak || n.isComment || p n

/-- Whether no more than a comment is left of the line. -/
def atLineEnd : Parser Bool := endsOr fun _ => false

def advanceIf (p : Nest → Bool) : Parser Unit := do
  if ← nextIs p then advance else pure ()

/-- Advance over what `p` has to hold of. -/
def expect (p : Nest → Bool) (expected : List Expected) : Parser Unit := do
  if ← nextIs p then advance else fail expected

/-- Refuse what `p` holds of, and the end of the line. -/
def refuse (p : Nest → Bool) (expected : List Expected) : Parser Unit := do
  if ← endsOr p then fail expected else pure ()

end Parser

end MakeTree
