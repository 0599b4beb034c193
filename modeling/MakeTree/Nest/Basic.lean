import MakeTree.Token.Lexeme
import MakeTree.Token.Scan

/-!
Nests: the lexemes of a text, those of each expansion gathered between its brackets, and quoted
literals read again for the expansions inside them.
-/

namespace MakeTree

inductive Nest where
  | leaf (x : Lexeme)
  /-- a literal with its inside, and what was passed over in front of the closing quote -/
  | quoted (x : Lexeme) (inside : List Nest) (trailing : List Trivia)
  /-- a literal whose inside leaves a frame open -/
  | raw (x : Lexeme)
  | expansion (opener : Lexeme) (body : List Nest) (closer : Lexeme)
deriving Repr

namespace Nest

def first : Nest → Lexeme
  | leaf x => x
  | quoted x .. => x
  | raw x => x
  | expansion x .. => x

/-- The first token. -/
def token (n : Nest) : Token := n.first.token

def kind (n : Nest) : TokenKind := n.token.kind

def isLineBreak (n : Nest) : Bool := n.kind == .lineBreak
def isWhitespace (n : Nest) : Bool := n.kind == .whitespace
def isComment (n : Nest) : Bool := n.kind == .comment
def isColon (n : Nest) : Bool := n.kind == .colon
def isAssignOp (n : Nest) : Bool := n.kind == .assignOp
def isText (s : Text) (n : Nest) : Bool := n.token.isText s

mutual

/-- The nests of which an expansion is made, one token each. -/
def flatten : Nest → List Nest
  | leaf x => [leaf x]
  | quoted x inside trailing => [quoted x inside trailing]
  | raw x => [raw x]
  | expansion opener body closer => leaf opener :: (flattenAll body ++ [leaf closer])

def flattenAll : List Nest → List Nest
  | [] => []
  | n :: ns => n.flatten ++ flattenAll ns

end

theorem flattenAll_append (ms ns : List Nest) :
    flattenAll (ms ++ ns) = flattenAll ms ++ flattenAll ns := by
  induction ms with
  | nil => rfl
  | cons m ms ih => simp [flattenAll, ih]

/-- Brackets matched from the right: the nests up to the first closer without an opener, then
each such closer with the nests after it. -/
def pair : List Nest → List Nest × List (Lexeme × List Nest)
  | [] => ([], [])
  | n :: ns =>
    let (inner, closers) := pair ns
    match n.kind with
    | .expansionSuffix => ([], (n.first, inner) :: closers)
    | .expansionPrefix =>
      match closers with
      | [] => (n :: inner, [])
      | (closer, outer) :: closers => (expansion n.first inner closer :: outer, closers)
    | _ => (n :: inner, closers)

/-- Nests of one token each, gathered into expansions. Brackets without a partner are left. -/
def gather (ns : List Nest) : List Nest :=
  let (inner, closers) := pair ns
  inner ++ closers.flatMap fun c => leaf c.1 :: c.2

end Nest

namespace Lexer

/-- The tokens to come as one nest each, after what was passed over so far; and what is passed
over at the end of the text. -/
def flatNests (lx : Lexer) (leading : List Trivia) : List Nest × List Trivia :=
  match _h : lx.step with
  | none => ([], leading)
  | some (.continuation t, next) => next.flatNests (leading ++ [.continuation t])
  | some (.illegal _ c, next) => next.flatNests (leading ++ [.skipped c])
  | some (.token t _, next) =>
    let x : Lexeme := ⟨leading, t⟩
    let after := next.flatNests []
    let n : Nest :=
      if t.kind = .stringLiteral then
        if t.inside.unclosed?.isSome then .raw x
        else
          let inside := t.inside.flatNests []
          .quoted x (Nest.gather inside.1) inside.2
      else .leaf x
    (n :: after.1, after.2)
termination_by lx.rest.length
decreasing_by all_goals first | exact step_lt _h | exact inside_lt _h

/-- The nests to come, and what is passed over at the end of the text. -/
def nests (lx : Lexer) : List Nest × List Trivia :=
  let flat := lx.flatNests []
  (Nest.gather flat.1, flat.2)

end Lexer

end MakeTree
