import MakeTree.Token.Basic
import MakeTree.Tree.Basic

/-!
Lexemes: tokens with what was passed over in front of them, so that no text is lost.
-/

namespace MakeTree

/-- Text between tokens. -/
inductive Trivia where
  | continuation (text : Text)
  | skipped (c : Char)
deriving DecidableEq, Repr

namespace Trivia

def tree : Trivia → Tree
  | continuation t => .leaf .continuation t
  | skipped c => .leaf .skipped [c]

/-- What the text between two tokens is: continuations, and else single characters. -/
def ofGap : Text → List Trivia
  | [] => []
  | c :: t =>
    match Text.continuation? (c :: t) with
    | some more => continuation (c :: t.take more) :: ofGap (t.drop more)
    | none => skipped c :: ofGap t
termination_by t => t.length
decreasing_by all_goals simp only [List.length_drop, List.length_cons]; omega

end Trivia

structure Lexeme where
  leading : List Trivia
  token : Token
deriving DecidableEq, Repr

namespace Lexeme

/-- The tokens of a text that stands at the byte `cursor`, each with the text up to it put back, and
what the text behind the last one is. -/
def ofTokens (cursor : Nat) (text : Text) : List Token → List Lexeme × List Trivia
  | [] => ([], Trivia.ofGap text)
  | t :: ts =>
    let gap := text.takeBytes (t.position.offset - cursor)
    let after := ofTokens t.stop (text.drop (gap ++ t.text).length) ts
    (⟨Trivia.ofGap gap, t⟩ :: after.1, after.2)

/-- The leaf of the token, after what leads it. -/
def leaves (x : Lexeme) : List Tree :=
  x.leading.map Trivia.tree ++ [.leaf (.token x.token.kind) x.token.text]

/-- Whether the token is an expansion by itself. A doubled dollar sign is text. -/
def isReference (x : Lexeme) : Bool := x.token.kind == .varRef && x.token.text != ['$', '$']

def trees (x : Lexeme) : List Tree :=
  if x.isReference then [.node .expansion x.leaves] else x.leaves

end Lexeme

end MakeTree
