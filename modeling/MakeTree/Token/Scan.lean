import MakeTree.Event
import MakeTree.Token.Lexer

/-!
Reading a text once through before it is parsed: what the lexer records on the way, and where
the first illegal character stands. Quoted literals are searched too, and so are the literals
inside them.
-/

namespace MakeTree

namespace Piece

/-- The frames that the piece opens and closes. A frame closes where its closing token starts. -/
def frameEvents : Piece → List Event
  | token t (.opens frame) => [.opened t.position frame]
  | token t (.closes frame) => [.closed t.position frame]
  | _ => []

/-- The token or error that the piece is. -/
def item? : Piece → Option Item
  | token t _ => some (.ok t)
  | illegal p c => some (.error (.illegalCharacter p c))
  | continuation _ => none

def token? : Piece → Option Token
  | token t _ => some t
  | _ => none

/-- What is recorded when illegal characters are passed over. -/
def events : Piece → List Event
  | illegal p c => [.skipped (.illegalCharacter p c)]
  | p => p.frameEvents

end Piece

namespace Lexer

/-- The frames opened and closed up to the end of the text. -/
def frameEvents (lx : Lexer) : List Event := lx.run.1.flatMap Piece.frameEvents

/-- The innermost frame that is open at the end of the text. -/
def unclosed? (lx : Lexer) : Option Frame := lx.run.2.frames.head?

/-- The frames opened and closed up to the first illegal character, and that character. -/
def search (lx : Lexer) : List Event × Option LexError :=
  match _h : lx.step with
  | none => ([], none)
  | some (.continuation _, next) => next.search
  | some (.illegal p c, _) => ([], some (.illegalCharacter p c))
  | some (.token t change, next) =>
    if t.kind = .stringLiteral then
      match t.inside.search with
      | (events, some e) => (events, some e)
      | (events, none) =>
        let r := next.search
        (events ++ r.1, r.2)
    else
      let r := next.search
      ((Piece.token t change).frameEvents ++ r.1, r.2)
termination_by lx.rest.length
decreasing_by all_goals first | exact step_lt _h | exact inside_lt _h

end Lexer

namespace Piece

/-- What is recorded when illegal characters are passed over; of those inside a literal only
the first is. -/
def surveyEvents (p : Piece) : List Event :=
  match p with
  | token t _ =>
    if t.kind = .stringLiteral then t.inside.search.1 ++ (t.inside.search.2.map .skipped).toList
    else p.frameEvents
  | p => p.events

end Piece

namespace Lexer

/-- What is recorded while the text is read through, and what speaks against parsing it. -/
def survey (lx : Lexer) (strict : Bool) : List Event × Option LexError :=
  let unclosed := lx.unclosed?.map .unterminated
  if strict then (lx.search.1, lx.search.2 <|> unclosed)
  else (lx.run.1.flatMap Piece.surveyEvents, unclosed)

end Lexer

/-- All tokens of a text. Illegal characters are skipped and recorded. -/
def tokenize (text : Text) (recipePrefix : Char) : List Event × Except LexError (List Token) :=
  let lx := Lexer.start text recipePrefix
  (lx.run.1.flatMap Piece.events,
    match lx.unclosed? with
    | some frame => .error (.unterminated frame)
    | none => .ok (lx.run.1.filterMap Piece.token?))

end MakeTree
