import MakeTree.Text.Alphanumeric
import MakeTree.Token.Basic

/-!
The lexer. One step cuts one piece off the front of the text: a token, a line continuation
(which no token holds) or an illegal character (which is skipped). Pieces are never empty and
put together they are the text: `step_text` and `run_text`.
-/

namespace MakeTree

/-- What a token does to the open frames. -/
inductive FrameChange where
  | keep
  | opens (kind : FrameKind)
  | closes (kind : FrameKind)
deriving DecidableEq, Repr

namespace FrameChange

/-- The open frames, innermost first, after a token at `p`. -/
def apply (p : Position) : FrameChange → List Frame → List Frame
  | keep, frames => frames
  | opens kind, frames => ⟨kind, p⟩ :: frames
  | closes _, frames => frames.tail

end FrameChange

/-- How the text goes on; `more` counts the characters of the piece after the first. -/
inductive Shape where
  | token (kind : TokenKind) (more : Nat) (change : FrameChange)
  | continuation (more : Nat)
  | illegal
deriving DecidableEq, Repr

def isWordChar (c : Char) : Bool :=
  isAlphanumeric c || c == '-' || c == '_' || c == '/' || c == '.'

namespace Shape

def plain (more : Nat) : Shape := token .plainText more .keep

def assign (more : Nat) : Shape := token .assignOp more .keep

/-- After `$`. A doubled dollar sign keeps a parenthesis from opening an expansion. -/
def dollar : Text → Shape
  | [] => plain 0
  | '$' :: '(' :: _ => plain 2
  | '(' :: _ => token .expansionPrefix 1 (.opens .expansion)
  | '{' :: _ => token .expansionPrefix 1 (.opens .expansion)
  | after =>
    if (Text.lineBreak? after).isSome || (Text.continuation? after).isSome then plain 0
    else token .varRef 1 .keep

/-- After a backslash that does not continue the line. -/
def backslash : Text → Shape
  | '(' :: _ => plain 1
  | ')' :: _ => plain 1
  | '#' :: _ => plain 1
  | _ => plain 0

/-- Either closing bracket closes the innermost frame, whatever opened it. -/
def closing : List Frame → Shape
  | [] => plain 0
  | ⟨.expansion, _⟩ :: _ => token .expansionSuffix 0 (.closes .expansion)
  | ⟨.literalParen, _⟩ :: _ => token .plainText 0 (.closes .literalParen)

/-- Parentheses are counted inside expansions only. -/
def opening : List Frame → Shape
  | [] => plain 0
  | _ :: _ => token .plainText 0 (.opens .literalParen)

def colon : Text → Shape
  | ':' :: '=' :: _ => assign 2
  | '=' :: _ => assign 1
  | _ => token .colon 0 .keep

def beforeEquals : Text → Shape
  | '=' :: _ => assign 1
  | _ => plain 0

/-- After the quote `q`, which opens a literal if it comes again on the same line. -/
def quote (q : Char) (after : Text) : Shape :=
  let inside := after.takeWhile fun c => c != q && c != '\n' && c != '\r'
  if after[inside.length]? = some q then token .stringLiteral (inside.length + 1) .keep
  else plain 0

/-- A whole word. Keywords are text inside expansions, and `include` is one only in front of
its line. -/
def word (frames : List Frame) (onlyBlanks : Bool) (w : Text) : Shape :=
  match Keyword.ofText w with
  | none => plain (w.length - 1)
  | some k =>
    if frames.isEmpty && (k != .includeFile || onlyBlanks) then
      token (.keyword k) (w.length - 1) .keep
    else plain (w.length - 1)

/-- A piece that is no line break, continuation or recipe prefix. -/
def inLine (frames : List Frame) (onlyBlanks : Bool) (c : Char) (after : Text) : Shape :=
  match c with
  | '$' => dollar after
  | '\\' => backslash after
  | ')' => closing frames
  | '}' => closing frames
  | '(' => opening frames
  | '=' => assign 0
  | ':' => colon after
  | '?' => beforeEquals after
  | '+' => beforeEquals after
  | '!' => beforeEquals after
  | ',' => token .comma 0 .keep
  | '#' => token .comment (Text.line after).length .keep
  | '"' => quote '"' after
  | '\'' => quote '\'' after
  | _ =>
    if isBlank c then token .whitespace (after.takeWhile isBlank).length .keep
    else if isWordChar c then word frames onlyBlanks (c :: after.takeWhile isWordChar)
    else if isIllegal c then illegal
    else plain 0

end Shape

/-- A position in the text with all that the next token depends on. -/
structure Lexer where
  rest : Text
  position : Position := {}
  /-- innermost first -/
  frames : List Frame := []
  /-- nothing but continuations since the line began -/
  atLineStart : Bool := true
  /-- nothing but blanks, a recipe prefix and continuations since the line began -/
  onlyBlanks : Bool := true
  recipePrefix : Char := '\t'
  /-- the end has been reported -/
  finished : Bool := false
deriving DecidableEq, Repr

inductive Piece where
  | token (t : Token) (change : FrameChange)
  | continuation (text : Text)
  | illegal (position : Position) (c : Char)
deriving DecidableEq, Repr

namespace Piece

def text : Piece → Text
  | token t _ => t.text
  | continuation t => t
  | illegal _ c => [c]

end Piece

/-- What a lexer yields: tokens, and errors between or after them. -/
abbrev Item := Except LexError Token

namespace Lexer

def start (text : Text) (recipePrefix : Char) : Lexer :=
  { rest := text, recipePrefix := recipePrefix }

def depth (lx : Lexer) : Nat := lx.frames.length

/-- The next piece, which starts with `c`. -/
def shape (lx : Lexer) (c : Char) (after : Text) : Shape :=
  match Text.lineBreak? (c :: after) with
  | some more => .token .lineBreak more .keep
  | none =>
    match Text.continuation? (c :: after) with
    | some more => .continuation more
    | none =>
      if c = lx.recipePrefix ∧ lx.atLineStart then .token .recipePrefix 0 .keep
      else Shape.inLine lx.frames lx.onlyBlanks c after

def afterToken (lx : Lexer) (t : Token) (change : FrameChange) (rest : Text) : Lexer :=
  { lx with
    rest := rest
    position := lx.position.past t.text
    frames := change.apply t.position lx.frames
    atLineStart := t.kind == .lineBreak
    onlyBlanks := t.kind == .lineBreak || (lx.onlyBlanks && t.kind.isLeading) }

/-- Cut off one piece; none is left at the end of the text. -/
def step (lx : Lexer) : Option (Piece × Lexer) :=
  match lx.rest with
  | [] => none
  | c :: after =>
    some <| match lx.shape c after with
    | .token kind more change =>
      let t := ⟨kind, c :: after.take more, lx.position⟩
      (.token t change, lx.afterToken t change (after.drop more))
    | .continuation more =>
      let text := c :: after.take more
      (.continuation text,
        { lx with rest := after.drop more, position := lx.position.past text })
    | .illegal =>
      (.illegal lx.position c,
        { lx with
          rest := after
          position := lx.position.past [c]
          atLineStart := false
          onlyBlanks := false })

theorem step_text {lx next : Lexer} {p : Piece} (h : lx.step = some (p, next)) :
    p.text ++ next.rest = lx.rest := by
  unfold step at h
  split at h
  · simp at h
  · next c after hr =>
    simp only [Option.some.injEq] at h
    split at h <;> obtain ⟨rfl, rfl⟩ := Prod.mk.inj h <;>
      simp [Piece.text, afterToken, hr, List.take_append_drop]

theorem step_text_ne_nil {lx next : Lexer} {p : Piece} (h : lx.step = some (p, next)) :
    p.text ≠ [] := by
  unfold step at h
  split at h
  · simp at h
  · simp only [Option.some.injEq] at h
    split at h <;> obtain ⟨rfl, rfl⟩ := Prod.mk.inj h <;> simp [Piece.text]

theorem step_length {lx next : Lexer} {p : Piece} (h : lx.step = some (p, next)) :
    p.text.length + next.rest.length = lx.rest.length := by
  rw [← step_text h, List.length_append]

theorem step_lt {lx next : Lexer} {p : Piece} (h : lx.step = some (p, next)) :
    next.rest.length < lx.rest.length := by
  have := List.length_pos_iff.2 (step_text_ne_nil h)
  have := step_length h
  omega

/-- All pieces of the text, and the lexer at its end. -/
def run (lx : Lexer) : List Piece × Lexer :=
  match _h : lx.step with
  | none => ([], lx)
  | some (p, next) =>
    let r := next.run
    (p :: r.1, r.2)
termination_by lx.rest.length
decreasing_by all_goals exact step_lt _h

/-- The next token or error. The end is reported once, and only if a frame is still open. -/
def next (lx : Lexer) : Option Item × Lexer :=
  match _h : lx.step with
  | some (.token t _, after) => (some (.ok t), after)
  | some (.illegal p c, after) => (some (.error (.illegalCharacter p c)), after)
  | some (.continuation _, after) => after.next
  | none =>
    if lx.finished then (none, lx)
    else (lx.frames.head?.map (.error <| .unterminated ·), { lx with finished := true })
termination_by lx.rest.length
decreasing_by exact step_lt _h

/-- Bounds the number of items to come. -/
def pending (lx : Lexer) : Nat := lx.rest.length + if lx.finished then 0 else 1

theorem step_finished {lx after : Lexer} {p : Piece} (h : lx.step = some (p, after)) :
    after.finished = lx.finished := by
  unfold step at h
  split at h
  · simp at h
  · simp only [Option.some.injEq] at h
    split at h <;> obtain ⟨rfl, rfl⟩ := Prod.mk.inj h <;> rfl

theorem step_pending {lx after : Lexer} {p : Piece} (h : lx.step = some (p, after)) :
    after.pending < lx.pending := by
  have := step_lt h
  simp only [pending, step_finished h]
  omega

theorem next_pending {lx : Lexer} {item : Item} (h : lx.next.1 = some item) :
    lx.next.2.pending < lx.pending := by
  fun_induction next lx with
  | case1 lx t _ after hs => exact step_pending hs
  | case2 lx p c after hs => exact step_pending hs
  | case3 lx _ after hs ih => exact Nat.lt_trans (ih h) (step_pending hs)
  | case4 lx _ _ => simp at h
  | case5 lx _ hf => simp [pending, hf]

/-- All items to come, each with the lexer after it. -/
def items (lx : Lexer) : List (Item × Lexer) :=
  match _h : lx.next with
  | (none, _) => []
  | (some item, after) => (item, after) :: after.items
termination_by lx.pending
decreasing_by
  have := @next_pending lx item (by rw [_h])
  rwa [_h] at this

theorem run_text (lx : Lexer) : lx.run.1.flatMap Piece.text = lx.rest := by
  fun_induction run lx with
  | case1 lx h =>
    unfold step at h
    split at h
    · next hr => simp [hr]
    · simp at h
  | case2 lx p after h r ih => simp [r, ih, step_text h]

end Lexer

namespace Token

/-- A lexer for the text between the quotes of a literal. -/
def inside (t : Token) : Lexer where
  rest := t.text.tail.dropLast
  position := ⟨t.position.line, t.position.column + 1, t.position.offset + 1⟩
  atLineStart := false
  onlyBlanks := false

end Token

namespace Lexer

theorem inside_lt {lx next : Lexer} {t : Token} {change : FrameChange}
    (h : lx.step = some (.token t change, next)) :
    t.inside.rest.length < lx.rest.length := by
  have := List.length_pos_iff.2 (step_text_ne_nil h)
  have := step_length h
  simp only [Piece.text, Token.inside, List.length_dropLast, List.length_tail] at *
  omega

end Lexer

end MakeTree
