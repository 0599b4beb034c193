import MakeTree.Proofs.Lexer.Run

/-!
Positions. A piece is the same wherever it starts (`step_shift`), and after some pieces the lexer
stands just past their text (`Steps.position`), also where a line break is made of two characters.
-/

namespace MakeTree

namespace Text

/-- The number of line breaks, CR LF as one. -/
def lineBreaks : Text → Nat
  | [] => 0
  | '\r' :: '\n' :: t => lineBreaks t + 1
  | '\r' :: t => lineBreaks t + 1
  | '\n' :: t => lineBreaks t + 1
  | _ :: t => lineBreaks t

/-- No line break runs from `a` into `b`. -/
def Seam (a b : Text) : Prop := a.getLast? = some '\r' → b.head? ≠ some '\n'

theorem Seam.of_cons {c : Char} {a b : Text} (h : Seam (c :: a) b) : Seam a b := by
  intro ha
  refine h ?_
  rw [List.getLast?_cons, ha]
  rfl

theorem EndsLine.seam {a b : Text} (h : EndsLine a b) : Seam a b := by
  intro ha
  rcases h with h | h
  · rw [ha] at h
    cases h
  · exact h.2

theorem EndsLine.of_cons {c : Char} {a b : Text} (h : EndsLine (c :: a) b)
    (hc : c ≠ '\n' ∧ c ≠ '\r') : EndsLine a b := by
  refine h.of_suffix (s := [c]) ?_
  rintro rfl
  simp_all [EndsLine]

end Text

namespace Position

/-- Some lines and bytes further on, in the same column. -/
def shift (lines bytes : Nat) (p : Position) : Position :=
  ⟨p.line + lines, p.column, p.offset + bytes⟩

theorem shift_nextLine (l b n : Nat) (p : Position) :
    (p.shift l b).nextLine n = (p.nextLine n).shift l b := by
  simp [nextLine, shift, Nat.add_right_comm]

theorem shift_nextColumn (l b : Nat) (p : Position) (c : Char) :
    (p.shift l b).nextColumn c = (p.nextColumn c).shift l b := by
  simp [nextColumn, shift, Nat.add_right_comm]

theorem past_shift (l b : Nat) (p : Position) (t : Text) :
    (p.shift l b).past t = (p.past t).shift l b := by
  fun_induction past p t with
  | case1 p => rfl
  | case2 p t ih => rw [past, shift_nextLine, ih]
  | case3 p t h ih => rw [past, shift_nextLine, ih]; exact h
  | case4 p t ih => rw [past, shift_nextLine, ih]
  | case5 p c t h₁ h₂ h₃ ih => rw [past, shift_nextColumn, ih]; exacts [h₁, h₂, h₃]

theorem past_append (p : Position) {a b : Text} (h : Text.Seam a b) :
    p.past (a ++ b) = (p.past a).past b := by
  fun_induction past p a with
  | case1 p => rfl
  | case2 p t ih =>
    rw [List.cons_append, List.cons_append, past]
    exact ih h.of_cons.of_cons
  | case3 p t ht ih =>
    rw [List.cons_append, past]
    · exact ih h.of_cons
    · intro t' he
      cases t with
      | nil =>
        rw [List.nil_append] at he
        exact h rfl (by rw [he]; rfl)
      | cons d t => exact ht t (by rw [(List.cons.inj he).1])
  | case4 p t ih =>
    rw [List.cons_append, past]
    exact ih h.of_cons
  | case5 p c t h₁ h₂ h₃ ih =>
    rw [List.cons_append, past]
    · exact ih h.of_cons
    · intro t' hc
      cases t with
      | nil => exact fun he => h₂ hc
      | cons d t => exact fun he => h₂ hc
    · exact h₂
    · exact h₃

theorem past_line (p : Position) (t : Text) : (p.past t).line = p.line + t.lineBreaks := by
  fun_induction past p t with
  | case1 p => rfl
  | case2 p t ih =>
    rw [ih, Text.lineBreaks]
    simp only [nextLine]
    omega
  | case3 p t h ih =>
    rw [ih, Text.lineBreaks]
    · simp only [nextLine]
      omega
    · exact h
  | case4 p t ih =>
    rw [ih, Text.lineBreaks]
    simp only [nextLine]
    omega
  | case5 p c t h₁ h₂ h₃ ih =>
    rw [ih, Text.lineBreaks]
    · rfl
    · exact h₁
    · exact h₂
    · exact h₃

theorem past_column (p : Position) {t x : Text} (hp : t ≠ [] ∨ p.column = 1)
    (h : t ≠ [] → t.EndsLine x) : (p.past t).column = 1 := by
  fun_induction past p t with
  | case1 p => simpa using hp
  | case2 p t ih =>
    refine ih (.inr rfl) fun ht => ?_
    exact (h (List.cons_ne_nil _ _)).of_suffix (s := ['\r', '\n']) ht
  | case3 p t _ ih =>
    refine ih (.inr rfl) fun ht => ?_
    exact (h (List.cons_ne_nil _ _)).of_suffix (s := ['\r']) ht
  | case4 p t ih =>
    refine ih (.inr rfl) fun ht => ?_
    exact (h (List.cons_ne_nil _ _)).of_suffix (s := ['\n']) ht
  | case5 p c t h₁ h₂ h₃ ih =>
    have ht : Text.EndsLine t x := (h (List.cons_ne_nil _ _)).of_cons ⟨h₃, h₂⟩
    refine ih (.inl ?_) fun _ => ht
    rintro rfl
    simp [Text.EndsLine] at ht

theorem past_start {t x : Text} (h : t ≠ [] → Text.EndsLine t x) :
    past {} t = shift t.lineBreaks t.byteSize {} := by
  have hl := past_line {} t
  have hc := past_column {} (.inr rfl) h
  have ho := past_offset {} t
  calc past {} t = ⟨(past {} t).line, (past {} t).column, (past {} t).offset⟩ := rfl
    _ = shift t.lineBreaks t.byteSize {} := by rw [hl, hc, ho]; rfl

end Position

variable (l b : Nat)

def Token.shift (t : Token) : Token := { t with position := t.position.shift l b }

def Frame.shift (f : Frame) : Frame := { f with position := f.position.shift l b }

def LexError.shift : LexError → LexError
  | .illegalCharacter p c => .illegalCharacter (p.shift l b) c
  | .unterminated f => .unterminated (f.shift l b)

def Piece.shift : Piece → Piece
  | .token t change => .token (t.shift l b) change
  | .continuation t => .continuation t
  | .illegal p c => .illegal (p.shift l b) c

namespace Shape

/-- Of the open frames only the kinds matter. -/
theorem inLine_congr {frames gs : List Frame} (h : gs.map Frame.kind = frames.map Frame.kind)
    (ob : Bool) (c : Char) (t : Text) : inLine gs ob c t = inLine frames ob c t := by
  cases frames with
  | nil => rw [List.map_eq_nil_iff.1 h]
  | cons f fs =>
    cases gs with
    | nil => cases h
    | cons g gs =>
      have hc : closing (g :: gs) = closing (f :: fs) := by
        obtain ⟨k, p⟩ := f
        obtain ⟨k', p'⟩ := g
        obtain rfl : k' = k := (List.cons.inj h).1
        cases k' <;> rfl
      unfold inLine
      simp only [hc]
      rfl

end Shape

namespace Lexer

def shift (lx : Lexer) : Lexer :=
  { lx with position := lx.position.shift l b, frames := lx.frames.map (Frame.shift l b) }

theorem shape_shift (lx : Lexer) (c : Char) (after : Text) :
    (lx.shift l b).shape c after = lx.shape c after := by
  have hk : (lx.frames.map (Frame.shift l b)).map Frame.kind = lx.frames.map Frame.kind := by
    rw [List.map_map]
    rfl
  simp only [shape, shift, Shape.inLine_congr hk]

theorem step_shift (lx : Lexer) :
    (lx.shift l b).step = lx.step.map fun r => (r.1.shift l b, r.2.shift l b) := by
  unfold step
  have hr : (lx.shift l b).rest = lx.rest := rfl
  rw [hr]
  split
  · rfl
  · next c after h =>
    rw [shape_shift]
    simp only [Option.map_some, Option.some.injEq]
    split
    · next kind more change hs =>
      refine Prod.ext rfl ?_
      cases change <;>
        simp [afterToken, shift, Position.past_shift, FrameChange.apply, Frame.shift, List.map_tail]
    · simp [shift, Piece.shift, Position.past_shift]
    · simp [shift, Piece.shift, Position.past_shift]

theorem step_seam {lx next : Lexer} {p : Piece} (h : lx.step = some (p, next)) :
    p.text.Seam next.rest := by
  rcases p with ⟨t, change⟩ | s | ⟨q, c⟩
  · by_cases ht : t.kind = .lineBreak
    · exact (step_lineBreak h ht).2.seam
    · intro hl
      exact absurd rfl (step_ne_break h ht '\r' (List.mem_of_getLast? hl)).2
  · obtain ⟨_, -, -, he⟩ := step_continuation h
    exact he.seam
  · intro hl
    obtain rfl : c = '\r' := by simpa [Piece.text] using hl
    have := (step_illegal h).1
    simp [isIllegal] at this

theorem Steps.position {lx last : Lexer} {ps : List Piece} (h : Steps lx ps last) :
    last.position = lx.position.past (ps.flatMap Piece.text) := by
  induction h with
  | nil lx => rfl
  | @cons lx next last p ps hs h ih =>
    rw [List.flatMap_cons, Position.past_append, ← step_position hs, ih]
    intro hl hb
    refine step_seam hs hl ?_
    rw [← h.text, List.head?_append, hb]
    rfl

namespace Steps

variable {lx last : Lexer} {ps : List Piece} {t : Token} {change : FrameChange}

theorem offset (h : Steps lx ps last) :
    last.position.offset = lx.position.offset + Text.byteSize (ps.flatMap Piece.text) := by
  rw [h.position, Position.past_offset]

theorem head_position (h : Steps lx ps last) (hh : ps.head? = some (.token t change)) :
    t.position = lx.position := by
  cases h with
  | nil => cases hh
  | cons hs _ =>
    obtain rfl := Option.some.inj hh
    exact step_token_position hs

theorem last_stop (h : Steps lx ps last) (hl : ps.getLast? = some (.token t change)) :
    t.stop = last.position.offset := by
  obtain ⟨qs, rfl⟩ := List.getLast?_eq_some_iff.1 hl
  obtain ⟨mid, -, h⟩ := h.split
  cases h with
  | cons hs h =>
    cases h
    rw [Token.stop, step_token_position hs, step_offset_eq hs]
    rfl

/-- Behind a line break, with no frame open, the lexer stands as at the start of a text. -/
theorem restart {text : Text} {c : Char} (h : Steps (start text c) ps last)
    (hf : last.frames = []) (hl : ps.getLast? = some (.token t change)) (hk : t.kind = .lineBreak) :
    last = (start last.rest c).shift (Text.lineBreaks (ps.flatMap Piece.text))
      (Text.byteSize (ps.flatMap Piece.text)) := by
  obtain ⟨h₁, h₂⟩ := h.atLineStart hl hk
  have hposition := h.position.trans (Position.past_start fun _ => h.endsLine hl hk)
  have hprefix := h.recipePrefix
  have hfinished := h.finished
  rcases last with ⟨rest, position, frames, atLineStart, onlyBlanks, recipePrefix, finished⟩
  simp only [start] at *
  subst hposition hf h₁ h₂ hprefix hfinished
  rfl

end Steps

end Lexer

namespace Token

theorem inside_shift (t : Token) : (t.shift l b).inside = t.inside.shift l b := by
  simp [inside, shift, Lexer.shift, Position.shift, Nat.add_right_comm]

end Token

end MakeTree
