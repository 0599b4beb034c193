import MakeTree.Proofs.Lexer.Endings
import MakeTree.Proofs.Lexer.Iteration
import Mathlib.Data.List.DropRight

/-!
Places in a text. The position behind some text is a matter of the line breaks in it and of the
characters behind the last of them (`Position.past_eq`). A lexer keeps count of them
(`Lexer.Stands.step`), also in a literal that it reads again (`Lexer.Stands.inside`), so each item
carries the position of the text that it is made of (`Lexer.Stands.yielded`).
-/

namespace MakeTree

namespace Text

/-- What stands behind the last line break. -/
def lastLine (t : Text) : Text := t.rtakeWhile fun c => c != '\n' && c != '\r'

end Text

namespace Position

/-- The position behind some text: its line breaks are counted, CR LF as one, and the characters
behind the last of them. -/
def behind (before : Text) : Position :=
  ⟨1 + before.lineBreaks, 1 + before.lastLine.length, before.byteSize⟩

theorem past_lastLine (t : Text) : (past {} t).column = 1 + t.lastLine.length := by
  induction t using List.reverseRecOn with
  | nil => rfl
  | append_singleton t c ih =>
    by_cases hc : c = '\n' ∨ c = '\r'
    · have hends : Text.EndsLine (t ++ [c]) [] := by
        rcases hc with rfl | rfl
        · exact .inl List.getLast?_concat
        · exact .inr ⟨List.getLast?_concat, by simp⟩
      rw [past_column {} (.inr rfl) fun _ => hends, Text.lastLine, List.rtakeWhile_concat_neg]
      · rfl
      · rcases hc with rfl | rfl <;> decide
    · obtain ⟨hn, hr⟩ := not_or.1 hc
      have hseam : Text.Seam t [c] := fun _ he => hn (Option.some.inj he)
      rw [past_append {} hseam, past_cons hr hn, Text.lastLine, List.rtakeWhile_concat_pos]
      · simp only [past, nextColumn, ih, Text.lastLine, List.length_append, List.length_singleton]
        omega
      · simp [hn, hr]

theorem past_eq (t : Text) : past {} t = behind t := by
  have hl := past_line {} t
  have ho := past_offset {} t
  have hc := past_lastLine t
  calc past {} t = ⟨(past {} t).line, (past {} t).column, (past {} t).offset⟩ := rfl
    _ = behind t := by rw [hl, hc, ho, Nat.zero_add]; rfl

end Position

namespace Item

/-- The text that the item is made of. What is said of a frame is made of none. -/
def text : Item → Text
  | .ok t => t.text
  | .error (.illegalCharacter _ c) => [c]
  | .error (.unterminated _) => []

def position : Item → Position
  | .ok t => t.position
  | .error e => e.position

/-- The item carries the position of a place in the text, and what it is made of stands there. -/
def LocatedIn (text : Text) (item : Item) : Prop :=
  ∃ before after, text = before ++ item.text ++ after ∧ item.position = .behind before

end Item

namespace Lexer

variable {text : Text} {lx next last : Lexer} {p : Piece} {ps : List Piece} {t : Token}
  {change : FrameChange}

/-- What the lexer is to read stands in the text where the lexer takes it to stand, and the open
frames were opened where they say. -/
structure Stands (text : Text) (lx : Lexer) : Prop where
  rest : ∃ before after, text = before ++ (lx.rest ++ after) ∧ before.Seam lx.rest ∧
    lx.position = .past {} before
  frames : ∀ f ∈ lx.frames, Item.LocatedIn text (.error (.unterminated f))

theorem stands_start (text : Text) (c : Char) : (start text c).Stands text where
  rest := ⟨[], [], (List.append_nil text).symm, fun h => absurd h (by simp), rfl⟩
  frames := fun _ hf => absurd hf List.not_mem_nil

theorem step_inside (h : lx.step = some (.token t change, next)) (hk : t.kind = .stringLiteral) :
    ∃ q inside, q ≠ '\r' ∧ t.text = q :: (inside ++ [q]) ∧ t.inside.rest = inside ∧
      t.inside.position = lx.position.past [q] := by
  obtain ⟨q, inside, hq, hi⟩ := step_stringLiteral h hk
  have hbreak : q ≠ '\r' ∧ q ≠ '\n' := by rcases hq with rfl | rfl <;> decide
  refine ⟨q, inside, hbreak.1, hi, ?_, ?_⟩
  · show t.text.tail.dropLast = inside
    rw [hi, List.tail_cons, List.dropLast_concat]
  · rw [Position.past_cons hbreak.1 hbreak.2, ← step_token_position h]
    rcases hq with rfl | rfl <;> rfl

namespace Stands

theorem step_located (h : lx.Stands text) (hs : lx.step = some (p, next)) {item : Item}
    (hi : p.item? = some item) : item.LocatedIn text := by
  obtain ⟨before, after, htext, -, hposition⟩ := h.rest
  have hitem : item.text = p.text ∧ item.position = lx.position := by
    cases p with
    | token t change =>
      cases hi
      exact ⟨rfl, step_token_position hs⟩
    | continuation s => cases hi
    | illegal q c =>
      cases hi
      exact ⟨rfl, (step_illegal hs).2⟩
  refine ⟨before, next.rest ++ after, ?_, ?_⟩
  · rw [hitem.1, htext, ← step_text hs]
    simp only [List.append_assoc]
  · rw [hitem.2, hposition, Position.past_eq]

theorem step_frame (h : lx.Stands text) (hs : lx.step = some (p, next)) :
    ∀ f ∈ next.frames, Item.LocatedIn text (.error (.unterminated f)) := by
  cases p with
  | token t change =>
    obtain ⟨before, after, htext, hposition⟩ := h.step_located hs rfl
    have hopener (kind : FrameKind) :
        Item.LocatedIn text (.error (.unterminated ⟨kind, t.position⟩)) :=
      ⟨before, t.text ++ after, by rw [htext]; simp [Item.text], hposition⟩
    rw [(step_frames hs).2]
    cases change with
    | keep => exact h.frames
    | opens kind =>
      intro f hf
      rcases List.mem_cons.1 hf with rfl | hf
      · exact hopener kind
      · exact h.frames f hf
    | closes kind => exact fun f hf => h.frames f (List.mem_of_mem_tail hf)
  | continuation s => exact (step_frames_of_not_token hs rfl).symm ▸ h.frames
  | illegal q c => exact (step_frames_of_not_token hs rfl).symm ▸ h.frames

theorem step (h : lx.Stands text) (hs : lx.step = some (p, next)) : next.Stands text := by
  refine ⟨?_, h.step_frame hs⟩
  obtain ⟨before, after, htext, hseam, hposition⟩ := h.rest
  have hrest := step_text hs
  have hpiece : before.Seam p.text := by
    intro hl hn
    apply hseam hl
    rw [← hrest, List.head?_append, hn]
    rfl
  refine ⟨before ++ p.text, after, ?_, ?_, ?_⟩
  · rw [htext, ← hrest]
    simp only [List.append_assoc]
  · intro hl
    rw [Text.getLast?_append_right (step_text_ne_nil hs)] at hl
    exact step_seam hs hl
  · rw [step_position hs, hposition, Position.past_append {} hpiece]

theorem steps (h : lx.Stands text) (hs : Steps lx ps last) : last.Stands text := by
  induction hs with
  | nil lx => exact h
  | cons hs _ ih => exact ih (h.step hs)

theorem inside (h : lx.Stands text) (hs : lx.step = some (.token t change, next))
    (hk : t.kind = .stringLiteral) : t.inside.Stands text := by
  obtain ⟨before, after, htext, hseam, hposition⟩ := h.rest
  obtain ⟨q, inside, hq, hi, hrest, hp⟩ := step_inside hs hk
  have hquote : before.Seam [q] := by
    intro hl hn
    apply hseam hl
    rw [← step_text hs, Piece.text, hi, List.cons_append, List.head?_cons]
    exact hn
  refine ⟨⟨before ++ [q], [q] ++ (next.rest ++ after), ?_, ?_, ?_⟩,
    fun _ hf => absurd hf List.not_mem_nil⟩
  · rw [htext, ← step_text hs, Piece.text, hi, hrest]
    simp
  · intro hl
    rw [List.getLast?_concat] at hl
    exact absurd (Option.some.inj hl) hq
  · rw [hp, hposition, Position.past_append {} hquote]

/-- Every item is located, and so is the frame that is open at the end. -/
theorem yielded (h : lx.Stands text) : ∀ item ∈ lx.yielded, item.LocatedIn text := by
  intro item hitem
  rw [yielded_eq] at hitem
  rcases List.mem_append.1 hitem with hitem | hitem
  · obtain ⟨p, hp, hi⟩ := List.mem_filterMap.1 hitem
    obtain ⟨ps, qs, hrun⟩ := List.append_of_mem hp
    obtain ⟨mid, hmid, hq⟩ := (hrun ▸ lx.steps_run).split
    cases hq with
    | cons hs _ => exact (h.steps hmid).step_located hs hi
  · rw [ending?] at hitem
    split at hitem
    · cases hitem
    · obtain ⟨f, hf, rfl⟩ := Option.map_eq_some_iff.1 (Option.mem_toList.1 hitem)
      exact (h.steps lx.steps_run).frames f (List.mem_of_head? hf)

end Stands

end Lexer

end MakeTree
