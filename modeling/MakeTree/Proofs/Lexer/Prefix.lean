import MakeTree.Proofs.Lexer.Cut
import MakeTree.Proofs.Lexer.Endings

/-!
The recipe prefix. With another character for it, which no line may start with, a text is cut into
the same pieces (`Mirrors.step`): at the start of a line that character wins over all that it could
else be the start of, and nowhere else is it looked for. On a line the two texts are the same but
for what it starts with (`sameLine`), and no piece that starts on a line looks beyond it.
-/

namespace MakeTree

/-- What is displayed of a position. -/
def Position.shown (p : Position) : Position := ⟨p.line, p.column, 0⟩

theorem Position.shown_eq {p p' : Position} (h : p'.shown = p.shown) :
    p'.line = p.line ∧ p'.column = p.column := by
  simpa [shown] using h

def Token.shown (t : Token) : Token := { t with position := t.position.shown }

def Frame.shown (f : Frame) : Frame := { f with position := f.position.shown }

def Piece.shown : Piece → Piece
  | token t change => token t.shown change
  | continuation s => continuation s
  | illegal p c => illegal p.shown c

theorem Token.shown_eq {t u : Token} (h : u.shown = t.shown) :
    u.kind = t.kind ∧ u.text = t.text ∧ u.position.shown = t.position.shown := by
  simpa [shown] using h

/-- The token with `q` for its text if it is a recipe prefix. -/
def Token.withPrefix (q : Char) (t : Token) : Token :=
  { t with text := if t.kind = .recipePrefix then [q] else t.text }

def Piece.withPrefix (q : Char) : Piece → Piece
  | token t change => token (t.withPrefix q) change
  | p => p

namespace Piece

def isRecipePrefix : Piece → Bool
  | token t _ => t.kind == .recipePrefix
  | _ => false

def isLineBreak : Piece → Bool
  | token t _ => t.kind == .lineBreak
  | _ => false

/-- The characters that lines start with, behind continuations if there are any in front. The first
piece starts a line if `fresh`. -/
def lineHeads (fresh : Bool) : List Piece → List Char
  | [] => []
  | continuation _ :: ps => lineHeads fresh ps
  | p :: ps => (if fresh then p.text.take 1 else []) ++ lineHeads p.isLineBreak ps

theorem withPrefix_of_ne {q : Char} {p : Piece} (h : p.isRecipePrefix = false) :
    p.withPrefix q = p := by
  cases p with
  | token t change =>
    have hk : t.kind ≠ .recipePrefix := by simpa [isRecipePrefix] using h
    rw [withPrefix, Token.withPrefix, if_neg hk]
  | continuation s => rfl
  | illegal q c => rfl

end Piece

namespace Position

theorem shown_shift (b : Nat) (p : Position) : (p.shift 0 b).shown = p.shown := rfl

theorem shown_past (p : Position) (t : Text) : (p.past t).shown = (p.shown.past t).shown := by
  have hp : p = p.shown.shift 0 p.offset := by simp [shown, shift]
  conv_lhs => rw [hp, past_shift, shown_shift]

end Position

theorem FrameChange.shown_apply (change : FrameChange) (p : Position) (fs : List Frame) :
    (change.apply p fs).map Frame.shown = change.apply p.shown (fs.map Frame.shown) := by
  cases change with
  | keep => rfl
  | opens kind => rfl
  | closes kind => exact List.map_tail

namespace Text

/-- The same up to the first line break, and that too. -/
def SameLine (a b : Text) : Prop :=
  a = b ∨ ∃ s d x y, (d = '\n' ∨ d = '\r') ∧ a = s ++ d :: x ∧ b = s ++ d :: y ∧
    (x.head? = some '\n' ↔ y.head? = some '\n')

namespace SameLine

variable {a b : Text}

theorem append (h : SameLine a b) (t : Text) : SameLine (t ++ a) (t ++ b) := by
  rcases h with rfl | ⟨s, d, x, y, hd, rfl, rfl, hx⟩
  · exact .inl rfl
  · exact .inr ⟨t ++ s, d, x, y, hd, by simp, by simp, hx⟩

theorem of_break {t : Text} (ht : t.IsLineBreak) (h : a.head? = some '\n' ↔ b.head? = some '\n') :
    SameLine (t ++ a) (t ++ b) := by
  rcases ht with rfl | rfl | rfl
  · exact .inr ⟨[], '\n', a, b, .inl rfl, rfl, rfl, h⟩
  · exact .inr ⟨[], '\r', a, b, .inr rfl, rfl, rfl, h⟩
  · exact .inr ⟨[], '\r', '\n' :: a, '\n' :: b, .inr rfl, rfl, rfl, by simp⟩

theorem tail {c : Char} (h : SameLine (c :: a) (c :: b)) (hc : c ≠ '\n' ∧ c ≠ '\r') :
    SameLine a b := by
  rcases h with h | ⟨s, d, x, y, hd, ha, hb, hx⟩
  · exact .inl (List.cons.inj h).2
  · cases s with
    | nil =>
      obtain ⟨rfl, -⟩ := List.cons.inj ha
      exact absurd hd (not_or.2 hc)
    | cons e s => exact .inr ⟨s, d, x, y, hd, (List.cons.inj ha).2, (List.cons.inj hb).2, hx⟩

theorem eq (h : SameLine a b) (ha : ∀ c ∈ a, c ≠ '\n' ∧ c ≠ '\r') : a = b := by
  rcases h with h | ⟨s, d, x, y, hd, rfl, -⟩
  · exact h
  · exact absurd hd (not_or.2 (ha d (by simp)))

theorem lineBreak? (h : SameLine a b) : Text.lineBreak? a = Text.lineBreak? b := by
  rcases h with rfl | ⟨s, d, x, y, -, rfl, rfl, hx⟩
  · rfl
  · simp only [List.head?_eq_getElem?] at hx
    rw [lineBreak?_eq, lineBreak?_eq]
    rcases s with _ | ⟨e, _ | ⟨e', s⟩⟩ <;> simp [hx]

theorem continuation? {c : Char} (h : SameLine (c :: a) (c :: b)) :
    Text.continuation? (c :: a) = Text.continuation? (c :: b) := by
  rw [continuation?_eq, continuation?_eq]
  simp only [List.getElem?_cons_zero, List.tail_cons]
  split
  · next hc =>
    obtain rfl := Option.some.inj hc
    rw [(h.tail (by decide)).lineBreak?]
  · rfl

theorem inLine (h : SameLine a b) (frames : List Frame) (ob : Bool) (c : Char) :
    Shape.inLine frames ob c a = Shape.inLine frames ob c b := by
  rcases h with rfl | ⟨s, d, x, y, hd, rfl, rfl, -⟩
  · rfl
  · exact Shape.inLine_break hd hd x y

end SameLine

end Text

theorem Shape.inLine_ne_recipePrefix (frames : List Frame) (ob : Bool) (c : Char) (t : Text)
    (m : Nat) (change : FrameChange) :
    Shape.inLine frames ob c t ≠ .token .recipePrefix m change := by
  intro h
  simp only [inLine, dollar_eq, backslash_eq, colon_eq, beforeEquals_eq, quote, closing, opening,
    word, plain, assign] at h
  repeat' split at h
  all_goals cases h

namespace Lexer

variable {lx next : Lexer} {p : Piece}

theorem step_head? {c : Char} {after : Text} (h : lx.step = some (p, next))
    (hr : lx.rest = c :: after) : p.text.head? = some c := by
  obtain ⟨d, s, ht⟩ := List.exists_cons_of_ne_nil (step_text_ne_nil h)
  have := step_text h
  rw [ht, hr] at this
  rw [ht, (List.cons.inj this).1]
  rfl

theorem step_isRecipePrefix (h : lx.step = some (p, next)) (hp : p.isRecipePrefix = true) :
    p = .token ⟨.recipePrefix, [lx.recipePrefix], lx.position⟩ .keep ∧
      next = lx.afterToken ⟨.recipePrefix, [lx.recipePrefix], lx.position⟩ .keep next.rest ∧
      lx.atLineStart = true ∧ lx.recipePrefix ≠ '\n' ∧ lx.recipePrefix ≠ '\r' := by
  obtain ⟨c, after, -, ⟨kind, more, change, hs, rfl, rfl⟩ | ⟨_, -, rfl, -⟩ | ⟨-, rfl, -⟩⟩ :=
    step_cases h
  · obtain rfl : kind = .recipePrefix := by simpa [Piece.isRecipePrefix] using hp
    have hb : Text.lineBreak? (c :: after) = none := by
      obtain ⟨_, -, he⟩ | ⟨_, -, -, he⟩ | ⟨hb, -⟩ := lx.shape_cases c after
      · rw [he] at hs; cases hs
      · rw [he] at hs; cases hs
      · exact hb
    obtain ⟨rfl, hl, rfl, rfl⟩ :
        c = lx.recipePrefix ∧ lx.atLineStart = true ∧ more = 0 ∧ change = .keep := by
      unfold shape at hs
      rw [hb] at hs
      simp only at hs
      split at hs
      · cases hs
      · split at hs
        · next hc => cases hs; exact ⟨hc.1, hc.2, rfl, rfl⟩
        · exact absurd hs (Shape.inLine_ne_recipePrefix _ _ _ _ _ _)
    exact ⟨rfl, rfl, hl, Text.ne_break_of_lineBreak?_eq_none hb⟩
  · cases hp
  · cases hp

theorem step_ordinary {c : Char} {after : Text} (h : lx.step = some (p, next))
    (hp : p.isRecipePrefix = false) (hr : lx.rest = c :: after)
    (hb : Text.lineBreak? (c :: after) = none) (hc : Text.continuation? (c :: after) = none) :
    ¬ (c = lx.recipePrefix ∧ lx.atLineStart = true) ∧ ∀ s, p ≠ .continuation s := by
  obtain ⟨c', after', hr', hcases⟩ := step_cases h
  obtain ⟨rfl, rfl⟩ := List.cons.inj (hr.symm.trans hr')
  simp only [shape, hb, hc] at hcases
  have hhead : ¬ (c = lx.recipePrefix ∧ lx.atLineStart = true) := by
    intro hl
    rw [if_pos hl] at hcases
    obtain ⟨_, _, _, he, rfl, -⟩ | ⟨_, he, -⟩ | ⟨he, -⟩ := hcases
    · cases he
      cases hp
    · cases he
    · cases he
  have hsound := Shape.sound_inLine lx.frames lx.onlyBlanks c after
  rw [if_neg hhead] at hcases
  refine ⟨hhead, ?_⟩
  rintro s rfl
  obtain ⟨_, _, _, -, hpiece, -⟩ | ⟨_, he, -⟩ | ⟨-, hpiece, -⟩ := hcases
  · cases hpiece
  · rw [he] at hsound
    exact hsound
  · cases hpiece

theorem isRecipePrefix_eq_false (h : lx.step = some (p, next)) (hl : lx.atLineStart = false) :
    p.isRecipePrefix = false := by
  by_contra hp
  have := (step_isRecipePrefix h (Bool.not_eq_false _ ▸ hp)).2.2.1
  rw [hl] at this
  cases this

theorem step_fresh (h : lx.step = some (p, next)) : next.atLineStart =
    match p with
    | .continuation _ => lx.atLineStart
    | p => p.isLineBreak := by
  obtain ⟨c, after, -, ⟨_, _, _, -, rfl, rfl⟩ | ⟨_, -, rfl, rfl⟩ | ⟨-, rfl, rfl⟩⟩ :=
    step_cases h <;> rfl

/-- The text with `q` in place of every recipe prefix. -/
def textWithPrefix (q : Char) (lx : Lexer) : Text := lx.run.1.flatMap fun p => (p.withPrefix q).text

/-- The characters that the lines of the text start with. -/
def lineHeads (lx : Lexer) : List Char := Piece.lineHeads lx.atLineStart lx.run.1

theorem textWithPrefix_of_rest {q : Char} (h : lx.rest = []) : lx.textWithPrefix q = [] := by
  rw [textWithPrefix, run_of_rest h]
  rfl

theorem textWithPrefix_step (q : Char) (h : lx.step = some (p, next)) :
    lx.textWithPrefix q = (p.withPrefix q).text ++ next.textWithPrefix q := by
  rw [textWithPrefix, (Steps.cons h (.nil _)).run]
  rfl

theorem lineHeads_step (h : lx.step = some (p, next)) : lx.lineHeads =
    match p with
    | .continuation _ => next.lineHeads
    | p => (if lx.atLineStart then p.text.take 1 else []) ++ next.lineHeads := by
  have hf := step_fresh h
  rw [lineHeads, (Steps.cons h (.nil _)).run, lineHeads]
  cases p with
  | token t change => rw [hf]; rfl
  | continuation s => rw [show next.atLineStart = lx.atLineStart from hf]; rfl
  | illegal q c => rw [hf]; rfl

theorem lineHeads_subset (h : lx.step = some (p, next)) : next.lineHeads ⊆ lx.lineHeads := by
  rw [lineHeads_step h]
  cases p with
  | token t change => exact List.subset_append_right _ _
  | continuation s => exact List.Subset.refl _
  | illegal q c => exact List.subset_append_right _ _

theorem head_mem_lineHeads {c : Char} (h : lx.step = some (p, next)) (hl : lx.atLineStart = true)
    (hc : ∀ s, p ≠ .continuation s) (hp : p.text.head? = some c) : c ∈ lx.lineHeads := by
  obtain ⟨s, hs⟩ := List.head?_eq_some_iff.1 hp
  rw [lineHeads_step h]
  cases p with
  | token t change => simp [hl, hs]
  | continuation s => exact absurd rfl (hc s)
  | illegal q d => simp [hl, hs]

section SameLine

variable {q : Char} (hq : q ≠ '\n')

include hq

theorem head?_textWithPrefix (lx : Lexer) :
    lx.rest.head? = some '\n' ↔ (lx.textWithPrefix q).head? = some '\n' := by
  cases hs : lx.step with
  | none =>
    have hr := step_eq_none.1 hs
    rw [hr, textWithPrefix_of_rest hr]
  | some r =>
    obtain ⟨p, next⟩ := r
    rw [textWithPrefix_step q hs, ← step_text hs]
    cases hp : p.isRecipePrefix with
    | true =>
      obtain ⟨rfl, -, -, hb, -⟩ := step_isRecipePrefix hs hp
      simp [Piece.withPrefix, Token.withPrefix, Piece.text, hb, hq]
    | false =>
      obtain ⟨c, s, ht⟩ := List.exists_cons_of_ne_nil (step_text_ne_nil hs)
      rw [Piece.withPrefix_of_ne hp, ht]
      rfl

theorem sameLine (lx : Lexer)
    (h : ∀ p next, lx.step = some (p, next) → p.isRecipePrefix = false) :
    Text.SameLine lx.rest (lx.textWithPrefix q) := by
  have hs := lx.steps_run
  have hr := lx.run_rest
  generalize lx.run.1 = ps at hs
  generalize lx.run.2 = last at hs hr
  induction hs with
  | nil lx => exact .inl (by rw [hr, textWithPrefix_of_rest hr])
  | @cons lx next last p ps hs _ ih =>
    rw [textWithPrefix_step q hs, Piece.withPrefix_of_ne (h p next hs), ← step_text hs]
    have hbreak := head?_textWithPrefix hq next
    have hline (hf : next.atLineStart = false) :
        Text.SameLine (p.text ++ next.rest) (p.text ++ next.textWithPrefix q) := by
      exact (ih (fun p' next' hs' => isRecipePrefix_eq_false hs' hf) hr).append _
    have hfresh := step_fresh hs
    cases p with
    | token t change =>
      by_cases hk : t.kind = .lineBreak
      · exact .of_break (step_lineBreak hs hk).1 hbreak
      · exact hline (by rw [hfresh]; simpa [Piece.isLineBreak] using hk)
    | continuation s =>
      obtain ⟨b, hb, rfl, -⟩ := step_continuation hs
      exact (Text.SameLine.of_break hb hbreak).append ['\\']
    | illegal q c => exact hline hfresh

end SameLine

/-- No line ends or starts in what is left of the text. -/
def OneLine (lx : Lexer) : Prop := lx.atLineStart = false ∧ ∀ c ∈ lx.rest, c ≠ '\n' ∧ c ≠ '\r'

theorem OneLine.step (h : lx.OneLine) (hs : lx.step = some (p, next)) : next.OneLine := by
  obtain ⟨hl, hb⟩ := h
  rw [← step_text hs] at hb
  refine ⟨?_, fun c hc => hb c (List.mem_append_right _ hc)⟩
  have hf := step_fresh hs
  cases p with
  | token t change =>
    by_cases hk : t.kind = .lineBreak
    · rcases (step_lineBreak hs hk).1 with h | h | h <;> simp [Piece.text, h] at hb
    · rw [hf]
      simpa [Piece.isLineBreak] using hk
  | continuation s => exact hf.trans hl
  | illegal q c => exact hf

/-- `ly` reads with the recipe prefix `q` what `lx` reads with its own. -/
structure Mirrors (q : Char) (lx ly : Lexer) : Prop where
  rest : ly.rest = lx.textWithPrefix q
  position : ly.position.shown = lx.position.shown
  frames : ly.frames.map Frame.shown = lx.frames.map Frame.shown
  atLineStart : ly.atLineStart = lx.atLineStart
  onlyBlanks : ly.onlyBlanks = lx.onlyBlanks
  recipePrefix : (ly.recipePrefix = q ∧ (q = lx.recipePrefix ∨ q ∉ lx.lineHeads)) ∨ lx.OneLine

namespace Mirrors

variable {q : Char} {ly : Lexer}

theorem shape (h : Mirrors q lx ly) (hq : q ≠ '\n') (hs : lx.step = some (p, next))
    (hp : p.isRecipePrefix = false) {c : Char} {after after' : Text} (hr : lx.rest = c :: after)
    (hr' : ly.rest = c :: after') : ly.shape c after' = lx.shape c after := by
  have hsame : Text.SameLine (c :: after) (c :: after') := by
    rw [← hr, ← hr', h.rest]
    refine sameLine hq lx fun p' next' hs' => ?_
    cases hs.symm.trans hs'
    exact hp
  have hk : ly.frames.map Frame.kind = lx.frames.map Frame.kind := by
    have := congrArg (List.map Frame.kind) h.frames
    rwa [List.map_map, List.map_map] at this
  unfold Lexer.shape
  rw [← hsame.lineBreak?, ← hsame.continuation?]
  cases hb : Text.lineBreak? (c :: after) with
  | some m => rfl
  | none =>
    cases hc : Text.continuation? (c :: after) with
    | some m => rfl
    | none =>
      obtain ⟨hlx, hcont⟩ := step_ordinary hs hp hr hb hc
      have hly : ¬ (c = ly.recipePrefix ∧ ly.atLineStart = true) := by
        rintro ⟨rfl, hl⟩
        rw [h.atLineStart] at hl
        rcases h.recipePrefix with ⟨rfl, he | he⟩ | ho
        · exact hlx ⟨he, hl⟩
        · exact he (head_mem_lineHeads hs hl hcont (step_head? hs hr))
        · rw [ho.1] at hl
          cases hl
      simp only
      rw [if_neg hlx, if_neg hly, Shape.inLine_congr hk, h.onlyBlanks,
        (hsame.tail (Text.ne_break_of_lineBreak?_eq_none hb)).inLine]

theorem recipePrefix_step (h : Mirrors q lx ly) (hs : lx.step = some (p, next)) :
    (ly.recipePrefix = q ∧ (q = next.recipePrefix ∨ q ∉ next.lineHeads)) ∨ next.OneLine := by
  rw [step_recipePrefix hs]
  refine h.recipePrefix.imp (And.imp_right (Or.imp_right fun hq hm => ?_)) (·.step hs)
  exact hq (lineHeads_subset hs hm)

theorem afterToken {t u : Token} {change : FrameChange} {rest : Text} (h : Mirrors q lx ly)
    (hs : lx.step = some (.token t change, lx.afterToken t change rest))
    (hk : u.kind = t.kind) (hu : u.position.shown = t.position.shown)
    (hp : (ly.position.past u.text).shown = (lx.position.past t.text).shown) :
    Mirrors q (lx.afterToken t change rest)
      (ly.afterToken u change ((lx.afterToken t change rest).textWithPrefix q)) where
  rest := rfl
  position := hp
  frames := by
    show (change.apply u.position ly.frames).map _ = (change.apply t.position lx.frames).map _
    rw [FrameChange.shown_apply, FrameChange.shown_apply, hu, h.frames]
  atLineStart := by
    show (u.kind == .lineBreak) = (t.kind == .lineBreak)
    rw [hk]
  onlyBlanks := by
    show (u.kind == .lineBreak || (ly.onlyBlanks && u.kind.isLeading)) =
      (t.kind == .lineBreak || (lx.onlyBlanks && t.kind.isLeading))
    rw [hk, h.onlyBlanks]
  recipePrefix := h.recipePrefix_step hs

theorem step_prefix (h : Mirrors q lx ly) (hq : q ≠ '\n' ∧ q ≠ '\r' ∧ q ≠ '\\')
    (hs : lx.step = some (p, next)) (hp : p.isRecipePrefix = true) :
    ∃ p' next', ly.step = some (p', next') ∧ p'.shown = (p.withPrefix q).shown ∧
      Mirrors q next next' := by
  obtain ⟨rfl, hn, hl, hb⟩ := step_isRecipePrefix hs hp
  have hpre : ly.recipePrefix = q := by
    refine h.recipePrefix.elim (·.1) fun ho => ?_
    rw [ho.1] at hl
    cases hl
  have hr : ly.rest = q :: next.textWithPrefix q := by
    rw [h.rest, textWithPrefix_step q hs]
    rfl
  have hshape : ly.shape q (next.textWithPrefix q) = .token .recipePrefix 0 .keep := by
    unfold Lexer.shape
    rw [Text.lineBreak?_eq, Text.continuation?_eq]
    simp [hq, hpre, h.atLineStart, hl]
  refine ⟨.token ⟨.recipePrefix, [q], ly.position⟩ .keep,
    ly.afterToken ⟨.recipePrefix, [q], ly.position⟩ .keep (next.textWithPrefix q), ?_, ?_, ?_⟩
  · unfold Lexer.step
    rw [hr]
    simp [hshape]
  · simp [Piece.shown, Piece.withPrefix, Token.withPrefix, Token.shown, h.position]
  · rw [hn] at hs ⊢
    refine h.afterToken hs rfl h.position ?_
    rw [Position.past_cons hq.2.1 hq.1, Position.past_cons hb.2 hb.1]
    obtain ⟨hline, hcolumn⟩ := Position.shown_eq h.position
    simp [Position.past, Position.nextColumn, Position.shown, hline, hcolumn]

theorem step_other (h : Mirrors q lx ly) (hq : q ≠ '\n') (hs : lx.step = some (p, next))
    (hp : p.isRecipePrefix = false) :
    ∃ p' next', ly.step = some (p', next') ∧ p'.shown = (p.withPrefix q).shown ∧
      Mirrors q next next' := by
  have htext := textWithPrefix_step q hs
  rw [Piece.withPrefix_of_ne hp] at htext ⊢
  obtain ⟨c, after, hr, hcases⟩ := step_cases hs
  have hlen := List.length_take_of_le (lx.shape_more_le c after)
  have hpiece : p.text = c :: after.take (lx.shape c after).more := by
    obtain ⟨_, _, _, he, rfl, -⟩ | ⟨_, he, rfl, -⟩ | ⟨he, rfl, -⟩ := hcases <;> rw [he] <;> rfl
  have hr' : ly.rest = c :: (after.take (lx.shape c after).more ++ next.textWithPrefix q) := by
    rw [h.rest, htext, hpiece, List.cons_append]
  have hshape := h.shape hq hs hp hr hr'
  have htake : (after.take (lx.shape c after).more ++ next.textWithPrefix q).take
      (lx.shape c after).more = after.take (lx.shape c after).more := List.take_left' hlen
  have hdrop : (after.take (lx.shape c after).more ++ next.textWithPrefix q).drop
      (lx.shape c after).more = next.textWithPrefix q := List.drop_left' hlen
  have hpast (t : Text) : (ly.position.past t).shown = (lx.position.past t).shown := by
    rw [Position.shown_past, h.position, ← Position.shown_past]
  have hpre := h.recipePrefix_step hs
  unfold Lexer.step
  rw [hr']
  simp only [hshape]
  obtain ⟨kind, m, change, he, rfl, rfl⟩ | ⟨m, he, rfl, rfl⟩ | ⟨he, rfl, rfl⟩ := hcases
  · simp only [he, Shape.more_token] at htake hdrop ⊢
    rw [htake, hdrop]
    refine ⟨_, _, rfl, ?_, ?_⟩
    · simp [Piece.shown, Token.shown, h.position]
    · exact h.afterToken hs rfl h.position (hpast _)
  · simp only [he, Shape.more_continuation] at htake hdrop ⊢
    rw [htake, hdrop]
    exact ⟨_, _, rfl, rfl, rfl, hpast _, h.frames, h.atLineStart, h.onlyBlanks, hpre⟩
  · simp only [he, Shape.more_illegal, List.take_zero, List.nil_append] at hdrop ⊢
    refine ⟨_, _, rfl, ?_, rfl, hpast _, h.frames, rfl, rfl, hpre⟩
    simp [Piece.shown, h.position]

/-- The next piece is the same, but for the text of a recipe prefix, and so is what follows. -/
theorem step (h : Mirrors q lx ly) (hq : q ≠ '\n' ∧ q ≠ '\r' ∧ q ≠ '\\')
    (hs : lx.step = some (p, next)) :
    ∃ p' next', ly.step = some (p', next') ∧ p'.shown = (p.withPrefix q).shown ∧
      Mirrors q next next' := by
  cases hp : p.isRecipePrefix with
  | true => exact h.step_prefix hq hs hp
  | false => exact h.step_other hq.1 hs hp

theorem inside {t u : Token} (hq : q ≠ '\n') (hu : u.shown = t.shown)
    (hb : ∀ c ∈ t.text, c ≠ '\n' ∧ c ≠ '\r') : Mirrors q t.inside u.inside := by
  have ho : t.inside.OneLine := ⟨rfl, fun c hc => hb c (inside_subset hc)⟩
  have hrest := (sameLine hq t.inside fun p next hs => isRecipePrefix_eq_false hs ho.1).eq ho.2
  obtain ⟨-, htext, hposition⟩ := Token.shown_eq hu
  obtain ⟨hline, hcolumn⟩ := Position.shown_eq hposition
  refine ⟨?_, ?_, rfl, rfl, rfl, .inr ho⟩
  · rw [← hrest, Token.inside, Token.inside, htext]
  · simp [Token.inside, Position.shown, hline, hcolumn]

end Mirrors

end Lexer

end MakeTree
