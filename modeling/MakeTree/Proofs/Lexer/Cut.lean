import MakeTree.Proofs.Lexer.Run

/-!
Texts put together and taken apart. A text that ends with a line break is cut into the same
pieces whatever follows it (`Steps.extend`), and so is the text of some first pieces when the rest
is taken away (`Steps.truncate`).
-/

namespace MakeTree

namespace Lexer

/-- The lexer with `x` behind its text. -/
def extend (lx : Lexer) (x : Text) : Lexer := { lx with rest := lx.rest ++ x }

/-- The lexer with the text `t` in place of its own. -/
def withRest (lx : Lexer) (t : Text) : Lexer := { lx with rest := t }

@[simp] theorem extend_rest (lx : Lexer) (x : Text) : (lx.extend x).rest = lx.rest ++ x := rfl

@[simp] theorem withRest_rest (lx : Lexer) (t : Text) : (lx.withRest t).rest = t := rfl

theorem withRest_extend (lx : Lexer) (t x : Text) :
    (lx.withRest t).extend x = lx.withRest (t ++ x) := rfl

theorem withRest_self {lx : Lexer} {t : Text} (h : lx.rest = t) : lx.withRest t = lx := by
  subst h
  rfl

theorem shape_extend (lx : Lexer) (x : Text) (c : Char) (after : Text) :
    (lx.extend x).shape c after = lx.shape c after := rfl

variable {lx next : Lexer} {p : Piece} {x : Text}

theorem step_extend_of_shape {c : Char} {after : Text} (hr : lx.rest = c :: after)
    (hs : lx.shape c (after ++ x) = lx.shape c after) :
    (lx.extend x).step = lx.step.map fun r => (r.1, r.2.extend x) := by
  have hm := lx.shape_more_le c after
  unfold step
  rw [extend_rest, hr, List.cons_append]
  simp only [Option.map_some, Option.some.injEq, shape_extend, hs]
  split
  · next kind more change h =>
    rw [h, Shape.more_token] at hm
    simp [List.take_append_of_le_length hm, List.drop_append_of_le_length hm, extend, afterToken]
  · next more h =>
    rw [h, Shape.more_continuation] at hm
    simp [List.take_append_of_le_length hm, List.drop_append_of_le_length hm, extend]
  · simp [extend]

theorem step_extend (h : lx.step = some (p, next)) (hx : lx.rest.EndsLine x) :
    (lx.extend x).step = some (p, next.extend x) := by
  obtain ⟨c, after, hr, -⟩ := step_cases h
  rw [hr] at hx
  rw [step_extend_of_shape hr, h]
  · rfl
  · refine shape_append (shape_more_le_of_endsLine hx) fun hc ha => ?_
    subst hc ha
    simp [Text.EndsLine] at hx

theorem Steps.extend {last : Lexer} {ps : List Piece} (h : Steps lx ps last)
    (hx : lx.rest = [] ∨ lx.rest.EndsLine x) : Steps (lx.extend x) ps (last.extend x) := by
  induction h with
  | nil lx => exact .nil _
  | @cons lx next last p ps hs h ih =>
    have hx : lx.rest.EndsLine x := by
      refine hx.resolve_left fun h0 => ?_
      rw [step_eq_none.2 h0] at hs
      cases hs
    refine .cons (step_extend hs hx) (ih ?_)
    rw [← step_text hs] at hx
    exact or_iff_not_imp_left.2 hx.of_suffix

theorem step_text_length {c : Char} {after : Text} (h : lx.step = some (p, next))
    (hr : lx.rest = c :: after) : p.text.length = (lx.shape c after).more + 1 := by
  have hm := lx.shape_more_le c after
  obtain ⟨c', after', hr', h'⟩ := step_cases h
  obtain ⟨rfl, rfl⟩ := List.cons.inj (hr.symm.trans hr')
  obtain ⟨_, _, _, hs, rfl, -⟩ | ⟨_, hs, rfl, -⟩ | ⟨hs, rfl, -⟩ := h'
  · rw [hs, Shape.more_token] at hm
    simp [hs, Piece.text, Nat.min_eq_left hm]
  · rw [hs, Shape.more_continuation] at hm
    simp [hs, Piece.text, Nat.min_eq_left hm]
  · simp [hs, Piece.text]

/-- A dollar sign and a backslash are not the end of a piece when a line break follows: the
backslash belongs to the line break. -/
theorem not_lineBreak?_of_dollar {last : Lexer} {ps : List Piece} (h : lx.step = some (p, next))
    (hs : Steps next ps last) (hr : lx.rest = '$' :: '\\' :: last.rest) :
    ¬ (Text.lineBreak? last.rest).isSome := by
  intro hb
  have hb' := Text.lineBreak?_isSome.1 hb
  have hp : p.text.length = 1 := by
    rw [step_text_length h hr]
    obtain ⟨_, hb, -⟩ | ⟨_, -, hc, -⟩ | ⟨-, -, he | he⟩ := lx.shape_cases '$' ('\\' :: last.rest)
    · simp [Text.lineBreak?_eq] at hb
    · simp [Text.continuation?_eq] at hc
    · simp [he]
    · rw [he]
      simp [Shape.inLine, Shape.dollar_eq, hb']
  have ht := step_text h
  rw [← hs.text, hr] at ht
  have hps : ps.flatMap Piece.text = ['\\'] := by
    obtain ⟨d, hd⟩ := List.length_eq_one_iff.1 hp
    rw [hd, List.singleton_append] at ht
    exact List.append_cancel_right (List.cons.inj ht).2
  have hn : next.rest = '\\' :: last.rest := by
    rw [← hs.text, hps]
    rfl
  cases hs with
  | nil => simp at hps
  | @cons _ _ _ q qs hq _ =>
    have hl := step_text_length hq hn
    have hle : q.text.length ≤ 1 := by
      have := congrArg List.length hps
      simp only [List.flatMap_cons, List.length_append, List.length_singleton] at this
      omega
    obtain ⟨m, hm⟩ := Option.isSome_iff_exists.1 hb
    have : next.shape '\\' last.rest = .continuation (m + 1) := by
      unfold shape
      rw [Text.lineBreak?_eq, Text.continuation?_eq]
      simp [hm]
    rw [this, Shape.more_continuation] at hl
    omega

/-- A step does not depend on what follows the pieces after it. -/
theorem step_truncate {last : Lexer} {ps : List Piece} (h : lx.step = some (p, next))
    (hs : Steps next ps last) :
    (lx.withRest (p.text ++ ps.flatMap Piece.text)).step =
      some (p, next.withRest (ps.flatMap Piece.text)) := by
  obtain ⟨c, after, hr, -⟩ := step_cases h
  have hl := step_text_length h hr
  have ht := step_text h
  rw [← hs.text, ← List.append_assoc] at ht
  obtain ⟨a, ha⟩ : ∃ a, p.text ++ ps.flatMap Piece.text = c :: a := by
    cases hp : p.text with
    | nil => exact absurd hp (step_text_ne_nil h)
    | cons d s =>
      rw [hp, hr] at ht
      exact ⟨s ++ ps.flatMap Piece.text, by simp_all⟩
  have hafter : after = a ++ last.rest := by
    rw [ha, hr, List.cons_append] at ht
    exact (List.cons.inj ht).2.symm
  have hle : (lx.shape c after).more ≤ a.length := by
    have := congrArg List.length ha
    simp only [List.length_append, List.length_cons] at this
    omega
  rw [hafter] at hle
  have hsh := shape_append hle fun hc hb => not_lineBreak?_of_dollar h hs (by
    rw [hr, hafter, hc, hb]
    rfl)
  have hst : ((lx.withRest (c :: a)).extend last.rest).step =
      (lx.withRest (c :: a)).step.map fun r => (r.1, r.2.extend last.rest) :=
    step_extend_of_shape rfl hsh
  rw [withRest_extend, List.cons_append, ← hafter, ← hr, withRest_self rfl, h] at hst
  obtain ⟨r, hr', he⟩ := Option.map_eq_some_iff.1 hst.symm
  obtain ⟨q, m⟩ := r
  obtain ⟨rfl, rfl⟩ := Prod.mk.inj he
  rw [ha, hr']
  have hm : m.rest = ps.flatMap Piece.text := by
    have := hs.text
    rw [extend_rest] at this
    exact (List.append_cancel_right this).symm
  rw [← withRest_self hm]
  rfl

theorem Steps.truncate {last : Lexer} {ps : List Piece} (h : Steps lx ps last) :
    Steps (lx.withRest (ps.flatMap Piece.text)) ps (last.withRest []) := by
  induction h with
  | nil lx => exact .nil _
  | cons h hs ih => exact .cons (step_truncate h hs) ih

end Lexer

end MakeTree
