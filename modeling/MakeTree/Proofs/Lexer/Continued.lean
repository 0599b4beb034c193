import MakeTree.Proofs.Lexer.Cut
import MakeTree.Proofs.Lexer.Shift

/-!
A continuation put between two pieces. The pieces in front of it are cut off as before unless the
last is a comment, which would take the backslash (`Steps.continued`); those behind it
are cut off as before, since positions decide nothing (`step_elsewhere`).
-/

namespace MakeTree

namespace Text

theorem takeWhile_length_le {p : Char → Bool} {d : Char} (hd : p d = false) (a x : Text) :
    ((a ++ d :: x).takeWhile p).length ≤ a.length := by
  rw [List.takeWhile_append]
  split
  · rw [List.takeWhile_cons_of_neg (by simp [hd]), List.append_nil]
  · exact (List.takeWhile_prefix p).length_le

end Text

namespace Shape

theorem more_le_quote {q : Char} (hq : q ≠ '\\' ∧ q ≠ '\n') (a x : Text) :
    (quote q (a ++ '\\' :: '\n' :: x)).more ≤ a.length := by
  have hle := Text.takeWhile_length_le (p := fun c => c != q && c != '\n' && c != '\r')
    (d := '\n') (by simp) (a ++ ['\\']) x
  rw [List.append_assoc, List.singleton_append, List.length_append, List.length_singleton] at hle
  simp only [quote]
  generalize ((a ++ '\\' :: '\n' :: x).takeWhile _).length = n at hle ⊢
  grind

theorem more_le_line {a : Text} (ha : ∃ d ∈ a, d = '\n' ∨ d = '\r') (x : Text) :
    (Text.line (a ++ x)).length ≤ a.length := by
  rw [Text.line, List.takeWhile_append]
  split
  · next h =>
    obtain ⟨d, hd, hb⟩ := ha
    rw [← (List.takeWhile_prefix _).eq_of_length h] at hd
    have := List.mem_takeWhile_imp hd
    rcases hb with rfl | rfl <;> simp at this
  · exact (List.takeWhile_prefix _).length_le

/-- Only a comment takes a backslash that it does not start with. -/
theorem more_le_of_continuation {frames : List Frame} {ob : Bool} {c : Char} {a : Text}
    (hc : c = '#' → ∃ d ∈ a, d = '\n' ∨ d = '\r') (x : Text) :
    (inLine frames ob c (a ++ '\\' :: '\n' :: x)).more ≤ a.length := by
  unfold inLine
  split
  · rw [dollar_eq]
    rcases a with _ | ⟨y, _ | ⟨z, a⟩⟩ <;> grind
  · rw [backslash_eq]
    rcases a with _ | ⟨y, a⟩ <;> grind
  · simp
  · simp
  · simp
  · simp
  · rw [colon_eq]
    rcases a with _ | ⟨y, _ | ⟨z, a⟩⟩ <;> grind
  · rw [beforeEquals_eq]
    rcases a with _ | ⟨y, a⟩ <;> grind
  · rw [beforeEquals_eq]
    rcases a with _ | ⟨y, a⟩ <;> grind
  · rw [beforeEquals_eq]
    rcases a with _ | ⟨y, a⟩ <;> grind
  · simp
  · exact more_le_line (hc rfl) _
  · exact more_le_quote (by decide) a x
  · exact more_le_quote (by decide) a x
  · split
    · exact Text.takeWhile_length_le rfl a _
    · split
      · rw [more_word]
        exact Text.takeWhile_length_le (by decide) a _
      · split <;> simp

end Shape

namespace Lexer

theorem shape_more_le_of_continuation {lx : Lexer} {c : Char} {a : Text}
    (hc : c = '#' → ¬ (c = lx.recipePrefix ∧ lx.atLineStart = true) →
      ∃ d ∈ a, d = '\n' ∨ d = '\r') (x : Text) :
    (lx.shape c (a ++ '\\' :: '\n' :: x)).more ≤ a.length := by
  unfold shape
  split
  · next m hm =>
    rw [Text.lineBreak?_eq] at hm
    rcases a with _ | ⟨y, a⟩ <;> grind
  · split
    · next m hm =>
      simp only [Text.continuation?_eq, Text.lineBreak?_eq] at hm
      rcases a with _ | ⟨y, _ | ⟨z, a⟩⟩ <;> grind
    · split
      · simp
      · next hp => exact Shape.more_le_of_continuation (fun h => hc h hp) x

theorem shape_comment {lx : Lexer} {a : Text}
    (hp : ¬ ('#' = lx.recipePrefix ∧ lx.atLineStart = true))
    (ha : ¬ ∃ d ∈ a, d = '\n' ∨ d = '\r') :
    lx.shape '#' a = .token .comment a.length .keep := by
  have hl : Text.line a = a := by
    refine List.takeWhile_eq_self_iff.2 fun d hd => ?_
    have hd' : ¬ (d = '\n' ∨ d = '\r') := fun h => ha ⟨d, hd, h⟩
    simpa using hd'
  unfold shape
  rw [Text.lineBreak?_eq, Text.continuation?_eq]
  simp only [List.getElem?_cons_zero]
  simp [hp, Shape.inLine, hl]

variable {lx last : Lexer} {ps : List Piece}

theorem Steps.continued (h : Steps lx ps last) (hr : last.rest = [])
    (hl : ∀ t change, ps.getLast? = some (.token t change) → t.kind ≠ .comment) (x : Text) :
    Steps (lx.extend ('\\' :: '\n' :: x)) ps (last.extend ('\\' :: '\n' :: x)) := by
  induction h with
  | nil lx => exact .nil _
  | @cons lx next last p ps hs h ih =>
    have hps : next.rest = [] → ps = [] := fun hn => by
      cases h with
      | nil => rfl
      | cons hs' _ =>
        rw [step_eq_none.2 hn] at hs'
        cases hs'
    obtain ⟨c, after, hrest, hcases⟩ := step_cases hs
    have hmore : (lx.shape c (after ++ '\\' :: '\n' :: x)).more ≤ after.length := by
      refine shape_more_le_of_continuation (fun hc hp => ?_) x
      by_contra ha
      subst hc
      have hsh := shape_comment hp ha
      obtain ⟨kind, more, change, hk, rfl, rfl⟩ | ⟨more, hk, -⟩ | ⟨hk, -⟩ := hcases
      · rw [hsh] at hk
        cases hk
        have hnil : ps = [] := hps (by simp [afterToken])
        subst hnil
        exact hl _ _ rfl rfl
      · rw [hsh] at hk
        cases hk
      · rw [hsh] at hk
        cases hk
    have hshape := shape_append hmore fun _ _ => by simp [Text.lineBreak?_eq]
    refine .cons ?_ (ih hr fun t change ht => hl t change ?_)
    · rw [step_extend_of_shape hrest hshape, hs]
      rfl
    · rw [List.getLast?_cons, ht]
      rfl

end Lexer

section Unplaced

/-- The token, as if it stood in front of the text. -/
def Token.unplaced (t : Token) : Token := { t with position := {} }

def Frame.unplaced (f : Frame) : Frame := { f with position := {} }

def LexError.unplaced : LexError → LexError
  | illegalCharacter _ c => illegalCharacter {} c
  | unterminated f => unterminated f.unplaced

def Piece.unplaced : Piece → Piece
  | token t change => token t.unplaced change
  | continuation s => continuation s
  | illegal _ c => illegal {} c

def Lexer.unplaced (lx : Lexer) : Lexer :=
  { lx with position := {}, frames := lx.frames.map Frame.unplaced }

theorem Token.unplaced_inj {t u : Token} :
    u.unplaced = t.unplaced ↔ u.kind = t.kind ∧ u.text = t.text := by
  simp [unplaced]

theorem Token.inside_unplaced {t u : Token} (h : u.unplaced = t.unplaced) :
    u.inside.unplaced = t.inside.unplaced := by
  simp only [inside, Lexer.unplaced, (unplaced_inj.1 h).2]

end Unplaced

namespace Lexer

theorem shape_unplaced (lx : Lexer) (c : Char) (after : Text) :
    lx.unplaced.shape c after = lx.shape c after := by
  have hk : (lx.frames.map Frame.unplaced).map Frame.kind = lx.frames.map Frame.kind := by
    rw [List.map_map]
    rfl
  simp only [shape, unplaced, Shape.inLine_congr hk]

theorem step_unplaced (lx : Lexer) :
    (lx.unplaced.step.map fun r => (r.1.unplaced, r.2.unplaced)) =
      lx.step.map fun r => (r.1.unplaced, r.2.unplaced) := by
  unfold step
  have hr : lx.unplaced.rest = lx.rest := rfl
  have hf : Frame.unplaced ∘ Frame.unplaced = Frame.unplaced := rfl
  rw [hr]
  split
  · rfl
  · rw [shape_unplaced]
    simp only [Option.map_some, Option.some.injEq]
    split
    · next kind more change _ =>
      refine Prod.ext rfl ?_
      cases change <;>
        simp [afterToken, unplaced, FrameChange.apply, Frame.unplaced, List.map_tail, hf]
    · simp [unplaced, Piece.unplaced, hf]
    · simp [unplaced, Piece.unplaced, hf]

theorem step_elsewhere {lx ly next : Lexer} {p : Piece} (h : ly.unplaced = lx.unplaced)
    (hs : lx.step = some (p, next)) : ∃ q next', ly.step = some (q, next') ∧
      q.unplaced = p.unplaced ∧ next'.unplaced = next.unplaced := by
  have hy := step_unplaced ly
  rw [h, step_unplaced, hs] at hy
  obtain ⟨⟨q, next'⟩, hq, he⟩ := Option.map_eq_some_iff.1 hy.symm
  obtain ⟨h₁, h₂⟩ := Prod.mk.inj he
  exact ⟨q, next', hq, h₁, h₂⟩

/-- A continuation is passed over, and the lexer goes on as it would have. -/
theorem step_inserted (lx : Lexer) : ∃ next,
    (lx.withRest ('\\' :: '\n' :: lx.rest)).step = some (.continuation ['\\', '\n'], next) ∧
      next.unplaced = lx.unplaced := by
  refine ⟨_, rfl, rfl⟩

end Lexer

end MakeTree
