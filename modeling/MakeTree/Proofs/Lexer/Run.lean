import Mathlib.Data.List.Basic
import MakeTree.Proofs.Lexer.Shape
import MakeTree.Token.Scan

/-!
What one step of the lexer does (`step_cases`, `shape_cases`) and what follows for the pieces it
cuts. A run is a chain of steps, `Steps`; facts about runs are proved by induction on it.
-/

namespace MakeTree

/-- Whether a token of this kind may change the frames `frames` this way. -/
def FrameChange.Fits (frames : List Frame) (kind : TokenKind) : FrameChange → Prop
  | keep => kind ≠ .expansionPrefix ∧ kind ≠ .expansionSuffix
  | opens .expansion => kind = .expansionPrefix
  | closes .expansion => kind = .expansionSuffix ∧ frames.head?.map Frame.kind = some .expansion
  | opens .literalParen => kind = .plainText ∧ frames ≠ []
  | closes .literalParen => kind = .plainText ∧ frames.head?.map Frame.kind = some .literalParen

namespace Text

def IsLineBreak (t : Text) : Prop := t = ['\n'] ∨ t = ['\r'] ∨ t = ['\r', '\n']

/-- `t` ends with a line break that does not go on in `x`. -/
def EndsLine (t x : Text) : Prop :=
  t.getLast? = some '\n' ∨ t.getLast? = some '\r' ∧ x.head? ≠ some '\n'

theorem getLast?_append_right {s t : Text} (h : t ≠ []) : (s ++ t).getLast? = t.getLast? := by
  rw [List.getLast?_append, List.getLast?_eq_some_getLast h, Option.some_or]

theorem EndsLine.of_suffix {s t x : Text} (h : EndsLine (s ++ t) x) (ht : t ≠ []) :
    EndsLine t x := by
  rwa [EndsLine, getLast?_append_right ht] at h

theorem EndsLine.append {t x : Text} (h : EndsLine t x) (s : Text) : EndsLine (s ++ t) x := by
  have ht : t ≠ [] := by
    rintro rfl
    simp [EndsLine] at h
  rwa [EndsLine, getLast?_append_right ht]

theorem byteSize_pos {t : Text} (h : t ≠ []) : 0 < t.byteSize := by
  cases t with
  | nil => exact absurd rfl h
  | cons c t =>
    have := c.utf8Size_pos
    rw [byteSize]
    omega

theorem append_inj {a b x y : Text} (h : a ++ x = b ++ y) (hs : a.byteSize = b.byteSize) :
    a = b ∧ x = y := by
  have heq {s t : Text} (hs : s.byteSize = (s ++ t).byteSize) : t = [] := by
    by_contra ht
    have := byteSize_pos ht
    rw [byteSize_append] at hs
    omega
  obtain ⟨t, rfl, rfl⟩ | ⟨t, rfl, rfl⟩ := List.append_eq_append_iff.1 h
  · rw [heq hs]
    simp
  · rw [heq hs.symm]
    simp

theorem ne_break_of_lineBreak?_eq_none {c : Char} {t : Text} (h : lineBreak? (c :: t) = none) :
    c ≠ '\n' ∧ c ≠ '\r' := by
  rw [lineBreak?_eq] at h
  grind

theorem lineBreak?_eq_some {c : Char} {t : Text} {n : Nat} (h : lineBreak? (c :: t) = some n) :
    IsLineBreak (c :: t.take n) ∧ EndsLine (c :: t.take n) (t.drop n) := by
  unfold lineBreak? at h
  split at h
  · next heq => cases heq; cases h; simp [IsLineBreak, EndsLine]
  · next hn heq =>
    cases heq; cases h
    refine ⟨.inr (.inl rfl), .inr ⟨rfl, fun hh => ?_⟩⟩
    obtain ⟨t', rfl⟩ := List.head?_eq_some_iff.1 hh
    exact hn t' rfl
  · next heq => cases heq; cases h; simp [IsLineBreak, EndsLine]
  · cases h

theorem IsLineBreak.lineBreak? {b x : Text} (hb : b.IsLineBreak) (hx : x.head? ≠ some '\n') :
    Text.lineBreak? (b ++ x) = some (b.length - 1) := by
  rw [List.head?_eq_getElem?] at hx
  rw [lineBreak?_eq]
  rcases hb with rfl | rfl | rfl
  · simp
  · simp [hx]
  · simp

theorem continuation?_eq_some {c : Char} {t : Text} {n : Nat}
    (h : continuation? (c :: t) = some n) :
    ∃ b, IsLineBreak b ∧ c :: t.take n = '\\' :: b ∧ EndsLine (c :: t.take n) (t.drop n) := by
  rw [continuation?_eq] at h
  split at h
  · next hc =>
    obtain rfl : c = '\\' := by simpa using hc
    obtain ⟨m, hm, rfl⟩ := Option.map_eq_some_iff.1 h
    obtain ⟨d, t', rfl⟩ : ∃ d t', t = d :: t' := by
      cases t with
      | nil => cases hm
      | cons d t' => exact ⟨d, t', rfl⟩
    obtain ⟨hb, he⟩ := lineBreak?_eq_some hm
    exact ⟨_, hb, by simp, he.append ['\\']⟩
  · cases h

end Text

namespace Shape

/-- What is known of a shape that is not decided at the start of a line. A literal ends with the
quote that it starts with. -/
def Sound (frames : List Frame) (c : Char) (after : Text) : Shape → Prop
  | token kind more change =>
    kind ≠ .lineBreak ∧ change.Fits frames kind ∧ (kind = .stringLiteral →
      (c = '"' ∨ c = '\'') ∧ ∃ inside, after.take more = inside ++ [c])
  | continuation _ => False
  | illegal => isIllegal c = true

theorem sound_plain (frames : List Frame) (c : Char) (t : Text) (m : Nat) :
    (plain m).Sound frames c t := by
  simp [plain, Sound, FrameChange.Fits]

theorem sound_assign (frames : List Frame) (c : Char) (t : Text) (m : Nat) :
    (assign m).Sound frames c t := by
  simp [assign, Sound, FrameChange.Fits]

theorem sound_dollar (frames : List Frame) (c : Char) (t : Text) :
    (dollar t).Sound frames c t := by
  rw [dollar_eq]
  repeat' split
  · exact sound_plain _ _ _ _
  · simp [Sound, FrameChange.Fits]
  · exact sound_plain _ _ _ _
  · simp [Sound, FrameChange.Fits]

theorem sound_backslash (frames : List Frame) (c : Char) (t : Text) :
    (backslash t).Sound frames c t := by
  rw [backslash_eq]
  split <;> exact sound_plain _ _ _ _

theorem sound_closing (frames : List Frame) (c : Char) (t : Text) :
    (closing frames).Sound frames c t := by
  unfold closing
  split
  · exact sound_plain _ _ _ _
  · simp [Sound, FrameChange.Fits]
  · simp [Sound, FrameChange.Fits]

theorem sound_opening (frames : List Frame) (c : Char) (t : Text) :
    (opening frames).Sound frames c t := by
  unfold opening
  split
  · exact sound_plain _ _ _ _
  · simp [Sound, FrameChange.Fits]

theorem sound_colon (frames : List Frame) (c : Char) (t : Text) :
    (colon t).Sound frames c t := by
  rw [colon_eq]
  repeat' split
  · exact sound_assign _ _ _ _
  · exact sound_assign _ _ _ _
  · simp [Sound, FrameChange.Fits]

theorem sound_beforeEquals (frames : List Frame) (c : Char) (t : Text) :
    (beforeEquals t).Sound frames c t := by
  rw [beforeEquals_eq]
  split
  · exact sound_assign _ _ _ _
  · exact sound_plain _ _ _ _

theorem sound_quote (frames : List Frame) {q : Char} (hq : q = '"' ∨ q = '\'') (t : Text) :
    (quote q t).Sound frames q t := by
  simp only [quote]
  set p : Char → Bool := fun c => c != q && c != '\n' && c != '\r'
  split
  · next h =>
    have hi : t.take (t.takeWhile p).length = t.takeWhile p :=
      (List.prefix_iff_eq_take.1 (List.takeWhile_prefix p)).symm
    refine ⟨by simp, by simp [FrameChange.Fits], fun _ => ⟨hq, t.takeWhile p, ?_⟩⟩
    rw [List.take_add_one, hi, h]
    rfl
  · exact sound_plain _ _ _ _

theorem sound_word (frames fs : List Frame) (b : Bool) (c : Char) (t w : Text) :
    (word fs b w).Sound frames c t := by
  unfold word
  split
  · exact sound_plain _ _ _ _
  · split
    · simp [Sound, FrameChange.Fits]
    · exact sound_plain _ _ _ _

theorem sound_inLine (frames : List Frame) (b : Bool) (c : Char) (t : Text) :
    (inLine frames b c t).Sound frames c t := by
  unfold inLine
  split
  · exact sound_dollar _ _ _
  · exact sound_backslash _ _ _
  · exact sound_closing _ _ _
  · exact sound_closing _ _ _
  · exact sound_opening _ _ _
  · exact sound_assign _ _ _ _
  · exact sound_colon _ _ _
  · exact sound_beforeEquals _ _ _
  · exact sound_beforeEquals _ _ _
  · exact sound_beforeEquals _ _ _
  · simp [Sound, FrameChange.Fits]
  · simp [Sound, FrameChange.Fits]
  · exact sound_quote _ (by decide) _
  · exact sound_quote _ (by decide) _
  · split
    · simp [Sound, FrameChange.Fits]
    · split
      · exact sound_word _ _ _ _ _ _
      · split
        · simpa [Sound]
        · exact sound_plain _ _ _ _

end Shape

namespace Lexer

/-- The four ways in which a text can go on. -/
theorem shape_cases (lx : Lexer) (c : Char) (after : Text) :
    (∃ more, Text.lineBreak? (c :: after) = some more ∧
      lx.shape c after = .token .lineBreak more .keep) ∨
    (∃ more, Text.lineBreak? (c :: after) = none ∧ Text.continuation? (c :: after) = some more ∧
      lx.shape c after = .continuation more) ∨
    Text.lineBreak? (c :: after) = none ∧ Text.continuation? (c :: after) = none ∧
      (lx.shape c after = .token .recipePrefix 0 .keep ∨
        lx.shape c after = Shape.inLine lx.frames lx.onlyBlanks c after) := by
  unfold shape
  split
  · next more h => exact .inl ⟨more, h, rfl⟩
  · next h =>
    split
    · next more h' => exact .inr (.inl ⟨more, h, h', rfl⟩)
    · next h' =>
      refine .inr (.inr ⟨h, h', ?_⟩)
      split
      · exact .inl rfl
      · exact .inr rfl

theorem shape_more_le (lx : Lexer) (c : Char) (after : Text) :
    (lx.shape c after).more ≤ after.length := by
  obtain ⟨more, h, he⟩ | ⟨more, -, h, he⟩ | ⟨-, -, he | he⟩ := lx.shape_cases c after
  · rw [he]
    rw [Text.lineBreak?_eq] at h
    grind
  · rw [he]
    simp only [Text.continuation?_eq, Text.lineBreak?_eq] at h
    grind
  · simp [he]
  · rw [he]
    exact (Shape.unbroken_inLine _ _ _ _).more_le

/-- What follows a piece does not change it. -/
theorem shape_append {lx : Lexer} {c : Char} {a x : Text}
    (h : (lx.shape c (a ++ x)).more ≤ a.length)
    (hx : c = '$' → a = ['\\'] → ¬ (Text.lineBreak? x).isSome) :
    lx.shape c (a ++ x) = lx.shape c a := by
  have hb : Text.lineBreak? (c :: (a ++ x)) = Text.lineBreak? (c :: a) := by
    rw [← List.cons_append]
    refine Text.lineBreak?_append fun n hn => ?_
    have : lx.shape c (a ++ x) = .token .lineBreak n .keep := by
      unfold shape
      rw [← List.cons_append, hn]
    rw [this] at h
    exact Nat.lt_succ_of_le h
  have hc : Text.continuation? (c :: (a ++ x)) = Text.continuation? (c :: a) := by
    simp only [Text.continuation?_eq, List.getElem?_cons_zero, List.tail_cons]
    split
    · next hs =>
      obtain rfl := Option.some.inj hs
      congr 1
      refine Text.lineBreak?_append fun n hn => ?_
      have : lx.shape '\\' (a ++ x) = .continuation (n + 1) := by
        unfold shape
        rw [Text.lineBreak?_eq, Text.continuation?_eq]
        simp [Option.mem_def.1 hn]
      rw [this] at h
      exact h
    · rfl
  unfold shape at h ⊢
  rw [hb, hc] at h ⊢
  clear hb hc
  split
  · rfl
  · split
    · rfl
    · split
      · rfl
      · simp only [*, if_false] at h
        exact Shape.inLine_append h hx

theorem shape_more_le_of_endsLine {lx : Lexer} {c : Char} {a x : Text}
    (h : Text.EndsLine (c :: a) x) : (lx.shape c (a ++ x)).more ≤ a.length := by
  obtain ⟨more, hb, he⟩ | ⟨more, -, hc, he⟩ | ⟨hb, hc, he | he⟩ := lx.shape_cases c (a ++ x)
  · rw [he, Shape.more_token]
    rw [Text.lineBreak?_eq] at hb
    rcases a with _ | ⟨y, a⟩
    · grind [Text.EndsLine, List.head?_eq_getElem?]
    · grind
  · rw [he, Shape.more_continuation]
    simp only [Text.continuation?_eq, Text.lineBreak?_eq] at hc
    rcases a with _ | ⟨y, _ | ⟨z, a⟩⟩
    · grind [Text.EndsLine, List.head?_eq_getElem?]
    · grind [Text.EndsLine, List.head?_eq_getElem?]
    · grind
  · simp [he]
  · rw [he]
    by_contra hlt
    have ha : a ≠ [] := by
      rintro rfl
      rw [Text.lineBreak?_eq] at hb
      grind [Text.EndsLine, List.head?_eq_getElem?]
    have hl : a.length - 1 < a.length := by
      have := List.length_pos_iff.2 ha
      omega
    obtain ⟨d, hd, hdb⟩ :=
      Shape.unbroken_inLine lx.frames lx.onlyBlanks c (a ++ x) (a.length - 1) (by omega)
    rw [List.getElem?_append_left hl, ← List.getLast?_eq_getElem?] at hd
    simp only [Text.EndsLine, List.getLast?_cons, hd, Option.getD_some, Option.some.injEq] at h
    grind

/-- What a step cuts off and where it leaves the lexer. -/
theorem step_cases {lx next : Lexer} {p : Piece} (h : lx.step = some (p, next)) :
    ∃ c after, lx.rest = c :: after ∧
      ((∃ kind more change, lx.shape c after = .token kind more change ∧
          p = .token ⟨kind, c :: after.take more, lx.position⟩ change ∧
          next = lx.afterToken ⟨kind, c :: after.take more, lx.position⟩ change
            (after.drop more)) ∨
        (∃ more, lx.shape c after = .continuation more ∧
          p = .continuation (c :: after.take more) ∧
          next = { lx with
            rest := after.drop more
            position := lx.position.past (c :: after.take more) }) ∨
        (lx.shape c after = .illegal ∧ p = .illegal lx.position c ∧
          next = { lx with
            rest := after
            position := lx.position.past [c]
            atLineStart := false
            onlyBlanks := false })) := by
  unfold step at h
  split at h
  · simp at h
  · next c after hr =>
    refine ⟨c, after, hr, ?_⟩
    simp only [Option.some.injEq] at h
    split at h <;> obtain ⟨rfl, rfl⟩ := Prod.mk.inj h
    · next kind more change hs => exact .inl ⟨kind, more, change, hs, rfl, rfl⟩
    · next more hs => exact .inr (.inl ⟨more, hs, rfl, rfl⟩)
    · next hs => exact .inr (.inr ⟨hs, rfl, rfl⟩)

theorem step_eq_none {lx : Lexer} : lx.step = none ↔ lx.rest = [] := by
  unfold step
  split <;> simp_all

section Step

variable {lx next : Lexer} {p : Piece}

theorem step_recipePrefix (h : lx.step = some (p, next)) :
    next.recipePrefix = lx.recipePrefix := by
  obtain ⟨c, after, -, ⟨_, _, _, -, -, rfl⟩ | ⟨_, -, -, rfl⟩ | ⟨-, -, rfl⟩⟩ := step_cases h <;> rfl

theorem step_position (h : lx.step = some (p, next)) :
    next.position = lx.position.past p.text := by
  obtain ⟨c, after, -, ⟨_, _, _, -, rfl, rfl⟩ | ⟨_, -, rfl, rfl⟩ | ⟨-, rfl, rfl⟩⟩ :=
    step_cases h <;> rfl

theorem step_offset_eq (h : lx.step = some (p, next)) :
    next.position.offset = lx.position.offset + p.text.byteSize := by
  rw [step_position h, Position.past_offset]

theorem step_offset (h : lx.step = some (p, next)) :
    lx.position.offset < next.position.offset := by
  have := Text.byteSize_pos (step_text_ne_nil h)
  rw [step_offset_eq h]
  omega

theorem step_token_position {t : Token} {change : FrameChange}
    (h : lx.step = some (.token t change, next)) : t.position = lx.position := by
  obtain ⟨c, after, -, ⟨_, _, _, -, hp, -⟩ | ⟨_, -, hp, -⟩ | ⟨-, hp, -⟩⟩ := step_cases h
  · cases hp; rfl
  · cases hp
  · cases hp

theorem step_atLineStart {t : Token} {change : FrameChange}
    (h : lx.step = some (.token t change, next)) (ht : t.kind = .lineBreak) :
    next.atLineStart = true ∧ next.onlyBlanks = true := by
  obtain ⟨c, after, -, ⟨_, _, _, -, hp, rfl⟩ | ⟨_, -, hp, -⟩ | ⟨-, hp, -⟩⟩ := step_cases h
  · cases hp
    exact ⟨by simp_all [afterToken], by simp_all [afterToken]⟩
  · cases hp
  · cases hp

theorem step_frames {t : Token} {change : FrameChange}
    (h : lx.step = some (.token t change, next)) :
    change.Fits lx.frames t.kind ∧ next.frames = change.apply t.position lx.frames := by
  obtain ⟨c, after, -, ⟨kind, more, ch, hs, hp, rfl⟩ | ⟨_, -, hp, -⟩ | ⟨-, hp, -⟩⟩ := step_cases h
  · cases hp
    refine ⟨?_, rfl⟩
    obtain ⟨_, -, he⟩ | ⟨_, -, -, he⟩ | ⟨-, -, he | he⟩ := lx.shape_cases c after
    · rw [he] at hs; cases hs; simp [FrameChange.Fits]
    · rw [he] at hs; cases hs
    · rw [he] at hs; cases hs; simp [FrameChange.Fits]
    · have := Shape.sound_inLine lx.frames lx.onlyBlanks c after
      rw [← he, hs] at this
      exact this.2.1
  · cases hp
  · cases hp

theorem step_frames_of_not_token (h : lx.step = some (p, next)) (hp : p.token? = none) :
    next.frames = lx.frames := by
  obtain ⟨c, after, -, ⟨_, _, _, -, rfl, -⟩ | ⟨_, -, -, rfl⟩ | ⟨-, -, rfl⟩⟩ := step_cases h
  · cases hp
  · rfl
  · rfl

theorem step_ne_break {t : Token} {change : FrameChange}
    (h : lx.step = some (.token t change, next)) (ht : t.kind ≠ .lineBreak) :
    ∀ d ∈ t.text, d ≠ '\n' ∧ d ≠ '\r' := by
  obtain ⟨c, after, -, ⟨kind, more, ch, hs, hp, -⟩ | ⟨_, -, hp, -⟩ | ⟨-, hp, -⟩⟩ := step_cases h
  · cases hp
    intro d hd
    obtain ⟨_, -, he⟩ | ⟨_, -, -, he⟩ | ⟨hb, -, he | he⟩ := lx.shape_cases c after
    · rw [he] at hs; cases hs; exact absurd rfl ht
    · rw [he] at hs; cases hs
    · rw [he] at hs; cases hs
      obtain rfl : d = c := by simpa using hd
      exact Text.ne_break_of_lineBreak?_eq_none hb
    · rcases List.mem_cons.1 hd with rfl | hd
      · exact Text.ne_break_of_lineBreak?_eq_none hb
      · refine (Shape.unbroken_inLine lx.frames lx.onlyBlanks c after).ne_break ?_
        rwa [← he, hs]
  · cases hp
  · cases hp

theorem step_lineBreak {t : Token} {change : FrameChange}
    (h : lx.step = some (.token t change, next)) (ht : t.kind = .lineBreak) :
    t.text.IsLineBreak ∧ t.text.EndsLine next.rest := by
  obtain ⟨c, after, -, ⟨kind, more, ch, hs, hp, rfl⟩ | ⟨_, -, hp, -⟩ | ⟨-, hp, -⟩⟩ := step_cases h
  · cases hp
    obtain ⟨_, hb, he⟩ | ⟨_, -, -, he⟩ | ⟨-, -, he | he⟩ := lx.shape_cases c after
    · rw [he] at hs; cases hs
      exact Text.lineBreak?_eq_some hb
    · rw [he] at hs; cases hs
    · rw [he] at hs; cases hs; cases ht
    · have := Shape.sound_inLine lx.frames lx.onlyBlanks c after
      rw [← he, hs] at this
      exact absurd ht this.1
  · cases hp
  · cases hp

theorem step_continuation {s : Text} (h : lx.step = some (.continuation s, next)) :
    ∃ b, Text.IsLineBreak b ∧ s = '\\' :: b ∧ s.EndsLine next.rest := by
  obtain ⟨c, after, -, ⟨_, _, _, -, hp, -⟩ | ⟨more, hs, hp, rfl⟩ | ⟨-, hp, -⟩⟩ := step_cases h
  · cases hp
  · cases hp
    obtain ⟨_, -, he⟩ | ⟨_, -, hc, he⟩ | ⟨-, -, he | he⟩ := lx.shape_cases c after
    · rw [he] at hs; cases hs
    · rw [he] at hs; cases hs
      exact Text.continuation?_eq_some hc
    · rw [he] at hs; cases hs
    · have := Shape.sound_inLine lx.frames lx.onlyBlanks c after
      rw [← he, hs] at this
      exact this.elim
  · cases hp

theorem step_illegal {q : Position} {d : Char} (h : lx.step = some (.illegal q d, next)) :
    isIllegal d = true ∧ q = lx.position := by
  obtain ⟨c, after, -, ⟨_, _, _, -, hp, -⟩ | ⟨_, -, hp, -⟩ | ⟨hs, hp, -⟩⟩ := step_cases h
  · cases hp
  · cases hp
  · cases hp
    obtain ⟨_, -, he⟩ | ⟨_, -, -, he⟩ | ⟨-, -, he | he⟩ := lx.shape_cases d after
    · rw [he] at hs; cases hs
    · rw [he] at hs; cases hs
    · rw [he] at hs; cases hs
    · have := Shape.sound_inLine lx.frames lx.onlyBlanks d after
      rw [← he, hs] at this
      exact ⟨this, rfl⟩

theorem step_stringLiteral {t : Token} {change : FrameChange}
    (h : lx.step = some (.token t change, next)) (ht : t.kind = .stringLiteral) :
    ∃ q inside, (q = '"' ∨ q = '\'') ∧ t.text = q :: (inside ++ [q]) := by
  obtain ⟨c, after, -, ⟨kind, more, ch, hs, hp, -⟩ | ⟨_, -, hp, -⟩ | ⟨-, hp, -⟩⟩ := step_cases h
  · cases hp
    obtain ⟨_, -, he⟩ | ⟨_, -, -, he⟩ | ⟨-, -, he | he⟩ := lx.shape_cases c after
    · rw [he] at hs; cases hs; cases ht
    · rw [he] at hs; cases hs
    · rw [he] at hs; cases hs; cases ht
    · have := Shape.sound_inLine lx.frames lx.onlyBlanks c after
      rw [← he, hs] at this
      obtain ⟨hc, inside, hi⟩ := this.2.2 ht
      exact ⟨c, inside, hc, by rw [hi]⟩
  · cases hp
  · cases hp

end Step

/-- `lx` cuts the pieces `ps` off its text and becomes the second lexer. -/
inductive Steps : Lexer → List Piece → Lexer → Prop
  | nil (lx : Lexer) : Steps lx [] lx
  | cons {lx next last : Lexer} {p : Piece} {ps : List Piece} (h : lx.step = some (p, next))
    (hs : Steps next ps last) : Steps lx (p :: ps) last

theorem steps_run (lx : Lexer) : Steps lx lx.run.1 lx.run.2 := by
  fun_induction run lx with
  | case1 lx h => exact .nil lx
  | case2 lx p next h r ih => exact .cons h ih

theorem run_rest (lx : Lexer) : lx.run.2.rest = [] := by
  fun_induction run lx with
  | case1 lx h => exact step_eq_none.1 h
  | case2 lx p next h r ih => exact ih

theorem run_of_rest {lx : Lexer} (h : lx.rest = []) : lx.run = ([], lx) := by
  rw [run]
  split
  · rfl
  · next hs => rw [step_eq_none.2 h] at hs; cases hs

namespace Steps

variable {lx mid last : Lexer} {ps qs : List Piece}

theorem append (h : Steps lx ps mid) (h' : Steps mid qs last) : Steps lx (ps ++ qs) last := by
  induction h with
  | nil _ => exact h'
  | cons hs _ ih => exact .cons hs (ih h')

theorem split (h : Steps lx (ps ++ qs) last) : ∃ mid, Steps lx ps mid ∧ Steps mid qs last := by
  induction ps generalizing lx with
  | nil => exact ⟨lx, .nil lx, h⟩
  | cons p ps ih =>
    cases h with
    | cons hs h =>
      obtain ⟨mid, h₁, h₂⟩ := ih h
      exact ⟨mid, .cons hs h₁, h₂⟩

theorem text (h : Steps lx ps last) : ps.flatMap Piece.text ++ last.rest = lx.rest := by
  induction h with
  | nil lx => rfl
  | cons hs _ ih => rw [List.flatMap_cons, List.append_assoc, ih, step_text hs]

theorem run (h : Steps lx ps last) : lx.run = (ps ++ last.run.1, last.run.2) := by
  induction h with
  | nil lx => rfl
  | cons hs _ ih =>
    rw [Lexer.run]
    split
    · next hn => rw [hs] at hn; cases hn
    · next hn =>
      rw [hs] at hn
      cases hn
      rw [ih]
      rfl

theorem recipePrefix (h : Steps lx ps last) : last.recipePrefix = lx.recipePrefix := by
  induction h with
  | nil lx => rfl
  | cons hs _ ih => rw [ih, step_recipePrefix hs]

theorem finished (h : Steps lx ps last) : last.finished = lx.finished := by
  induction h with
  | nil lx => rfl
  | cons hs _ ih => rw [ih, step_finished hs]

theorem step_of_mem {p : Piece} (h : Steps lx ps last)
    (hp : p ∈ ps) : ∃ mid next : Lexer, mid.step = some (p, next) ∧ mid.rest <:+ lx.rest := by
  induction h with
  | nil => cases hp
  | @cons lx next last q ps hs _ ih =>
    rcases List.mem_cons.1 hp with rfl | hp
    · exact ⟨lx, next, hs, List.suffix_refl _⟩
    · obtain ⟨mid, next', hs', hr⟩ := ih hp
      exact ⟨mid, next', hs', hr.trans ⟨_, step_text hs⟩⟩

theorem atLineStart (h : Steps lx ps last) {t : Token} {change : FrameChange}
    (hl : ps.getLast? = some (.token t change)) (ht : t.kind = .lineBreak) :
    last.atLineStart = true ∧ last.onlyBlanks = true := by
  induction h with
  | nil lx => cases hl
  | @cons lx next last p ps hs h ih =>
    cases h with
    | nil =>
      obtain rfl : p = .token t change := by simpa using hl
      exact step_atLineStart hs ht
    | cons _ _ => exact ih (by simpa [List.getLast?_cons] using hl)

/-- A line break at the end is not half of a longer one. -/
theorem endsLine (h : Steps lx ps last) {t : Token} {change : FrameChange}
    (hl : ps.getLast? = some (.token t change)) (ht : t.kind = .lineBreak) :
    Text.EndsLine (ps.flatMap Piece.text) last.rest := by
  obtain ⟨qs, rfl⟩ := List.getLast?_eq_some_iff.1 hl
  obtain ⟨mid, -, h⟩ := h.split
  cases h with
  | cons hs h =>
    cases h
    rw [List.flatMap_append, List.flatMap_singleton]
    exact (step_lineBreak hs ht).2.append _

end Steps

theorem inside_subset {t : Token} : t.inside.rest ⊆ t.text :=
  List.Subset.trans (List.dropLast_subset _) fun _ => List.mem_of_mem_tail

end Lexer

end MakeTree
