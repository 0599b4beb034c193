import MakeTree.Proofs.Lexer.Shift

/-!
Line endings. A text without a carriage return is cut into the same pieces when every line feed of
it is written as CR LF or as CR (`step_withEnding`): up to the first line break the two texts are the
same, and no piece that starts on a line looks at more of what follows than that a line break is
there (`Shape.inLine_break`).
-/

namespace MakeTree

/-- How else a line may end than with a line feed. -/
inductive LineEnding where
  | crLf
  | cr
deriving DecidableEq, Repr

namespace LineEnding

def text : LineEnding → Text
  | crLf => ['\r', '\n']
  | cr => ['\r']

/-- How many bytes longer than a line feed. -/
def excess : LineEnding → Nat
  | crLf => 1
  | cr => 0

end LineEnding

/-- The text with that ending in place of every line feed. -/
def Text.withEnding (e : LineEnding) (t : Text) : Text :=
  t.flatMap fun c => if c = '\n' then e.text else [c]

def Position.withEnding (e : LineEnding) (p : Position) : Position :=
  { p with offset := p.offset + (p.line - 1) * e.excess }

def Token.withEnding (e : LineEnding) (t : Token) : Token where
  kind := t.kind
  text := if t.kind = .lineBreak then t.text.withEnding e else t.text
  position := t.position.withEnding e

def Frame.withEnding (e : LineEnding) (f : Frame) : Frame :=
  { f with position := f.position.withEnding e }

def LexError.withEnding (e : LineEnding) : LexError → LexError
  | illegalCharacter p c => illegalCharacter (p.withEnding e) c
  | unterminated f => unterminated (f.withEnding e)

def Piece.withEnding (e : LineEnding) : Piece → Piece
  | token t change => token (t.withEnding e) change
  | continuation s => continuation (s.withEnding e)
  | illegal p c => illegal (p.withEnding e) c

def Lexer.withEnding (e : LineEnding) (lx : Lexer) : Lexer :=
  { lx with
    rest := lx.rest.withEnding e
    position := lx.position.withEnding e
    frames := lx.frames.map (Frame.withEnding e) }

variable (e : LineEnding)

namespace LineEnding

theorem text_eq : ∃ s, e.text = '\r' :: s ∧ s.length = e.excess := by
  cases e with
  | crLf => exact ⟨['\n'], rfl, rfl⟩
  | cr => exact ⟨[], rfl, rfl⟩

end LineEnding

namespace Text

@[simp] theorem withEnding_nil : withEnding e [] = [] := rfl

@[simp] theorem withEnding_append (a b : Text) :
    (a ++ b).withEnding e = a.withEnding e ++ b.withEnding e := List.flatMap_append

theorem withEnding_feed (t : Text) : withEnding e ('\n' :: t) = e.text ++ t.withEnding e := rfl

variable {e}

theorem withEnding_cons {c : Char} (hc : c ≠ '\n') (t : Text) :
    withEnding e (c :: t) = c :: t.withEnding e := by
  rw [withEnding, List.flatMap_cons, if_neg hc]
  rfl

theorem withEnding_of_not_mem {t : Text} (h : '\n' ∉ t) : t.withEnding e = t := by
  induction t with
  | nil => rfl
  | cons c t ih =>
    rw [withEnding_cons (fun hc => h (hc ▸ List.mem_cons_self)),
      ih fun hm => h (List.mem_cons_of_mem c hm)]

theorem head?_withEnding {t : Text} : (t.withEnding e).head? ≠ some '\n' := by
  cases t with
  | nil => simp
  | cons c t =>
    by_cases hc : c = '\n'
    · rw [hc, withEnding_feed]
      obtain ⟨s, hs, -⟩ := e.text_eq
      simp [hs]
    · rw [withEnding_cons hc]
      simpa using hc

end Text

namespace Position

theorem past_cons {c : Char} (hr : c ≠ '\r') (hc : c ≠ '\n') (p : Position) (t : Text) :
    p.past (c :: t) = (p.nextColumn c).past t := by
  rw [past]
  · exact fun _ h => absurd h hr
  · exact hr
  · exact hc

variable {e}

theorem past_withEnding {p : Position} (hp : 1 ≤ p.line) {t : Text} (ht : '\r' ∉ t) :
    (p.withEnding e).past (t.withEnding e) = (p.past t).withEnding e := by
  induction t generalizing p with
  | nil => rfl
  | cons c t ih =>
    have ht' : '\r' ∉ t := fun hm => ht (List.mem_cons_of_mem c hm)
    have hr : c ≠ '\r' := fun hc => ht (hc ▸ List.mem_cons_self)
    by_cases hc : c = '\n'
    · subst hc
      have hline : 1 ≤ (p.nextLine 1).line := Nat.le_add_left _ _
      have hnext : (p.withEnding e).nextLine (1 + e.excess) = (p.nextLine 1).withEnding e := by
        obtain ⟨n, hn⟩ := Nat.exists_eq_add_of_le' hp
        simp only [withEnding, nextLine, hn, Nat.add_sub_cancel, Nat.add_one_mul]
        congr 1
        omega
      rw [Text.withEnding_feed, past, ← ih hline ht', ← hnext]
      cases e with
      | crLf => rfl
      | cr =>
        show past _ ('\r' :: Text.withEnding .cr t) = _
        rw [past]
        · rfl
        · intro s hs
          have := Text.head?_withEnding (e := .cr) (t := t)
          rw [hs] at this
          exact this rfl
    · rw [Text.withEnding_cons hc, past_cons hr hc, past_cons hr hc, ← ih (p := p.nextColumn c) hp ht']
      congr 1
      simp only [withEnding, nextColumn]
      congr 1
      omega

end Position

variable {e}

namespace Text

theorem lineBreak?_withEnding (t : Text) :
    lineBreak? (e.text ++ t.withEnding e) = some e.excess := by
  cases e with
  | crLf => rfl
  | cr =>
    have h := head?_withEnding (e := .cr) (t := t)
    rw [List.head?_eq_getElem?] at h
    rw [lineBreak?_eq]
    simp [LineEnding.text, LineEnding.excess, h]

theorem lineBreak?_withEnding_eq_none {t : Text} (h : lineBreak? t = none) :
    lineBreak? (t.withEnding e) = none := by
  cases t with
  | nil => rfl
  | cons c t =>
    have hc := ne_break_of_lineBreak?_eq_none h
    rw [withEnding_cons hc.1, lineBreak?_eq]
    simp [hc]

theorem continuation?_withEnding_eq_none {t : Text} (h : continuation? t = none) :
    continuation? (t.withEnding e) = none := by
  cases t with
  | nil => rfl
  | cons c t =>
    rw [continuation?_eq] at h
    by_cases hc : c = '\\'
    · subst hc
      have ht : lineBreak? t = none := by simpa using h
      rw [withEnding_cons (by decide), continuation?_eq]
      simp [lineBreak?_withEnding_eq_none ht]
    · by_cases hn : c = '\n'
      · obtain ⟨s, hs, -⟩ := e.text_eq
        rw [hn, withEnding_feed, continuation?_eq]
        simp [hs]
      · rw [withEnding_cons hn, continuation?_eq]
        simp [hc]

end Text

namespace Shape

theorem inLine_break {frames : List Frame} {ob : Bool} {c : Char} {s : Text}
    {d d' : Char} (hd : d = '\n' ∨ d = '\r') (hd' : d' = '\n' ∨ d' = '\r') (x y : Text) :
    inLine frames ob c (s ++ d :: x) = inLine frames ob c (s ++ d' :: y) := by
  have htrunc {d : Char} (hd : d = '\n' ∨ d = '\r') (x : Text) (hs : ¬ (c = '$' ∧ s = ['\\'])) :
      inLine frames ob c (s ++ d :: x) = inLine frames ob c s := by
    refine inLine_append (Nat.le_of_not_lt fun hlt => ?_) fun hc hb => absurd ⟨hc, hb⟩ hs
    obtain ⟨d', hget, hn⟩ := unbroken_inLine frames ob c (s ++ d :: x) s.length hlt
    rw [List.getElem?_append_right (Nat.le_refl _), Nat.sub_self] at hget
    obtain rfl := Option.some.inj hget
    exact hd.elim hn.1 hn.2
  by_cases hs : c = '$' ∧ s = ['\\']
  · -- the backslash belongs to a continuation here
    obtain ⟨rfl, rfl⟩ := hs
    rcases hd with rfl | rfl <;> rcases hd' with rfl | rfl <;> simp [inLine, dollar_eq]
  · rw [htrunc hd x hs, htrunc hd' y hs]

theorem inLine_withEnding {frames : List Frame} {ob : Bool} {c : Char} (t : Text) :
    inLine frames ob c (t.withEnding e) = inLine frames ob c t := by
  by_cases hn : '\n' ∈ t
  · obtain ⟨s, x, rfl, hs⟩ := List.eq_append_cons_of_mem hn
    obtain ⟨r, hr, -⟩ := e.text_eq
    rw [Text.withEnding_append, Text.withEnding_feed, Text.withEnding_of_not_mem hs, hr]
    exact inLine_break (.inr rfl) (.inl rfl) _ _
  · rw [Text.withEnding_of_not_mem hn]

/-- The same shape of another length. -/
def withMore (m : Nat) : Shape → Shape
  | token k _ change => token k m change
  | continuation _ => continuation m
  | illegal => illegal

theorem withMore_more (s : Shape) : s.withMore s.more = s := by
  cases s <;> rfl

end Shape

namespace Lexer

variable {lx next : Lexer}

/-- With another ending, which may be in it, the piece at the head of `c :: after` is the one of
`more` characters behind `c'`. -/
structure Respelled (e : LineEnding) (lx : Lexer) (c : Char) (after : Text) (c' : Char)
    (after' : Text) (more : Nat) : Prop where
  text : Text.withEnding e (c :: after) = c' :: after'
  take : c' :: after'.take more = Text.withEnding e (c :: after.take (lx.shape c after).more)
  drop : after'.drop more = Text.withEnding e (after.drop (lx.shape c after).more)
  shape : (lx.withEnding e).shape c' after' = (lx.shape c after).withMore more

theorem respelled_lineBreak {after : Text} (h : lx.shape '\n' after = .token .lineBreak 0 .keep) :
    ∃ s, Respelled e lx '\n' after '\r' s e.excess := by
  obtain ⟨s, hs, hlen⟩ := e.text_eq
  have hb := Text.lineBreak?_withEnding (e := e) after
  rw [hs, List.cons_append] at hb
  refine ⟨s ++ after.withEnding e, ?_, ?_, ?_, ?_⟩
  · rw [Text.withEnding_feed, hs, List.cons_append]
  · simp [h, Text.withEnding_feed, hs, ← hlen]
  · simp [h, ← hlen]
  · rw [h, Lexer.shape, hb]
    rfl

theorem respelled_continuation {x : Text} (h : lx.shape '\\' ('\n' :: x) = .continuation 1) :
    Respelled e lx '\\' ('\n' :: x) '\\' (e.text ++ Text.withEnding e x) (e.excess + 1) := by
  obtain ⟨s, hs, hlen⟩ := e.text_eq
  have hb := Text.lineBreak?_withEnding (e := e) x
  have hc : Text.continuation? ('\\' :: (e.text ++ Text.withEnding e x)) =
      some (e.excess + 1) := by
    rw [Text.continuation?_eq]
    simp [hb]
  constructor
  · rw [Text.withEnding_cons (by decide), Text.withEnding_feed]
  · simp [h, Text.withEnding_feed, Text.withEnding_cons, hs, ← hlen]
  · simp [h, hs, ← hlen]
  · rw [h, Lexer.shape, hc, Text.lineBreak?_eq]
    rfl

theorem respelled_inLine {c : Char} {after : Text} (hb : Text.lineBreak? (c :: after) = none)
    (hc : Text.continuation? (c :: after) = none) :
    Respelled e lx c after c (after.withEnding e) (lx.shape c after).more := by
  have hlen := List.length_take_of_le (lx.shape_more_le c after)
  have hbreak := Text.ne_break_of_lineBreak?_eq_none hb
  have hun : '\n' ∉ after.take (lx.shape c after).more := by
    obtain ⟨m, hb', -⟩ | ⟨m, -, hc', -⟩ | ⟨-, -, he | he⟩ := lx.shape_cases c after
    · rw [hb] at hb'
      cases hb'
    · rw [hc] at hc'
      cases hc'
    · simp [he]
    · rw [he]
      intro hn
      exact ((Shape.unbroken_inLine lx.frames lx.onlyBlanks c after).ne_break hn).1 rfl
  have hw : after.withEnding e = after.take (lx.shape c after).more ++
      Text.withEnding e (after.drop (lx.shape c after).more) := by
    conv_lhs => rw [← List.take_append_drop (lx.shape c after).more after]
    rw [Text.withEnding_append, Text.withEnding_of_not_mem hun]
  refine ⟨Text.withEnding_cons hbreak.1 after, ?_, ?_, ?_⟩
  · rw [Text.withEnding_cons hbreak.1, Text.withEnding_of_not_mem hun, hw, List.take_left' hlen]
  · rw [hw, List.drop_left' hlen]
  · have hb' := Text.lineBreak?_withEnding_eq_none (e := e) hb
    have hc' := Text.continuation?_withEnding_eq_none (e := e) hc
    rw [Text.withEnding_cons hbreak.1] at hb' hc'
    have hk : (lx.frames.map (Frame.withEnding e)).map Frame.kind = lx.frames.map Frame.kind := by
      rw [List.map_map]
      rfl
    rw [Shape.withMore_more]
    simp only [Lexer.shape, hb, hc, hb', hc', withEnding, Shape.inLine_congr hk,
      Shape.inLine_withEnding]

theorem respelled (lx : Lexer) {c : Char} {after : Text} (h : '\r' ∉ c :: after) :
    ∃ c' after' more, Respelled e lx c after c' after' more := by
  obtain ⟨m, hb, he⟩ | ⟨m, -, hc, he⟩ | ⟨hb, hc, -⟩ := lx.shape_cases c after
  · obtain ⟨rfl, rfl⟩ : c = '\n' ∧ m = 0 := by
      rw [Text.lineBreak?_eq] at hb
      grind
    obtain ⟨s, hs⟩ := respelled_lineBreak (e := e) he
    exact ⟨_, _, _, hs⟩
  · obtain ⟨x, rfl, rfl, rfl⟩ : ∃ x, c = '\\' ∧ after = '\n' :: x ∧ m = 1 := by
      simp only [Text.continuation?_eq, Text.lineBreak?_eq] at hc
      rcases after with _ | ⟨d, x⟩ <;> grind
    exact ⟨_, _, _, respelled_continuation he⟩
  · exact ⟨_, _, _, respelled_inLine hb hc⟩

theorem step_text_withEnding {t : Token} {change : FrameChange}
    (h : lx.step = some (.token t change, next)) :
    (t.withEnding e).text = t.text.withEnding e := by
  rw [Token.withEnding]
  split
  · rfl
  · next hk =>
    refine (Text.withEnding_of_not_mem fun hm => ?_).symm
    exact (step_ne_break h hk _ hm).1 rfl

theorem afterToken_withEnding {t : Token} {change : FrameChange}
    (h : lx.step = some (.token t change, next)) (hp : 1 ≤ lx.position.line)
    (hr : '\r' ∉ t.text) (rest : Text) :
    (lx.withEnding e).afterToken (t.withEnding e) change (rest.withEnding e) =
      (lx.afterToken t change rest).withEnding e := by
  have hpos : (lx.position.withEnding e).past (t.withEnding e).text =
      (lx.position.past t.text).withEnding e := by
    rw [step_text_withEnding h, Position.past_withEnding hp hr]
  have hf : change.apply (t.withEnding e).position (lx.frames.map (Frame.withEnding e)) =
      (change.apply t.position lx.frames).map (Frame.withEnding e) := by
    cases change with
    | keep => rfl
    | opens kind => rfl
    | closes kind => exact List.map_tail.symm
  simp only [afterToken, withEnding, hpos, hf]
  rfl

/-- The next piece is the same but for line breaks in it, and so is what follows. -/
theorem step_withEnding {p : Piece} (hp : 1 ≤ lx.position.line) (hr : '\r' ∉ lx.rest)
    (h : lx.step = some (p, next)) :
    (lx.withEnding e).step = some (p.withEnding e, next.withEnding e) := by
  obtain ⟨c, after, hrest, hcases⟩ := step_cases h
  rw [hrest] at hr
  obtain ⟨c', after', more, hw, htake, hdrop, hshape⟩ := lx.respelled (e := e) hr
  have hrest' : (lx.withEnding e).rest = c' :: after' := by rw [← hw, ← hrest]; rfl
  have hsub : ∀ m, '\r' ∉ c :: after.take m := fun m hm => hr <| by
    rcases List.mem_cons.1 hm with rfl | hm
    · exact List.mem_cons_self
    · exact List.mem_cons_of_mem c (List.mem_of_mem_take hm)
  rw [step, hrest']
  simp only [hshape, Option.some.injEq]
  obtain ⟨kind, m, change, hs, rfl, rfl⟩ | ⟨m, hs, rfl, rfl⟩ | ⟨hs, rfl, rfl⟩ := hcases
  · rw [hs, Shape.more_token] at htake hdrop
    have ht : (⟨kind, c' :: after'.take more, (lx.withEnding e).position⟩ : Token) =
        Token.withEnding e ⟨kind, c :: after.take m, lx.position⟩ := by
      rw [htake, ← step_text_withEnding h]
      rfl
    simp only [hs, Shape.withMore, ht, hdrop, afterToken_withEnding h hp (hsub m)]
    rfl
  · rw [hs, Shape.more_continuation] at htake hdrop
    have hpos := Position.past_withEnding (e := e) hp (hsub m)
    simp only [hs, Shape.withMore, htake, hdrop, withEnding, hpos]
    rfl
  · have hc : c ≠ '\n' := by
      rintro rfl
      have := (step_illegal h).1
      simp [isIllegal] at this
    rw [hs, Shape.more_illegal, List.take_zero, Text.withEnding_cons hc, Text.withEnding_nil]
      at htake
    obtain ⟨rfl, hnil⟩ := List.cons.inj htake
    rw [hs, Shape.more_illegal, List.drop_zero] at hdrop
    have hafter : after' = Text.withEnding e after := by
      have happ := List.take_append_drop more after'
      rwa [hnil, hdrop, List.nil_append, eq_comm] at happ
    have hpos := Position.past_withEnding (e := e) hp (hsub 0)
    rw [List.take_zero, Text.withEnding_cons hc, Text.withEnding_nil] at hpos
    simp only [hs, Shape.withMore, hafter, withEnding, hpos]
    rfl

theorem inside_withEnding {t : Token} {change : FrameChange}
    (h : lx.step = some (.token t change, next)) (hk : t.kind = .stringLiteral) :
    (t.withEnding e).inside = t.inside.withEnding e := by
  have hb : t.kind ≠ .lineBreak := by rw [hk]; decide
  have hn : '\n' ∉ t.inside.rest := fun hm => (step_ne_break h hb _ (inside_subset hm)).1 rfl
  have hrest : (t.withEnding e).inside.rest = t.inside.rest.withEnding e := by
    rw [Text.withEnding_of_not_mem hn, Token.withEnding, if_neg hb]
    rfl
  simp only [Token.inside, withEnding, Token.withEnding, Position.withEnding] at hrest ⊢
  rw [hrest]
  simp [Nat.add_right_comm]

end Lexer

end MakeTree
