import MakeTree.Proofs.Lexer.Iteration

/-!
The frames of a lexer are what its items say: read from the empty stack, they open and close just
the frames that are open (`lexer_replays`). What is said of the end of a text, and whether its
tokens are returned, is decided by the frame that this leaves innermost.
-/

namespace MakeTree

/-- Take the innermost frame off, which must be of the kind. -/
def Frame.pop (kind : FrameKind) : List Frame → Option (List Frame)
  | [] => none
  | f :: fs => if f.kind = kind then some fs else none

/-- The open frames after an item, by what the item is. There are none if the item closes a frame
that is not innermost. -/
def Item.replay (frames : List Frame) : Item → Option (List Frame)
  | .error _ => some frames
  | .ok t =>
    if t.kind = .expansionPrefix then some (⟨.expansion, t.position⟩ :: frames)
    else if t.kind = .expansionSuffix then Frame.pop .expansion frames
    else if t.kind = .plainText ∧ frames ≠ [] then
      if t.text = ['('] then some (⟨.literalParen, t.position⟩ :: frames)
      else if t.text = [')'] ∨ t.text = ['}'] then Frame.pop .literalParen frames
      else some frames
    else some frames

namespace Shape

/-- A token has what it does to the frames written on it. -/
def Replays (frames : List Frame) (c : Char) (after : Text) : Shape → Prop
  | token kind more change => ∀ p, Item.replay frames (.ok ⟨kind, c :: after.take more, p⟩) =
      some (change.apply p frames)
  | continuation _ => True
  | illegal => True

variable {frames : List Frame} {c : Char} {t : Text}

/-- Neither an opening nor a closing bracket. -/
def NoBracket (c : Char) : Prop := c ≠ '(' ∧ c ≠ ')' ∧ c ≠ '}'

instance (c : Char) : Decidable (NoBracket c) := inferInstanceAs (Decidable (_ ∧ _ ∧ _))

theorem replays_keep {kind : TokenKind} {more : Nat} (hc : NoBracket c)
    (hp : kind ≠ .expansionPrefix) (hs : kind ≠ .expansionSuffix) :
    (token kind more .keep).Replays frames c t := by
  intro p
  obtain ⟨h₁, h₂, h₃⟩ := hc
  simp [Item.replay, FrameChange.apply, hp, hs, h₁, h₂, h₃]

theorem replays_plain (hc : NoBracket c) (more : Nat) : (plain more).Replays frames c t :=
  replays_keep hc nofun nofun

theorem replays_assign (hc : NoBracket c) (more : Nat) : (assign more).Replays frames c t :=
  replays_keep hc nofun nofun

theorem replays_opening : (opening frames).Replays frames '(' t := by
  cases frames with
  | nil => exact fun _ => rfl
  | cons f fs => exact fun _ => rfl

theorem replays_closing (hc : c = ')' ∨ c = '}') : (closing frames).Replays frames c t := by
  rcases frames with _ | ⟨⟨_ | _, q⟩, fs⟩
  · exact fun _ => rfl
  · exact fun _ => rfl
  · rcases hc with rfl | rfl <;> exact fun _ => rfl

theorem replays_dollar (hc : NoBracket c) : (dollar t).Replays frames c t := by
  rw [dollar_eq]
  repeat' split
  · exact replays_plain hc _
  · exact fun _ => rfl
  · exact replays_plain hc _
  · exact replays_keep hc nofun nofun

theorem replays_backslash (hc : NoBracket c) : (backslash t).Replays frames c t := by
  rw [backslash_eq]
  split <;> exact replays_plain hc _

theorem replays_colon (hc : NoBracket c) : (colon t).Replays frames c t := by
  rw [colon_eq]
  repeat' split
  · exact replays_assign hc _
  · exact replays_assign hc _
  · exact replays_keep hc nofun nofun

theorem replays_beforeEquals (hc : NoBracket c) : (beforeEquals t).Replays frames c t := by
  rw [beforeEquals_eq]
  split
  · exact replays_assign hc _
  · exact replays_plain hc _

theorem replays_quote (hc : NoBracket c) : (quote c t).Replays frames c t := by
  simp only [quote]
  split
  · exact replays_keep hc (by decide) (by decide)
  · exact replays_plain hc _

theorem replays_word (hc : NoBracket c) (b : Bool) (w : Text) :
    (word frames b w).Replays frames c t := by
  unfold word
  split
  · exact replays_plain hc _
  · split
    · exact replays_keep hc nofun nofun
    · exact replays_plain hc _

theorem replays_inLine (b : Bool) : (inLine frames b c t).Replays frames c t := by
  unfold inLine
  split
  · exact replays_dollar (by decide)
  · exact replays_backslash (by decide)
  · exact replays_closing (.inl rfl)
  · exact replays_closing (.inr rfl)
  · exact replays_opening
  · exact replays_assign (by decide) _
  · exact replays_colon (by decide)
  · exact replays_beforeEquals (by decide)
  · exact replays_beforeEquals (by decide)
  · exact replays_beforeEquals (by decide)
  · exact replays_keep (by decide) nofun nofun
  · exact replays_keep (by decide) nofun nofun
  · exact replays_quote (by decide)
  · exact replays_quote (by decide)
  · have hc : NoBracket c := ⟨by assumption, by assumption, by assumption⟩
    split
    · exact replays_keep hc nofun nofun
    · split
      · exact replays_word hc b _
      · split
        · trivial
        · exact replays_plain hc _

end Shape

namespace Lexer

theorem step_replay {lx next : Lexer} {t : Token} {change : FrameChange}
    (h : lx.step = some (.token t change, next)) :
    Item.replay lx.frames (.ok t) = some next.frames := by
  obtain ⟨c, after, -, ⟨kind, more, ch, hs, hp, rfl⟩ | ⟨_, -, hp, -⟩ | ⟨-, hp, -⟩⟩ := step_cases h
  · cases hp
    obtain ⟨_, -, he⟩ | ⟨_, -, -, he⟩ | ⟨-, -, he | he⟩ := lx.shape_cases c after
    · rw [he] at hs; cases hs; rfl
    · rw [he] at hs; cases hs
    · rw [he] at hs; cases hs; rfl
    · have hr : (Shape.inLine lx.frames lx.onlyBlanks c after).Replays lx.frames c after :=
        Shape.replays_inLine lx.onlyBlanks
      rw [← he, hs] at hr
      exact hr lx.position
  · cases hp
  · cases hp

theorem Steps.replay {lx last : Lexer} {ps : List Piece} (h : Steps lx ps last) :
    (ps.filterMap Piece.item?).foldlM Item.replay lx.frames = some last.frames := by
  induction h with
  | nil lx => rfl
  | @cons lx next last p ps hs _ ih =>
    cases p with
    | token t change =>
      show (Item.replay lx.frames (.ok t) >>= fun fs => _) = _
      rw [step_replay hs]
      exact ih
    | continuation s => exact (step_frames_of_not_token hs rfl) ▸ ih
    | illegal q c => exact (step_frames_of_not_token hs rfl) ▸ ih

theorem ending?_replay (lx : Lexer) (frames : List Frame) :
    lx.ending?.toList.foldlM Item.replay frames = some frames := by
  rw [ending?]
  split
  · rfl
  · cases lx.frames.head? <;> rfl

theorem next_replay (lx : Lexer) :
    lx.next.1.toList.foldlM Item.replay lx.frames = some lx.next.2.frames := by
  obtain ⟨ps, p, item, hn, hs, hp, hi⟩ | ⟨ps, last, hs, hp, -, hn⟩ := lx.next_cases
  · have h := hs.replay
    rw [List.filterMap_append, hp, List.nil_append, List.filterMap_cons_some hi] at h
    rw [hn]
    exact h
  · have h := hs.replay
    rw [hp] at h
    rw [hn, last.ending?_replay]
    exact h

/-- After any number of calls the open frames are those of the items so far. -/
theorem ahead_replay (lx : Lexer) (n : Nat) :
    (lx.yielded.take n).foldlM Item.replay lx.frames = some (lx.ahead n).frames := by
  induction n generalizing lx with
  | zero => rfl
  | succ n ih =>
    have h := lx.next_replay
    rw [ahead_succ]
    cases hn : lx.next.1 with
    | none =>
      obtain ⟨hf, hr⟩ := next_none hn
      rw [hn] at h
      rw [yielded_of_none hn, ahead_of_finished hf hr]
      exact h
    | some item =>
      rw [hn] at h
      have h : Item.replay lx.frames item = some lx.next.2.frames := by simpa using h
      rw [yielded_of_some hn, List.take_succ_cons, List.foldlM_cons, h]
      exact ih _

theorem yielded_replay (lx : Lexer) :
    lx.yielded.foldlM Item.replay lx.frames = some lx.run.2.frames := by
  rw [yielded_eq, List.foldlM_append, lx.steps_run.replay]
  exact lx.run.2.ending?_replay _

end Lexer

theorem tokens_items (ps : List Piece) :
    (ps.filterMap Piece.item?).filterMap Except.toOption = ps.filterMap Piece.token? := by
  rw [List.filterMap_filterMap]
  congr 1
  funext p
  cases p <;> rfl

theorem unterminated_not_mem (ps : List Piece) (f : Frame) :
    .error (.unterminated f) ∉ ps.filterMap Piece.item? := by
  intro h
  obtain ⟨p, -, hp⟩ := List.mem_filterMap.1 h
  cases p <;> cases hp

/-- Call by call, the open frames are those that the items so far open and leave open. A frame that
is open at the end is reported there, once, and then the tokens are not returned. -/
theorem lexer_replays (text : Text) (c : Char) :
    let lx := Lexer.start text c
    (∀ n, (lx.ahead n).next.1 = lx.yielded[n]?) ∧
      (∀ n, ∃ frames, (lx.yielded.take n).foldlM Item.replay [] = some frames ∧
        (lx.ahead n).depth = frames.length) ∧
      ∃ body frames, lx.yielded.foldlM Item.replay [] = some frames ∧
        (∀ f, .error (.unterminated f) ∉ body) ∧
        lx.yielded = body ++ (frames.head?.map (.error <| .unterminated ·)).toList ∧
        (tokenize text c).2 = match frames.head? with
          | some f => .error (.unterminated f)
          | none => .ok (body.filterMap Except.toOption) := by
  intro lx
  refine ⟨lx.ahead_next, fun n => ⟨_, lx.ahead_replay n, rfl⟩, _, _, lx.yielded_replay,
    unterminated_not_mem lx.run.1, ?_, ?_⟩
  · have hf : lx.run.2.finished = false := lx.steps_run.finished
    rw [Lexer.yielded_eq, Lexer.ending?, hf]
    rfl
  · rw [tokens_items]
    rfl

end MakeTree
