import MakeTree.Proofs.Lexer.History
import MakeTree.Proofs.Lexer.Words
import MakeTree.Proofs.Tiling

/-!
Which words are keywords (`lexer_keywords`): those that spell one, read to their end where no frame
is open. A word for inclusion must be the first on its line but for blanks and a recipe prefix; what
the lexer has skipped counts there, and what it has passed over does not.
-/

namespace MakeTree

/-- The token is a word of the text, which does not go on behind it. -/
structure Token.IsWord (text : Text) (t : Token) : Prop where
  ne_nil : t.text ≠ []
  chars : ∀ c ∈ t.text, isWordChar c = true
  maximal : ∃ before after, text = before ++ t.text ++ after ∧
    before.byteSize = t.position.offset ∧ ∀ c ∈ after.head?, isWordChar c = false

namespace Lexer

variable {text : Text} {c : Char} {ps : List Piece} {mid next : Lexer} {t : Token}
  {change : FrameChange}

theorem Steps.isWord (h : Steps (start text c) ps mid)
    (hs : mid.step = some (.token t change, next))
    (ht : t.kind.isKeyword = true ∨ ∃ k : Keyword, t.text ∈ k.spellings) : t.IsWord text := by
  obtain ⟨d, after, hr, hd, htext, -⟩ := step_word hs ht
  have hnext : next.rest = after.dropWhile isWordChar := by
    have hrest := step_text hs
    rw [hr, Piece.text, htext, List.cons_append, List.cons.injEq] at hrest
    exact List.append_cancel_left (hrest.2.trans List.takeWhile_append_dropWhile.symm)
  constructor
  · rw [htext]
    exact List.cons_ne_nil _ _
  · intro e he
    rw [htext] at he
    rcases List.mem_cons.1 he with rfl | he
    · exact hd
    · exact List.mem_takeWhile_imp he
  · refine ⟨ps.flatMap Piece.text, next.rest, ?_, ?_, ?_⟩
    · rw [List.append_assoc]
      exact (h.text.symm.trans (congrArg _ (step_text hs).symm) :)
    · rw [step_token_position hs, h.offset]
      exact (Nat.zero_add _).symm
    · intro e he
      rw [hnext] at he
      have := List.head?_dropWhile_not isWordChar after
      rw [Option.mem_def.1 he] at this
      simpa using this

theorem step_keyword_frames {k : Keyword} (h : mid.step = some (.token t change, next))
    (hk : t.kind = .keyword k) : next.frames = mid.frames := by
  obtain ⟨hfit, hnext⟩ := step_frames h
  rw [hk] at hfit
  cases change with
  | keep => exact hnext
  | opens kind => cases kind <;> simp [FrameChange.Fits] at hfit
  | closes kind => cases kind <;> simp [FrameChange.Fits] at hfit

end Lexer

/-- A token is a keyword just if it is a word that spells it, no frame is open there and, if it is
an `include`, all items before it on its line are blanks or the recipe prefix. So no keyword is
found within a frame, and a word that spells one is text only there, or if it is an `include` behind
something else. -/
theorem lexer_keywords (text : Text) (c : Char) :
    let lx := Lexer.start text c
    (∀ n, (lx.ahead n).next.1 = lx.yielded[n]?) ∧
      ∀ i t, lx.yielded[i]? = some (.ok t) →
        (∀ k : Keyword, t.kind = .keyword k ↔ t.IsWord text ∧ t.text ∈ k.spellings ∧
          (lx.ahead i).depth = 0 ∧ (k = .includeFile →
            ∀ item ∈ Item.sinceBreak (lx.yielded.take i), item.isLeading = true)) ∧
        (∀ k : Keyword, t.kind = .keyword k → (lx.ahead i).depth = 0 ∧ (lx.ahead (i + 1)).depth = 0) ∧
        ∀ k : Keyword, t.kind = .plainText → t.text ∈ k.spellings → 0 < (lx.ahead i).depth ∨
          k = .includeFile ∧
            ∃ item ∈ Item.sinceBreak (lx.yielded.take i), item.isLeading = false := by
  intro lx
  refine ⟨lx.ahead_next, fun i t hi => ?_⟩
  obtain ⟨ps, mid, change, next, hps, hs, hitems, hf, hf'⟩ := Lexer.step_of_yielded hi
  have hline := ((Lexer.onLine_start text c).steps hps).onlyBlanks
  rw [List.nil_append, hitems] at hline
  have hdepth : (lx.ahead i).depth = 0 ↔ mid.frames = [] := by
    rw [Lexer.depth, ← hf, List.length_eq_zero_iff]
  have hleading : mid.onlyBlanks = true ↔
      ∀ item ∈ Item.sinceBreak (lx.yielded.take i), item.isLeading = true := by
    rw [hline, List.all_eq_true]
  have hkeyword (k : Keyword) := Lexer.step_keyword_iff (k := k) hs
  rw [← hdepth, hleading] at hkeyword
  refine ⟨fun k => ⟨fun hk => ?_, fun h => (hkeyword k).2 h.2⟩, fun k hk => ⟨?_, ?_⟩, ?_⟩
  · exact ⟨hps.isWord hs (.inl (by rw [hk]; rfl)), (hkeyword k).1 hk⟩
  · exact ((hkeyword k).1 hk).2.1
  · rw [Lexer.depth, ← hf', Lexer.step_keyword_frames hs hk, hf]
    exact ((hkeyword k).1 hk).2.1
  · intro k hk hspelled
    have hn : t.kind ≠ .keyword k := by simp [hk]
    rw [ne_eq, hkeyword k] at hn
    by_cases hopen : (lx.ahead i).depth = 0
    · refine .inr ?_
      by_contra hlead
      refine hn ⟨hspelled, hopen, fun hinclude item hitem => ?_⟩
      by_contra hleading
      exact hlead ⟨hinclude, item, hitem, Bool.eq_false_iff.2 hleading⟩
    · exact .inl (Nat.pos_of_ne_zero hopen)

end MakeTree
