import MakeTree.Proofs.Lexer.Prefix

/-!
Words. What starts with a character of words is read as the whole word (`inLine_word`), unless it is
a recipe prefix, and nothing else makes a keyword (`step_word`). A word that spells a keyword is one
where no frame is open, and `include` only in front of its line (`step_keyword_iff`).
-/

namespace MakeTree

namespace Keyword

/-- The words that are read as the keyword. -/
def spellings : Keyword → List Text
  | includeFile => ["include".toList, "-include".toList, "sinclude".toList]
  | k => [k.spelling.toList]

theorem ofText_spelling {k : Keyword} : ∀ w ∈ k.spellings, ofText w = some k := by
  cases k with
  | specifier s => cases s <;> decide
  | conditional c => cases c <;> decide
  | _ => decide

theorem ofText_eq_some {w : Text} {k : Keyword} : ofText w = some k ↔ w ∈ k.spellings := by
  refine ⟨fun h => ?_, ofText_spelling w⟩
  have hw {s : String} (hs : String.ofList w = s) : w = s.toList := by
    rw [← hs, String.toList_ofList]
  unfold ofText at h
  split at h
  all_goals cases h
  all_goals
    rename_i hs
    rw [hw hs]
    decide

theorem spellings_word {k : Keyword} :
    ∀ w ∈ k.spellings, 1 < w.length ∧ w.all isWordChar = true := by
  cases k with
  | specifier s => cases s <;> decide
  | conditional c => cases c <;> decide
  | _ => decide

end Keyword

theorem ne_blank_of_isWordChar {d : Char} (h : isWordChar d = true) : isBlank d = false := by
  by_contra hb
  simp only [isBlank, Bool.not_eq_false, Bool.or_eq_true, beq_iff_eq] at hb
  rcases hb with ((rfl | rfl) | rfl) | rfl <;> exact absurd h (by decide)

namespace Shape

variable {frames : List Frame} {b : Bool} {c : Char} {t : Text}

def isKeyword : Shape → Bool
  | token kind _ _ => kind.isKeyword
  | _ => false

theorem inLine_word (hc : isWordChar c = true) :
    inLine frames b c t = word frames b (c :: t.takeWhile isWordChar) := by
  unfold inLine
  split
  case h_15 => rw [if_neg (Bool.eq_false_iff.1 (ne_blank_of_isWordChar hc)), if_pos hc]
  all_goals exact absurd hc (by decide)

theorem isKeyword_inLine (hc : isWordChar c = false) : (inLine frames b c t).isKeyword = false := by
  unfold inLine
  split
  · rw [dollar_eq]
    repeat' split
    all_goals rfl
  · rw [backslash_eq]
    split <;> rfl
  · unfold closing
    split <;> rfl
  · unfold closing
    split <;> rfl
  · unfold opening
    split <;> rfl
  · rfl
  · rw [colon_eq]
    repeat' split
    all_goals rfl
  · rw [beforeEquals_eq]
    split <;> rfl
  · rw [beforeEquals_eq]
    split <;> rfl
  · rw [beforeEquals_eq]
    split <;> rfl
  · rfl
  · rfl
  · simp only [quote]
    split <;> rfl
  · simp only [quote]
    split <;> rfl
  · rw [if_neg (Bool.eq_false_iff.1 hc)]
    split
    · rfl
    · split <;> rfl

end Shape

namespace Lexer

variable {lx next : Lexer} {t : Token} {change : FrameChange}

theorem step_word (h : lx.step = some (.token t change, next))
    (ht : t.kind.isKeyword = true ∨ ∃ k : Keyword, t.text ∈ k.spellings) : ∃ c after,
      lx.rest = c :: after ∧ isWordChar c = true ∧ t.text = c :: after.takeWhile isWordChar ∧
      Shape.word lx.frames lx.onlyBlanks t.text = .token t.kind (t.text.length - 1) change := by
  obtain ⟨c, after, hr, ⟨kind, more, ch, hs, hp, -⟩ | ⟨_, -, hp, -⟩ | ⟨-, hp, -⟩⟩ := step_cases h
  · cases hp
    have hspelled (k : Keyword) (hk : c :: after.take more ∈ k.spellings) :
        1 < (c :: after.take more).length ∧ isWordChar c = true := by
      obtain ⟨hlen, hall⟩ := Keyword.spellings_word _ hk
      exact ⟨hlen, List.all_eq_true.1 hall c List.mem_cons_self⟩
    obtain ⟨m, hb, he⟩ | ⟨_, -, -, he⟩ | ⟨-, -, he | he⟩ := lx.shape_cases c after
    · rw [he] at hs
      cases hs
      rcases ht with ht | ⟨k, hk⟩
      · cases ht
      · obtain ⟨hn, hcr⟩ := ne_break_of_isWordChar (hspelled k hk).2
        obtain ⟨hbreak, -⟩ := Text.lineBreak?_eq_some hb
        rcases hbreak with hbreak | hbreak | hbreak
        · exact absurd (List.cons.inj hbreak).1 hn
        · exact absurd (List.cons.inj hbreak).1 hcr
        · exact absurd (List.cons.inj hbreak).1 hcr
    · rw [he] at hs
      cases hs
    · rw [he] at hs
      cases hs
      rcases ht with ht | ⟨k, hk⟩
      · cases ht
      · exact absurd (hspelled k hk).1 (Nat.lt_irrefl 1)
    · have hc : isWordChar c = true := by
        rcases ht with ht | ⟨k, hk⟩
        · by_contra hc
          have hn : (Shape.inLine lx.frames lx.onlyBlanks c after).isKeyword = false :=
            Shape.isKeyword_inLine (Bool.eq_false_iff.2 hc)
          rw [← he, hs, Shape.isKeyword, ht] at hn
          cases hn
        · exact (hspelled k hk).2
      rw [Shape.inLine_word hc] at he
      have hmore : more = (after.takeWhile isWordChar).length := by
        have hm := Shape.more_word lx.frames lx.onlyBlanks (c :: after.takeWhile isWordChar)
        rwa [← he, hs] at hm
      have htext : c :: after.take more = c :: after.takeWhile isWordChar := by
        rw [hmore, ← List.prefix_iff_eq_take.1 (List.takeWhile_prefix isWordChar)]
      refine ⟨c, after, hr, hc, htext, ?_⟩
      rw [htext, ← he, hs, hmore]
      rfl
  · cases hp
  · cases hp

/-- A word that spells a keyword is one where no frame is open, and an `include` if only blanks
stand in front of it. -/
theorem step_keyword_iff {k : Keyword} (h : lx.step = some (.token t change, next)) :
    t.kind = .keyword k ↔
      t.text ∈ k.spellings ∧ lx.frames = [] ∧ (k = .includeFile → lx.onlyBlanks = true) := by
  constructor
  · intro hk
    obtain ⟨c, after, -, -, -, hword⟩ := step_word h (.inl (by rw [hk]; rfl))
    rw [hk] at hword
    unfold Shape.word at hword
    split at hword
    · cases hword
    · next k' hk' =>
      split at hword
      · next hopen =>
        cases hword
        rw [Bool.and_eq_true, List.isEmpty_iff, Bool.or_eq_true] at hopen
        refine ⟨Keyword.ofText_eq_some.1 hk', hopen.1, ?_⟩
        rintro rfl
        exact hopen.2.resolve_left (by decide)
      · cases hword
  · rintro ⟨hk, hf, hb⟩
    obtain ⟨c, after, -, -, -, hword⟩ := step_word h (.inr ⟨k, hk⟩)
    have hopen : (lx.frames.isEmpty && (k != .includeFile || lx.onlyBlanks)) = true := by
      rw [hf, Bool.and_eq_true, Bool.or_eq_true, bne_iff_ne]
      exact ⟨rfl, not_or_of_imp hb⟩
    unfold Shape.word at hword
    rw [Keyword.ofText_eq_some.2 hk] at hword
    simp only [hopen, if_true] at hword
    exact (Shape.token.inj hword).1.symm

theorem step_keyword {k : Keyword} (h : lx.step = some (.token t change, next))
    (hk : t.kind = .keyword k) : lx.frames = [] :=
  ((step_keyword_iff h).1 hk).2.1

end Lexer

end MakeTree
