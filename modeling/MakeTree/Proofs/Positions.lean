import Mathlib
import MakeTree.Proofs.Lexer.History
import MakeTree.Proofs.Lexer.Places
import MakeTree.Proofs.Refusals
import MakeTree.Proofs.Strictness

/-!
Positions. Whatever a reading of a text tells of, be it a token, an illegal character in quotes
within quotes, the opener of a frame that is left open, or the token that the text is refused for, it
tells the line and the column that the text in front of it makes (`parse_positions`).
-/

namespace MakeTree

namespace Lexer

variable {text : Text} {lx inner : Lexer} {e : LexError}

/-- The lexers that read a text again: that of a literal, that of a literal inside it and so on. -/
inductive Rereads (lx : Lexer) : Lexer → Prop
  | self : Rereads lx lx
  | inside {inner : Lexer} {t : Token} (h : Rereads lx inner) (ht : .ok t ∈ inner.yielded)
      (hk : t.kind = .stringLiteral) : Rereads lx t.inside

namespace Stands

theorem rereads (h : lx.Stands text) (hr : lx.Rereads inner) : inner.Stands text := by
  induction hr with
  | self => exact h
  | inside _ ht hk ih =>
    obtain ⟨ps, mid, change, next, hps, hs⟩ := exists_step ht
    exact (ih.steps hps).inside hs hk

theorem search (h : lx.Stands text) (he : lx.search.2 = some e) :
    Item.LocatedIn text (.error e) := by
  fun_induction Lexer.search lx with
  | case1 lx hs => cases he
  | case2 lx s next hs ih => exact ih (h.step hs) he
  | case3 lx q c next hs =>
    cases he
    exact h.step_located hs rfl
  | case4 lx t change next hs hk events e' hsearch ih =>
    cases he
    apply ih (h.inside hs hk)
    rw [hsearch]
  | case5 lx t change next hs hk events hsearch r _ ih => exact ih (h.step hs) he
  | case6 lx t change next hs hk r ih => exact ih (h.step hs) he

theorem objection (h : lx.Stands text) {item : Item} (hi : item ∈ lx.yielded) {strict : Bool}
    (he : Item.objection? strict item = some e) : Item.LocatedIn text (.error e) := by
  cases item with
  | ok t =>
    rw [Item.objection?] at he
    split at he
    · next hk =>
      have hk : t.kind = .stringLiteral := by simpa using (Bool.and_eq_true_iff.1 hk).2
      exact (h.rereads (.inside .self hi hk)).search he
    · cases he
  | error e' =>
    rw [Item.objection?] at he
    split at he
    · cases he
      exact h.yielded _ hi
    · cases he

theorem hidden {p : Piece} (h : lx.Stands text) (hp : p ∈ lx.run.1) (he : p.hidden? = some e) :
    Item.LocatedIn text (.error e) := by
  cases p with
  | token t change =>
    rw [Piece.hidden?] at he
    split at he
    · next hk => exact (h.rereads (.inside .self (ok_mem_yielded.2 ⟨change, hp⟩) hk)).search he
    · cases he
  | continuation s => cases he
  | illegal q c =>
    cases he
    exact h.yielded _ (mem_yielded_of_run hp rfl)

end Stands

end Lexer

theorem hidden_of_skipped {text : Text} {options : Options} {e : LexError}
    (h : .skipped e ∈ (parse text options).events) :
    ∃ p ∈ (Lexer.start text options.recipePrefix).run.1, p.hidden? = some e := by
  obtain ⟨c, strict⟩ := options
  cases strict with
  | false =>
    have hwarn : .skipped e ∈ (parse text ⟨c, false⟩).events.filter (·.level == .warn) :=
      List.mem_filter.2 ⟨h, rfl⟩
    rw [parse_warned] at hwarn
    obtain ⟨e', he, heq⟩ := List.mem_map.1 hwarn
    obtain rfl : e' = e := Event.skipped.inj heq
    obtain ⟨p, hp, hidden⟩ := List.mem_filterMap.1 he
    exact ⟨p, hp, hidden⟩
  | true =>
    -- a strict reading stops at the first illegal character and records none
    have hsearch (he : .skipped e ∈ (Lexer.start text c).search.1) : False :=
      (Lexer.isFrame_of_mem_search _ _ he).isProgress rfl
    have hparse (he : .skipped e ∈ (Lexer.start text c).parse.events) : False :=
      Lexer.isProgress_of_mem_parse _ _ he rfl
    unfold parse at h
    simp only [Lexer.survey, if_true] at h
    split at h
    · next hs =>
      rw [← (Prod.mk.inj hs).1] at h
      exact (hsearch h).elim
    · next hs =>
      rw [← (Prod.mk.inj hs).1] at h
      exact ((List.mem_append.1 h).elim hsearch hparse).elim

theorem objection_of_result {text : Text} {options : Options} {e : LexError}
    (h : (parse text options).result = .error (.lex e)) :
    ∃ item ∈ (Lexer.start text options.recipePrefix).yielded,
      Item.objection? options.strict item = some e := by
  rw [parse_result_start, Lexer.result, Lexer.refusal_start] at h
  cases ho : (Lexer.start text options.recipePrefix).yielded.findSome?
    (Item.objection? options.strict) with
  | none =>
    rw [ho, Lexer.parse_result_eq] at h
    simp only at h
    split at h <;> cases h
  | some e' =>
    rw [ho] at h
    cases h
    exact List.exists_of_findSome?_eq_some ho

/-- Every token and every error of a text carries the position of the place where it stands: its
line counts the line breaks in front of that, CR LF as one, and its column the characters behind the
last of them. This holds of what stands in literals, at any depth, of what a text is refused for,
and of what is recorded as skipped. -/
theorem parse_positions (text : Text) (options : Options) :
    (∀ lx, (Lexer.start text options.recipePrefix).Rereads lx →
      ∀ item ∈ lx.yielded, item.LocatedIn text) ∧
    (∀ e, (parse text options).result = .error (.lex e) → Item.LocatedIn text (.error e)) ∧
    (∀ e, .skipped e ∈ (parse text options).events → Item.LocatedIn text (.error e)) ∧
    ∀ found expected,
      (parse text options).result = .error (.parse (.unexpectedToken found expected)) →
        Item.LocatedIn text (.ok found) := by
  have hstands := Lexer.stands_start text options.recipePrefix
  refine ⟨fun lx hr => (hstands.rereads hr).yielded, fun e h => ?_, fun e h => ?_,
    fun found expected h => ?_⟩
  · obtain ⟨item, hi, he⟩ := objection_of_result h
    exact hstands.objection hi he
  · obtain ⟨p, hp, he⟩ := hidden_of_skipped h
    exact hstands.hidden hp he
  · rw [parse_result_start] at h
    exact hstands.yielded _ (Lexer.mem_yielded (Lexer.found_mem_tokens h))

/-- An illegal character in quotes within quotes, behind a line break of two characters, and a token
that no statement starts with. -/
theorem parse_positions_quoted :
    ((parse "\r\na='\"\x01\"'".toList ⟨'\t', true⟩).result =
        .error (.lex (.illegalCharacter ⟨2, 5, 6⟩ '\x01')) ∧
      Item.LocatedIn "\r\na='\"\x01\"'".toList
        (.error (.illegalCharacter ⟨2, 5, 6⟩ '\x01'))) ∧
    ∃ found expected, (parse "\r\n\rab\n".toList {}).result =
        .error (.parse (.unexpectedToken found expected)) ∧
      found.position = ⟨3, 1, 3⟩ ∧ Item.LocatedIn "\r\n\rab\n".toList (.ok found) := by
  have h : (parse "\r\na='\"\x01\"'".toList ⟨'\t', true⟩).result =
      .error (.lex (.illegalCharacter ⟨2, 5, 6⟩ '\x01')) := by cbv
  have h' : (parse "\r\n\rab\n".toList {}).result = .error (.parse (.unexpectedToken
      ⟨.plainText, ['a', 'b'], ⟨3, 1, 3⟩⟩ [.token .colon, .token .assignOp])) := by cbv
  exact ⟨⟨h, (parse_positions _ _).2.1 _ h⟩, _, _, h', rfl, (parse_positions _ _).2.2.2 _ _ h'⟩

end MakeTree
