import MakeTree.Parse
import MakeTree.Proofs.Lexer.Run

/-!
What a run says of the items a lexer yields (`steps_of_items`), of the search for illegal
characters (`search_eq`), and so of what stands in the way of parsing a text (`refusal_eq`).
-/

namespace MakeTree

namespace Lexer

theorem steps_of_next {lx after : Lexer} {item : Item} (h : lx.next = (some item, after)) :
    (∃ ps, Steps lx ps after ∧
      ((∃ t change, item = .ok t ∧ ps.getLast? = some (.token t change)) ∨
        ∃ e, item = .error e)) ∨
    after.finished = true ∧ after.rest = [] ∧ ∃ e, item = .error e := by
  fun_induction next lx with
  | case1 lx t change next hs =>
    obtain ⟨h₁, rfl⟩ := Prod.mk.inj h
    cases h₁
    exact .inl ⟨_, .cons hs (.nil _), .inl ⟨t, change, rfl, rfl⟩⟩
  | case2 lx q c next hs =>
    obtain ⟨h₁, rfl⟩ := Prod.mk.inj h
    cases h₁
    exact .inl ⟨_, .cons hs (.nil _), .inr ⟨_, rfl⟩⟩
  | case3 lx s next hs ih =>
    obtain ⟨ps, hp, hl⟩ | hf := ih h
    · refine .inl ⟨_, .cons hs hp, hl.imp_left ?_⟩
      rintro ⟨t, change, hi, hl⟩
      exact ⟨t, change, hi, by simp [List.getLast?_cons, hl]⟩
    · exact .inr hf
  | case4 lx hs hf => cases h
  | case5 lx hs hf =>
    obtain ⟨h₁, rfl⟩ := Prod.mk.inj h
    obtain ⟨f, -, rfl⟩ := Option.map_eq_some_iff.1 h₁
    have hr : lx.rest = [] := step_eq_none.1 hs
    exact .inr ⟨rfl, hr, _, rfl⟩

theorem items_cons {lx after : Lexer} {item : Item} (h : lx.next = (some item, after)) :
    lx.items = (item, after) :: after.items := by
  rw [items]
  split
  · next hn =>
    rw [h] at hn
    cases hn
  · next hn =>
    rw [h] at hn
    cases hn
    rfl

theorem items_nil {lx after : Lexer} (h : lx.next = (none, after)) : lx.items = [] := by
  rw [items]
  split
  · rfl
  · next hn =>
    rw [h] at hn
    cases hn

theorem next_of_finished {lx : Lexer} (hf : lx.finished = true) (hr : lx.rest = []) :
    lx.next = (none, lx) := by
  unfold next
  split <;> simp_all [step_eq_none.2 hr]

theorem items_of_finished {lx : Lexer} (hf : lx.finished = true) (hr : lx.rest = []) :
    lx.items = [] :=
  items_nil (next_of_finished hf hr)

theorem steps_of_items {lx after : Lexer} {t : Token} (h : (.ok t, after) ∈ lx.items) :
    ∃ ps change, Steps lx ps after ∧ ps.getLast? = some (.token t change) := by
  fun_induction items lx with
  | case1 lx next hn => cases h
  | case2 lx item next hn ih =>
    rcases List.mem_cons.1 h with he | hm
    · obtain ⟨rfl, rfl⟩ := Prod.mk.inj he
      obtain ⟨ps, hs, hl⟩ | ⟨-, -, e, he⟩ := steps_of_next hn
      · obtain ⟨t', change, he, hl⟩ | ⟨e, he⟩ := hl
        · cases he
          exact ⟨ps, change, hs, hl⟩
        · cases he
      · cases he
    · obtain ⟨qs, change, hq, hl⟩ := ih hm
      obtain ⟨ps, hs, -⟩ | ⟨hf, hr, -⟩ := steps_of_next hn
      · exact ⟨ps ++ qs, change, hs.append hq, by rw [List.getLast?_append, hl, Option.some_or]⟩
      · rw [items_of_finished hf hr] at hm
        cases hm

end Lexer

namespace Piece

/-- The illegal character that the piece is or holds. -/
def hidden? : Piece → Option LexError
  | token t _ => if t.kind = .stringLiteral then t.inside.search.2 else none
  | continuation _ => none
  | illegal p c => some (.illegalCharacter p c)

end Piece

namespace Lexer

theorem search_eq (lx : Lexer) : lx.search.2 = lx.run.1.findSome? Piece.hidden? := by
  fun_induction search lx with
  | case1 lx h =>
    rw [run_of_rest (step_eq_none.1 h)]
    rfl
  | case2 lx s next h ih =>
    rw [ih, (Steps.cons h (.nil _)).run]
    rfl
  | case3 lx q c next h =>
    rw [(Steps.cons h (.nil _)).run]
    rfl
  | case4 lx t change next h hk events e he ih =>
    rw [(Steps.cons h (.nil _)).run]
    simp [Piece.hidden?, hk, he]
  | case5 lx t change next h hk events he r ih₁ ih₂ =>
    rw [(Steps.cons h (.nil _)).run]
    simpa [Piece.hidden?, hk, he] using ih₂
  | case6 lx t change next h hk r ih =>
    rw [(Steps.cons h (.nil _)).run]
    simpa [Piece.hidden?, hk] using ih

/-- What stands in the way of parsing the text. -/
def refusal (lx : Lexer) (strict : Bool) : Option LexError := (lx.survey strict).2

theorem refusal_eq (lx : Lexer) (strict : Bool) : lx.refusal strict =
    ((if strict then lx.run.1.findSome? Piece.hidden? else none) <|>
      lx.unclosed?.map .unterminated) := by
  unfold refusal survey
  cases strict with
  | false => rfl
  | true => rw [← search_eq]; rfl

theorem refusal_eq_none {lx : Lexer} {strict : Bool} : lx.refusal strict = none ↔
    (strict = true → lx.run.1.findSome? Piece.hidden? = none) ∧ lx.unclosed? = none := by
  rw [refusal_eq]
  cases strict <;> simp

end Lexer

theorem parse_result (text : Text) (options : Options) : (parse text options).result =
    match (Lexer.start text options.recipePrefix).refusal options.strict with
    | some e => .error (.lex e)
    | none => (Lexer.start text options.recipePrefix).parse.result := by
  simp only [parse, Lexer.refusal]
  rcases (Lexer.start text options.recipePrefix).survey options.strict with ⟨events, _ | e⟩
  · rfl
  · rfl

end MakeTree
