import MakeTree.Proofs.Lexer.Shift
import MakeTree.Proofs.Nest.Pairing
import MakeTree.Proofs.Nest.Reading

/-!
Where lexemes stand. Each starts where the one before it ends, what leads it are continuations and
illegal characters, and a literal stands between two quotes (`seated_lexemes`). So trees that hold
nests hold their text (`Reading.text`).
-/

namespace MakeTree

/-- A backslash in front of a line break, or an illegal character. -/
def Trivia.Valid : Trivia → Prop
  | continuation s => ∃ b, Text.IsLineBreak b ∧ s = '\\' :: b
  | skipped c => isIllegal c = true

theorem Trivia.textOf_eq_nil {vs : List Trivia} (h : ∀ v ∈ vs, v.Valid) :
    textOf vs = [] ↔ vs = [] := by
  cases vs with
  | nil => simp [textOf]
  | cons v vs =>
    have hv := h v List.mem_cons_self
    have hne : v.text ≠ [] := by
      cases v with
      | continuation s =>
        obtain ⟨b, -, rfl⟩ := hv
        exact List.cons_ne_nil _ _
      | skipped c => exact List.cons_ne_nil _ _
    simp [textOf, hne]

namespace Token

/-- A literal stands between two quotes `q`. -/
def QuotedBy (t : Token) (q : Char) : Prop :=
  (q = '"' ∨ q = '\'') ∧ t.text = q :: (t.inside.rest ++ [q])

theorem QuotedBy.utf8Size {t : Token} {q : Char} (h : t.QuotedBy q) : q.utf8Size = 1 := by
  rcases h.1 with rfl | rfl
  · rfl
  · rfl

end Token

namespace Lexeme

/-- A lexeme as a lexer makes it at the offset. -/
structure Stands (start : Nat) (x : Lexeme) : Prop where
  leading : ∀ v ∈ x.leading, v.Valid
  offset : x.token.position.offset = start + (Trivia.textOf x.leading).byteSize
  literal : x.token.kind = .stringLiteral → ∃ q, x.token.QuotedBy q

/-- Lexemes one after the other, the first at the offset. -/
def Seated : Nat → List Lexeme → Prop
  | _, [] => True
  | start, x :: xs => x.Stands start ∧ Seated (start + x.text.byteSize) xs

theorem textOf_append (xs ys : List Lexeme) : textOf (xs ++ ys) = textOf xs ++ textOf ys := by
  simp [textOf]

theorem seated_append {start : Nat} {xs ys : List Lexeme} : Seated start (xs ++ ys) ↔
    Seated start xs ∧ Seated (start + (textOf xs).byteSize) ys := by
  induction xs generalizing start with
  | nil => simp [Seated, textOf, Text.byteSize]
  | cons x xs ih => simp [Seated, ih, textOf, and_assoc, Nat.add_assoc]

theorem seated_split {start : Nat} {xs : List Lexeme} {ms ns : List Nest}
    (hx : xs.map Nest.ofLexeme = ms ++ ns) (hs : Seated start xs) :
    ∃ ys zs, xs = ys ++ zs ∧ (ys.map Nest.ofLexeme = ms ∧ Seated start ys) ∧
      zs.map Nest.ofLexeme = ns ∧ Seated (start + (textOf ys).byteSize) zs := by
  obtain ⟨ys, zs, rfl, hy, hz⟩ := List.map_eq_append_iff.1 hx
  obtain ⟨h₁, h₂⟩ := seated_append.1 hs
  exact ⟨ys, zs, rfl, ⟨hy, h₁⟩, hz, h₂⟩

theorem textOf_trivia (vs : List Trivia) : Tree.textOf (vs.map Trivia.tree) = Trivia.textOf vs := by
  induction vs with
  | nil => rfl
  | cons v vs ih =>
    rw [List.map_cons, Tree.textOf, ih]
    cases v <;> rfl

theorem textOf_leaves (x : Lexeme) : Tree.textOf x.leaves = x.text := by
  rw [leaves, Tree.textOf_append, textOf_trivia, text]
  simp [Tree.textOf, Tree.text]

end Lexeme

namespace Lexer

theorem Steps.seated {lx last : Lexer} {ps : List Piece} (h : Steps lx ps last) {start : Nat}
    {leading : List Trivia} (hv : ∀ v ∈ leading, v.Valid)
    (ho : lx.position.offset = start + (Trivia.textOf leading).byteSize) :
    Lexeme.Seated start (Piece.lexemes leading ps).1 ∧
      ∀ v ∈ (Piece.lexemes leading ps).2, v.Valid := by
  induction h generalizing start leading with
  | nil lx => exact ⟨trivial, hv⟩
  | @cons lx next last p ps hs h ih =>
    have hn := step_offset_eq hs
    have later {v : Trivia} (hp : p.text = v.text) :
        next.position.offset = start + (Trivia.textOf (leading ++ [v])).byteSize := by
      simp only [Trivia.textOf, List.flatMap_append, List.flatMap_singleton,
        Text.byteSize_append] at ho ⊢
      rw [hn, ho, hp, Nat.add_assoc]
    have valid {v : Trivia} (h : v.Valid) : ∀ w ∈ leading ++ [v], w.Valid := by
      intro w hw
      rcases List.mem_append.1 hw with hw | hw
      · exact hv w hw
      · rwa [List.mem_singleton.1 hw]
    rcases p with ⟨t, change⟩ | s | ⟨q, c⟩
    · rw [Piece.lexemes]
      have ht : t.position.offset = start + (Trivia.textOf leading).byteSize := by
        rw [step_token_position hs, ho]
      have hnext : next.position.offset =
          start + (Lexeme.text ⟨leading, t⟩).byteSize + (Trivia.textOf []).byteSize := by
        rw [hn, ho, Lexeme.text, Text.byteSize_append, Nat.add_assoc]
        rfl
      obtain ⟨h₁, h₂⟩ := ih (by simp) hnext
      refine ⟨⟨⟨hv, ht, fun hk => ?_⟩, h₁⟩, h₂⟩
      obtain ⟨q, inside, hq, hi⟩ := step_stringLiteral hs hk
      refine ⟨q, hq, ?_⟩
      show t.text = q :: (t.text.tail.dropLast ++ [q])
      rw [hi, List.tail_cons, List.dropLast_concat]
    · obtain ⟨b, hb, rfl, -⟩ := step_continuation hs
      exact ih (valid ⟨b, hb, rfl⟩) (later rfl)
    · exact ih (valid (step_illegal hs).1) (later rfl)

/-- The lexemes of a text stand in it one after the other. -/
theorem seated_lexemes (lx : Lexer) : Lexeme.Seated lx.position.offset lx.lexemes.1 ∧
    ∀ v ∈ lx.lexemes.2, v.Valid :=
  lx.steps_run.seated (by simp) rfl

theorem lexemes_of_nests {lx : Lexer} {ns : List Nest} {trailing : List Trivia}
    (h : lx.nests = (ns, trailing)) :
    Nest.flattenAll ns = lx.lexemes.1.map Nest.ofLexeme ∧ trailing = lx.lexemes.2 := by
  rw [nests_eq] at h
  obtain ⟨rfl, rfl⟩ := Prod.mk.inj h
  refine ⟨Nest.flattenAll_gather fun n hn => ?_, rfl⟩
  obtain ⟨x, -, rfl⟩ := List.mem_map.1 hn
  exact Nest.isFlat_ofLexeme x

end Lexer

namespace Nest

variable {x y : Lexeme} {inside : List Nest} {trailing : List Trivia}

theorem ofLexeme_eq_leaf (h : ofLexeme y = leaf x) : y = x ∧ x.token.kind ≠ .stringLiteral := by
  have hf := congrArg first h
  rw [first_ofLexeme] at hf
  obtain rfl : y = x := hf
  refine ⟨rfl, fun hk => ?_⟩
  rw [ofLexeme, if_pos hk] at h
  split at h
  · cases h
  · cases h

theorem ofLexeme_eq_quoted (h : ofLexeme y = quoted x inside trailing) :
    y = x ∧ x.token.kind = .stringLiteral ∧ x.token.inside.unclosed? = none ∧
      x.token.inside.nests = (inside, trailing) := by
  have hf := congrArg first h
  rw [first_ofLexeme] at hf
  obtain rfl : y = x := hf
  unfold ofLexeme at h
  split at h
  · next hk =>
    split at h
    · cases h
    · next hu =>
      cases h
      exact ⟨rfl, hk, by simpa using hu, rfl⟩
  · cases h

theorem ofLexeme_eq_raw (h : ofLexeme y = raw x) :
    y = x ∧ x.token.kind = .stringLiteral ∧ x.token.inside.unclosed?.isSome = true := by
  have hf := congrArg first h
  rw [first_ofLexeme] at hf
  obtain rfl : y = x := hf
  unfold ofLexeme at h
  split at h
  · next hk =>
    split at h
    · next hu => exact ⟨rfl, hk, hu⟩
    · cases h
  · cases h

theorem map_ofLexeme_eq_singleton {xs : List Lexeme} {n : Nest} (h : [n] = xs.map ofLexeme) :
    ∃ y, xs = [y] ∧ ofLexeme y = n := by
  obtain ⟨y, rfl, hy⟩ := List.map_eq_singleton_iff.1 h.symm
  exact ⟨y, rfl, hy⟩

theorem map_ofLexeme_eq_expansion {xs : List Lexeme} {opener closer : Lexeme} {body : List Nest}
    (h : xs.map ofLexeme = (expansion opener body closer).flatten) :
    ∃ ys, xs = [opener] ++ (ys ++ [closer]) ∧ ys.map ofLexeme = flattenAll body := by
  rw [flatten, ← List.singleton_append] at h
  obtain ⟨os, xs, rfl, ho, h⟩ := List.map_eq_append_iff.1 h
  obtain ⟨ys, cs, rfl, hy, hc⟩ := List.map_eq_append_iff.1 h
  obtain ⟨o, rfl, hopener⟩ := map_ofLexeme_eq_singleton ho.symm
  obtain ⟨c, rfl, hcloser⟩ := map_ofLexeme_eq_singleton hc.symm
  obtain ⟨rfl, -⟩ := ofLexeme_eq_leaf hopener
  obtain ⟨rfl, -⟩ := ofLexeme_eq_leaf hcloser
  exact ⟨ys, rfl, hy⟩

end Nest

section Quotes

variable {x : Lexeme} {q : Char}

theorem Lexeme.openQuote_eq (h : x.token.QuotedBy q) :
    x.openQuote = x.leading.map Trivia.tree ++ [.leaf .quote [q]] := by
  rw [openQuote, h.2]
  rfl

theorem Lexeme.closeQuote_eq (h : x.token.QuotedBy q) : x.closeQuote = .leaf .quote [q] := by
  rw [closeQuote, h.2]
  congr 1
  rw [List.length_cons, List.length_append, Nat.add_sub_cancel, ← List.cons_append]
  exact List.drop_left' (by simp)

end Quotes

theorem Reading.text {P : NodeKind → Prop} {k : NodeKind} {ns : List Nest} {ts : List Tree}
    (h : Reading P k ns ts) {xs : List Lexeme} {start : Nat} (hn : ns = xs.map Nest.ofLexeme)
    (hs : Lexeme.Seated start xs) : Tree.textOf ts = Lexeme.textOf xs := by
  induction h generalizing xs start with
  | nil =>
    obtain rfl := List.map_eq_nil_iff.1 hn.symm
    rfl
  | append _ _ ih ih' =>
    obtain ⟨ys, zs, rfl, ⟨hy, h₁⟩, hz, h₂⟩ := Lexeme.seated_split hn.symm hs
    rw [Tree.textOf_append, Lexeme.textOf_append, ih hy.symm h₁, ih' hz.symm h₂]
  | node _ _ ih => simp [Tree.textOf, Tree.text, ih hn hs]
  | leaf k x =>
    obtain ⟨y, rfl, hy⟩ := Nest.map_ofLexeme_eq_singleton hn
    obtain ⟨rfl, -⟩ := Nest.ofLexeme_eq_leaf hy
    simp [Lexeme.textOf_leaves, Lexeme.textOf]
  | quoted x trailing _ ih =>
    obtain ⟨y, rfl, hy⟩ := Nest.map_ofLexeme_eq_singleton hn
    obtain ⟨rfl, hk, -, hi⟩ := Nest.ofLexeme_eq_quoted hy
    obtain ⟨q, hq⟩ := hs.1.literal hk
    obtain ⟨hf, rfl⟩ := Lexer.lexemes_of_nests hi
    have htext := y.token.inside.lexemes_text
    rw [← ih hf y.token.inside.seated_lexemes.1] at htext
    rw [Lexeme.openQuote_eq hq, Lexeme.closeQuote_eq hq]
    simp [Lexeme.textOf_trivia, Tree.textOf, Tree.text, Lexeme.textOf, Lexeme.text, hq.2, ← htext]
  | raw x _ =>
    obtain ⟨y, rfl, hy⟩ := Nest.map_ofLexeme_eq_singleton hn
    obtain ⟨rfl, -, -⟩ := Nest.ofLexeme_eq_raw hy
    simp [Lexeme.textOf_leaves, Lexeme.textOf]
  | operand x _ =>
    obtain ⟨y, rfl, hy⟩ := Nest.map_ofLexeme_eq_singleton hn
    obtain ⟨rfl, hk, -⟩ := Nest.ofLexeme_eq_raw hy
    obtain ⟨q, hq⟩ := hs.1.literal hk
    rw [Lexeme.openQuote_eq hq, Lexeme.closeQuote_eq hq]
    simp [Lexeme.textOf_trivia, Tree.textOf, Tree.text, Lexeme.textOf, Lexeme.text, hq.2]

end MakeTree
