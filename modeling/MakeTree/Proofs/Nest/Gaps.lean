import MakeTree.Proofs.Nest.Placement

/-!
Putting back what stands between tokens. The text up to a token, cut up without the lexer that passed
over it, comes to what the lexer passed over (`ofGap_textOf`): no piece of it starts with a line
feed, so none runs into the one before. So lexemes come of their tokens, where these know their
offsets in the text (`ofTokens_of_seated`).
-/

namespace MakeTree

namespace Text

theorem takeBytes_append (a b : Text) : takeBytes a.byteSize (a ++ b) = a := by
  induction a with
  | nil => unfold byteSize takeBytes; rfl
  | cons c a ih =>
    obtain ⟨n, hn⟩ := Nat.exists_eq_succ_of_ne_zero (byteSize_pos (List.cons_ne_nil c a)).ne'
    rw [hn, List.cons_append, takeBytes]
    rw [byteSize] at hn
    rw [show n + 1 - c.utf8Size = byteSize a by omega, ih]

end Text

namespace Trivia

theorem ne_of_isIllegal {c d : Char} (hc : isIllegal c = true) (hd : isIllegal d = false) :
    c ≠ d := by
  intro h
  rw [h, hd] at hc
  exact absurd hc (by decide)

theorem head?_textOf {vs : List Trivia} (h : ∀ v ∈ vs, v.Valid) :
    (textOf vs).head? ≠ some '\n' := by
  cases vs with
  | nil => simp [textOf]
  | cons v vs =>
    have hv := h v List.mem_cons_self
    cases v with
    | continuation s =>
      obtain ⟨b, -, rfl⟩ := hv
      simp [textOf, text]
    | skipped c =>
      have hc := ne_of_isIllegal hv (show isIllegal '\n' = false by decide)
      simpa [textOf, text] using hc

/-- A text that pieces were passed over in is cut up into these pieces. -/
theorem ofGap_textOf {vs : List Trivia} (h : ∀ v ∈ vs, v.Valid) : ofGap (textOf vs) = vs := by
  induction vs with
  | nil => simp [textOf, ofGap]
  | cons v vs ih =>
    obtain ⟨hv, hvs⟩ := List.forall_mem_cons.1 h
    have ih := ih hvs
    cases v with
    | continuation s =>
      obtain ⟨b, hb, rfl⟩ := hv
      have htext : textOf (continuation ('\\' :: b) :: vs) = '\\' :: (b ++ textOf vs) := rfl
      have hlen : b.length - 1 + 1 = b.length := by
        rcases hb with rfl | rfl | rfl <;> rfl
      have hc : Text.continuation? ('\\' :: (b ++ textOf vs)) = some b.length := by
        rw [Text.continuation?_eq, List.tail_cons, hb.lineBreak? (head?_textOf hvs)]
        simp [hlen]
      rw [htext, ofGap, hc]
      simp [ih]
    | skipped c =>
      have htext : textOf (skipped c :: vs) = c :: textOf vs := rfl
      have hne := ne_of_isIllegal hv (show isIllegal '\\' = false by decide)
      have hc : Text.continuation? (c :: textOf vs) = none := by
        rw [Text.continuation?_eq]
        simp [hne]
      rw [htext, ofGap, hc, ih]

end Trivia

theorem Lexeme.ofTokens_of_seated {cursor : Nat} {xs : List Lexeme} (h : Seated cursor xs)
    {trailing : List Trivia} (hv : ∀ v ∈ trailing, v.Valid) :
    ofTokens cursor (textOf xs ++ Trivia.textOf trailing) (xs.map token) = (xs, trailing) := by
  induction xs generalizing cursor with
  | nil =>
    rw [List.map_nil, ofTokens]
    exact congrArg _ (Trivia.ofGap_textOf hv)
  | cons x xs ih =>
    obtain ⟨hx, hxs⟩ := h
    have htext : textOf (x :: xs) ++ Trivia.textOf trailing = Trivia.textOf x.leading ++
        (x.token.text ++ (textOf xs ++ Trivia.textOf trailing)) := by
      simp [textOf, text]
    have hgap : x.token.position.offset - cursor = (Trivia.textOf x.leading).byteSize := by
      rw [hx.offset, Nat.add_sub_cancel_left]
    have hstop : x.token.stop = cursor + x.text.byteSize := by
      rw [Token.stop, hx.offset, text, Text.byteSize_append, Nat.add_assoc]
    rw [List.map_cons, ofTokens, htext, hgap, Text.takeBytes_append, ← List.append_assoc,
      List.drop_left, hstop, ih hxs, Trivia.ofGap_textOf hx.leading]

end MakeTree
