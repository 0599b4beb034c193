import Mathlib
import MakeTree.Proofs.Lexer.Places
import MakeTree.Proofs.Strictness
import MakeTree.Proofs.TokenFidelity

/-!
Illegal characters in the log and in the tree (`parse_reports`). A lenient reading warns once of
each piece of the text that is or holds an illegal character, whereas each illegal character makes a
leaf, but for those in literals that are not read again. So both tell of the same characters just if
no literal holds two of them, and none that is not read again holds one.
-/

namespace MakeTree

/-- Whether a literal is read again for what it holds. -/
def Token.isReread (t : Token) : Bool := t.inside.unclosed?.isNone

namespace Lexer

/-- The illegal characters of a text, those in its literals with `q` too, at any depth. -/
def flaws (q : Token → Bool) (lx : Lexer) : List LexError :=
  match _h : lx.step with
  | none => []
  | some (.continuation _, next) => next.flaws q
  | some (.illegal p c, next) => .illegalCharacter p c :: next.flaws q
  | some (.token t _, next) =>
    if t.kind = .stringLiteral ∧ q t = true then t.inside.flaws q ++ next.flaws q
    else next.flaws q
termination_by lx.rest.length
decreasing_by all_goals first | exact step_lt _h | exact inside_lt _h

end Lexer

def Token.flaws (q : Token → Bool) (t : Token) : List LexError :=
  if t.kind = .stringLiteral ∧ q t = true then t.inside.flaws q else []

namespace Piece

/-- The illegal characters that the piece is or holds. -/
def flaws (q : Token → Bool) : Piece → List LexError
  | token t _ => t.flaws q
  | continuation _ => []
  | illegal p c => [.illegalCharacter p c]

def hidden (p : Piece) : List LexError := p.flaws fun _ => true

/-- The illegal characters of the piece that make leaves. -/
def kept (p : Piece) : List LexError := p.flaws Token.isReread

end Piece

namespace Lexer

variable {q : Token → Bool}

theorem flaws_eq (lx : Lexer) : lx.flaws q = lx.run.1.flatMap (Piece.flaws q) := by
  fun_induction flaws q lx with
  | case1 lx h =>
    rw [run_of_rest (step_eq_none.1 h)]
    rfl
  | case2 lx s next h ih =>
    rw [ih, (Steps.cons h (.nil _)).run]
    rfl
  | case3 lx p c next h ih =>
    rw [ih, (Steps.cons h (.nil _)).run]
    rfl
  | case4 lx t change next h hk _ ih =>
    rw [ih, (Steps.cons h (.nil _)).run]
    simp [Piece.flaws, Token.flaws, hk]
  | case5 lx t change next h hk ih =>
    rw [ih, (Steps.cons h (.nil _)).run]
    simp [Piece.flaws, Token.flaws, hk]

theorem flaws_step {lx next : Lexer} {p : Piece} (h : lx.step = some (p, next)) :
    lx.flaws q = p.flaws q ++ next.flaws q := by
  rw [flaws_eq lx, flaws_eq next, (Steps.cons h (.nil _)).run]
  rfl

theorem search_eq_head? (lx : Lexer) : lx.search.2 = (lx.flaws fun _ => true).head? := by
  fun_induction search lx with
  | case1 lx h =>
    rw [flaws_eq, run_of_rest (step_eq_none.1 h)]
    rfl
  | case2 lx s next h ih => rw [ih, flaws_step h]; rfl
  | case3 lx p c next h => rw [flaws_step h]; rfl
  | case4 lx t change next h hk events e he ih =>
    rw [he] at ih
    rw [flaws_step h, List.head?_append, Piece.flaws, Token.flaws, if_pos ⟨hk, rfl⟩, ← ih]
    rfl
  | case5 lx t change next h hk events he r ih₁ ih₂ =>
    rw [he] at ih₁
    rw [flaws_step h, List.head?_append, Piece.flaws, Token.flaws, if_pos ⟨hk, rfl⟩, ← ih₁, ← ih₂]
    rfl
  | case6 lx t change next h hk r ih =>
    rw [flaws_step h, Piece.flaws, Token.flaws, if_neg fun h => hk h.1, List.nil_append, ← ih]

theorem flaws_sublist {r : Token → Bool} (hqr : ∀ t, q t = true → r t = true) (lx : Lexer) :
    (lx.flaws q).Sublist (lx.flaws r) := by
  fun_induction flaws q lx with
  | case1 lx h => exact List.nil_sublist _
  | case2 lx s next h ih =>
    rw [flaws_step h]
    exact ih
  | case3 lx p c next h ih =>
    rw [flaws_step h]
    exact ih.cons_cons _
  | case4 lx t change next h hk ih₁ ih₂ =>
    rw [flaws_step h, Piece.flaws, Token.flaws, if_pos ⟨hk.1, hqr t hk.2⟩]
    exact ih₁.append ih₂
  | case5 lx t change next h hk ih =>
    rw [flaws_step h]
    exact ih.trans (List.sublist_append_right _ _)

end Lexer

namespace Piece

theorem hidden?_eq (p : Piece) : p.hidden? = p.hidden.head? := by
  cases p with
  | token t change =>
    rw [hidden?, hidden, flaws, Token.flaws, Lexer.search_eq_head?]
    split
    · next hk => rw [if_pos ⟨hk, rfl⟩]
    · next hk => rw [if_neg fun h => hk h.1]; rfl
  | continuation s => rfl
  | illegal q c => rfl

theorem kept_sublist (p : Piece) : p.kept.Sublist p.hidden := by
  cases p with
  | token t change =>
    rw [kept, hidden, flaws, flaws, Token.flaws]
    split
    · next hk =>
      rw [Token.flaws, if_pos ⟨hk.1, rfl⟩]
      exact Lexer.flaws_sublist (fun _ _ => rfl) t.inside
    · exact List.nil_sublist _
  | continuation s => exact List.Sublist.refl _
  | illegal q c => exact List.Sublist.refl _

end Piece

/-- The error is of an illegal character in the text, which starts at `p`. -/
def LexError.StandsIn (p : Position) (s : Text) (e : LexError) : Prop :=
  ∃ before d after, s = before ++ d :: after ∧ isIllegal d = true ∧
    e = .illegalCharacter (p.past before) d

namespace LexError.StandsIn

variable {p : Position} {s u : Text} {e : LexError}

theorem append (h : e.StandsIn p s) (u : Text) : e.StandsIn p (s ++ u) := by
  obtain ⟨before, d, after, rfl, hd, he⟩ := h
  exact ⟨before, d, after ++ u, by simp, hd, he⟩

theorem behind (hu : u.Seam s) (h : e.StandsIn (p.past u) s) : e.StandsIn p (u ++ s) := by
  obtain ⟨before, d, after, rfl, hd, rfl⟩ := h
  refine ⟨u ++ before, d, after, by simp, hd, ?_⟩
  rw [Position.past_append]
  intro hl hb
  refine hu hl ?_
  rw [List.head?_append, hb]
  rfl

theorem offset (h : e.StandsIn p s) :
    p.offset ≤ e.position.offset ∧ e.position.offset < p.offset + s.byteSize := by
  obtain ⟨before, d, after, rfl, -, rfl⟩ := h
  have := d.utf8Size_pos
  simp only [LexError.position, Position.past_offset, Text.byteSize_append, Text.byteSize]
  omega

theorem of_inside {lx next : Lexer} {t : Token} {change : FrameChange}
    (hs : lx.step = some (.token t change, next)) (hk : t.kind = .stringLiteral)
    (h : e.StandsIn t.inside.position t.inside.rest) : e.StandsIn lx.position t.text := by
  obtain ⟨q, inside, hq, hi, hrest, hposition⟩ := Lexer.step_inside hs hk
  rw [hrest, hposition] at h
  rw [hi, ← List.singleton_append]
  refine (h.append [q]).behind ?_
  intro hl
  exact absurd (by simpa using hl) hq

end LexError.StandsIn

namespace Lexer

variable {q : Token → Bool} {e : LexError}

theorem standsIn_of_mem_flaws {lx : Lexer} (h : e ∈ lx.flaws q) :
    e.StandsIn lx.position lx.rest := by
  have later {lx next : Lexer} {p : Piece} (hs : lx.step = some (p, next))
      (h : e.StandsIn next.position next.rest) : e.StandsIn lx.position lx.rest := by
    rw [step_position hs] at h
    rw [← step_text hs]
    exact h.behind (step_seam hs)
  fun_induction flaws q lx with
  | case1 lx hs => cases h
  | case2 lx s next hs ih => exact later hs (ih h)
  | case3 lx p c next hs ih =>
    rcases List.mem_cons.1 h with rfl | h
    · obtain ⟨hc, rfl⟩ := step_illegal hs
      exact ⟨[], c, next.rest, (step_text hs).symm, hc, rfl⟩
    · exact later hs (ih h)
  | case4 lx t change next hs hk ih₁ ih₂ =>
    rcases List.mem_append.1 h with h | h
    · rw [← step_text hs]
      exact ((ih₁ h).of_inside hs hk.1).append next.rest
    · exact later hs (ih₂ h)
  | case5 lx t change next hs hk ih => exact later hs (ih h)

theorem step_flaws {lx next : Lexer} {p : Piece} (hs : lx.step = some (p, next))
    (h : e ∈ p.flaws q) : e.StandsIn lx.position p.text := by
  cases p with
  | token t change =>
    rw [Piece.flaws, Token.flaws] at h
    split at h
    · next hk => exact (standsIn_of_mem_flaws h).of_inside hs hk.1
    · cases h
  | continuation s => cases h
  | illegal p c =>
    obtain rfl := List.mem_singleton.1 h
    obtain ⟨hc, rfl⟩ := step_illegal hs
    exact ⟨[], c, [], rfl, hc, rfl⟩

theorem Steps.flaws_head {lx next last : Lexer} {p : Piece} {ps : List Piece}
    (hs : lx.step = some (p, next)) (h : Steps next ps last) {f : Piece → List LexError}
    (hf : ∀ p, f p ⊆ p.hidden) :
    ((p :: ps).flatMap f).filter (·.position.offset < next.position.offset) = f p := by
  rw [List.flatMap_cons, List.filter_append, List.filter_eq_self.2, List.filter_eq_nil_iff.2,
    List.append_nil]
  · intro e he
    obtain ⟨p', hp, he⟩ := List.mem_flatMap.1 he
    have hm : e ∈ next.flaws fun _ => true := by
      rw [flaws_eq, h.run]
      exact List.mem_flatMap.2 ⟨p', List.mem_append_left _ hp, hf p' he⟩
    have := (standsIn_of_mem_flaws hm).offset
    simpa using this.1
  · intro e he
    have := (step_flaws hs (hf p he)).offset
    have := step_offset_eq hs
    simp only [decide_eq_true_eq]
    omega

/-- Two ways to choose among what is found come to the same only if they do so in each piece. -/
theorem Steps.flaws_ext {lx last : Lexer} {ps : List Piece} (h : Steps lx ps last)
    {f g : Piece → List LexError} (hf : ∀ p, f p ⊆ p.hidden) (hg : ∀ p, g p ⊆ p.hidden)
    (he : ps.flatMap f = ps.flatMap g) : ∀ p ∈ ps, f p = g p := by
  induction h with
  | nil => exact fun p hp => absurd hp List.not_mem_nil
  | @cons lx next last p ps hs h ih =>
    have hp : f p = g p := by rw [← h.flaws_head hs hf, he, h.flaws_head hs hg]
    rw [List.flatMap_cons, List.flatMap_cons, hp] at he
    intro r hr
    rcases List.mem_cons.1 hr with rfl | hr
    · exact hp
    · exact ih (List.append_cancel_left he) r hr

end Lexer

/-- Where the error is, and the character. -/
def LexError.stretch : LexError → Nat × Text
  | illegalCharacter p d => (p.offset, [d])
  | unterminated f => (f.position.offset, [])

namespace Trivia

/-- The skipped characters among what is passed over from an offset on. -/
def skips (start : Nat) : List Trivia → List (Nat × Text)
  | [] => []
  | continuation s :: vs => skips (start + s.byteSize) vs
  | skipped d :: vs => (start, [d]) :: skips (start + Text.byteSize [d]) vs

theorem skips_append (start : Nat) (vs ws : List Trivia) :
    skips start (vs ++ ws) = skips start vs ++ skips (start + (textOf vs).byteSize) ws := by
  induction vs generalizing start with
  | nil => rfl
  | cons v vs ih =>
    have ht : textOf (v :: vs) = v.text ++ textOf vs := rfl
    rw [ht, Text.byteSize_append, ← Nat.add_assoc]
    cases v with
    | continuation s => exact ih _
    | skipped d => exact congrArg _ (ih _)

end Trivia

namespace Lexeme

/-- The skipped characters in front of the token of a lexeme that starts at an offset, and inside
of it. -/
def skips (start : Nat) (x : Lexeme) : List (Nat × Text) :=
  Trivia.skips start x.leading ++ (x.token.flaws Token.isReread).map LexError.stretch

def skipsOf (start : Nat) : List Lexeme → List (Nat × Text)
  | [] => []
  | x :: xs => x.skips start ++ skipsOf (start + x.text.byteSize) xs

theorem skipsOf_append (start : Nat) (xs ys : List Lexeme) :
    skipsOf start (xs ++ ys) = skipsOf start xs ++ skipsOf (start + (textOf xs).byteSize) ys := by
  induction xs generalizing start with
  | nil => rfl
  | cons x xs ih =>
    have ht : textOf (x :: xs) = x.text ++ textOf xs := rfl
    rw [List.cons_append, skipsOf, skipsOf, ih, ht, Text.byteSize_append, Nat.add_assoc,
      List.append_assoc]

end Lexeme

namespace Lexer

theorem Steps.skips {lx last : Lexer} {ps : List Piece} (h : Steps lx ps last) {start : Nat}
    {leading : List Trivia}
    (ho : lx.position.offset = start + (Trivia.textOf leading).byteSize) :
    Lexeme.skipsOf start (Piece.lexemes leading ps).1 ++
      Trivia.skips (start + (Lexeme.textOf (Piece.lexemes leading ps).1).byteSize)
        (Piece.lexemes leading ps).2 =
      Trivia.skips start leading ++ (ps.flatMap Piece.kept).map LexError.stretch := by
  induction h generalizing start leading with
  | nil lx => simp [Piece.lexemes, Lexeme.skipsOf, Lexeme.textOf, Text.byteSize]
  | @cons lx next last p ps hs h ih =>
    have hn := step_offset_eq hs
    have later {v : Trivia} (hp : p.text = v.text) :
        next.position.offset = start + (Trivia.textOf (leading ++ [v])).byteSize := by
      simp only [Trivia.textOf, List.flatMap_append, List.flatMap_singleton,
        Text.byteSize_append] at ho ⊢
      rw [hn, ho, hp, Nat.add_assoc]
    rw [List.flatMap_cons, List.map_append]
    rcases p with ⟨t, change⟩ | s | ⟨q, d⟩
    · have hnext : next.position.offset =
          start + (Lexeme.text ⟨leading, t⟩).byteSize + (Trivia.textOf []).byteSize := by
        rw [hn, ho, Lexeme.text, Text.byteSize_append, Nat.add_assoc]
        rfl
      rw [Piece.lexemes, Lexeme.skipsOf, List.append_assoc]
      have ht (xs : List Lexeme) : Lexeme.textOf (⟨leading, t⟩ :: xs) =
          Lexeme.text ⟨leading, t⟩ ++ Lexeme.textOf xs := rfl
      rw [ht, Text.byteSize_append, ← Nat.add_assoc, ih hnext]
      simp [Lexeme.skips, Trivia.skips, Piece.kept, Piece.flaws]
    · rw [Piece.lexemes, ih (later rfl), Trivia.skips_append]
      simp [Trivia.skips, Piece.kept, Piece.flaws]
    · obtain ⟨-, rfl⟩ := step_illegal hs
      rw [Piece.lexemes, ih (later rfl), Trivia.skips_append, ← ho, List.append_assoc]
      rfl

end Lexer

namespace Tree

/-- The skipped characters among the leaves of trees that start at an offset. -/
def skips (parent : NodeKind) (start : Nat) (ts : List Tree) : List (Nat × Text) :=
  ((spotsOf parent start ts).filter (·.kind == .skipped)).map fun s => (s.offset, s.text)

section Skips

variable (parent : NodeKind) (start : Nat)

theorem skips_append (ts us : List Tree) : skips parent start (ts ++ us) =
    skips parent start ts ++ skips parent (start + (textOf ts).byteSize) us := by
  rw [skips, Accounts.spotsOf_append, List.filter_append, List.map_append]
  rfl

theorem skips_node (k : NodeKind) (ts : List Tree) :
    skips parent start [.node k ts] = skips k start ts := by
  rw [skips, spotsOf, spots, spotsOf, List.append_nil]
  rfl

theorem skips_leaf {k : LeafKind} (hk : k ≠ .skipped) (s : Text) :
    skips parent start [.leaf k s] = [] := by
  simp [skips, spotsOf, spots, hk]

theorem skips_trivia (vs : List Trivia) :
    skips parent start (vs.map Trivia.tree) = Trivia.skips start vs := by
  induction vs generalizing start with
  | nil => rfl
  | cons v vs ih =>
    rw [List.map_cons, ← List.singleton_append, skips_append, ih]
    cases v with
    | continuation s => simp [Trivia.tree, skips_leaf, Trivia.skips, textOf, Tree.text]
    | skipped d => simp [Trivia.tree, skips, spotsOf, spots, Trivia.skips, textOf, Tree.text]

end Skips

end Tree

namespace Lexeme

variable {start : Nat} {x : Lexeme}

theorem skipsOf_singleton : skipsOf start [x] = x.skips start := List.append_nil _

theorem skips_of_not_reread
    (h : ¬ (x.token.kind = .stringLiteral ∧ x.token.isReread = true)) :
    x.skips start = Trivia.skips start x.leading := by
  rw [skips, Token.flaws, if_neg h, List.map_nil, List.append_nil]

theorem skips_leaves (k : NodeKind)
    (h : ¬ (x.token.kind = .stringLiteral ∧ x.token.isReread = true)) :
    Tree.skips k start x.leaves = skipsOf start [x] := by
  rw [leaves, Tree.skips_append, Tree.skips_trivia, Tree.skips_leaf _ _ (by simp), List.append_nil,
    skipsOf_singleton, skips_of_not_reread h]

theorem not_reread (hu : x.token.inside.unclosed?.isSome = true) :
    ¬ (x.token.kind = .stringLiteral ∧ x.token.isReread = true) := by
  rintro ⟨-, h⟩
  rw [Token.isReread, Option.isNone_iff_eq_none] at h
  rw [h] at hu
  cases hu

end Lexeme

/-- Trees that hold the nests of lexemes have leaves for the characters skipped in front of these
and inside of them. -/
theorem Reading.skips {P : NodeKind → Prop} {k : NodeKind} {ns : List Nest} {ts : List Tree}
    (h : Reading P k ns ts) {xs : List Lexeme} {start : Nat} (hn : ns = xs.map Nest.ofLexeme)
    (hs : Lexeme.Seated start xs) : Tree.skips k start ts = Lexeme.skipsOf start xs := by
  induction h generalizing xs start with
  | nil =>
    obtain rfl := List.map_eq_nil_iff.1 hn.symm
    rfl
  | append h _ ih ih' =>
    obtain ⟨ys, zs, rfl, ⟨hy, h₁⟩, hz, h₂⟩ := Lexeme.seated_split hn.symm hs
    rw [Tree.skips_append, Lexeme.skipsOf_append, ih hy.symm h₁, h.text hy.symm h₁,
      ih' hz.symm h₂]
  | node _ _ ih => rw [Tree.skips_node, ih hn hs]
  | leaf k x =>
    obtain ⟨y, rfl, hy⟩ := Nest.map_ofLexeme_eq_singleton hn
    obtain ⟨rfl, hk⟩ := Nest.ofLexeme_eq_leaf hy
    exact Lexeme.skips_leaves k fun h => hk h.1
  | quoted x trailing h ih =>
    obtain ⟨y, rfl, hy⟩ := Nest.map_ofLexeme_eq_singleton hn
    obtain ⟨rfl, hk, hu, hi⟩ := Nest.ofLexeme_eq_quoted hy
    obtain ⟨q, hq⟩ := hs.1.literal hk
    obtain ⟨hf, rfl⟩ := Lexer.lexemes_of_nests hi
    have hseat := y.token.inside.seated_lexemes.1
    have hin := ih hf hseat
    have hskips : _ = (y.token.inside.run.1.flatMap Piece.kept).map LexError.stretch :=
      @Lexer.Steps.skips _ _ _ y.token.inside.steps_run _ [] rfl
    have hreread : y.token.kind = .stringLiteral ∧ y.token.isReread = true :=
      ⟨hk, by rw [Token.isReread, hu]; rfl⟩
    have hstart : start + (Tree.textOf y.openQuote).byteSize = y.token.inside.position.offset := by
      have hsize : Text.byteSize [q] = 1 := by simp [Text.byteSize, hq.utf8Size]
      rw [Lexeme.openQuote_eq hq, Tree.textOf_append, Lexeme.textOf_trivia, Text.byteSize_append,
        ← Nat.add_assoc, ← hs.1.offset]
      simp [Tree.textOf, Tree.text, hsize, Token.inside]
    rw [Lexeme.skipsOf_singleton, Lexeme.skips, Token.flaws, if_pos hreread, Lexer.flaws_eq]
    rw [List.append_assoc, List.append_assoc, Tree.skips_append, hstart, Tree.skips_append, hin,
      h.text hf hseat, Tree.skips_append, Tree.skips_trivia, Lexeme.closeQuote_eq hq,
      Tree.skips_leaf _ _ (by decide), List.append_nil, Lexeme.openQuote_eq hq, Tree.skips_append,
      Tree.skips_trivia, Tree.skips_leaf _ _ (by decide), List.append_nil]
    exact congrArg _ hskips
  | @raw k x _ =>
    obtain ⟨y, rfl, hy⟩ := Nest.map_ofLexeme_eq_singleton hn
    obtain ⟨rfl, -, hu⟩ := Nest.ofLexeme_eq_raw hy
    exact Lexeme.skips_leaves k (Lexeme.not_reread hu)
  | operand x _ =>
    obtain ⟨y, rfl, hy⟩ := Nest.map_ofLexeme_eq_singleton hn
    obtain ⟨rfl, hk, hu⟩ := Nest.ofLexeme_eq_raw hy
    obtain ⟨q, hq⟩ := hs.1.literal hk
    rw [← List.singleton_append (l := [_]), Lexeme.openQuote_eq hq, Lexeme.closeQuote_eq hq,
      Tree.skips_append, Tree.skips_append, Tree.skips_append, Tree.skips_trivia,
      Tree.skips_leaf _ _ (by decide), Tree.skips_node, Tree.skips_leaf _ _ (by decide),
      Tree.skips_leaf _ _ (by decide), Lexeme.skipsOf_singleton,
      Lexeme.skips_of_not_reread (Lexeme.not_reread hu)]
    simp

def Outcome.warnings (o : Outcome) : List Event := o.events.filter (·.level == .warn)

/-- The leaves of skipped characters. -/
def Tree.errorSpots (t : Tree) : List Spot := (t.spots .root 0).filter (·.kind == .skipped)

/-- The record tells of the character of the leaf and of its position in the text. -/
def Event.Reports (text : Text) (r : Event) (s : Spot) : Prop :=
  ∃ before d after, text = before ++ d :: after ∧ s.text = [d] ∧ s.offset = before.byteSize ∧
    r = .skipped (.illegalCharacter (Position.past {} before) d)

namespace Event

variable {text : Text} {s : Spot} {e e' : LexError}

theorem reports_iff (hs : (s.offset, s.text) = e.stretch) (he : e.StandsIn {} text) :
    (Event.skipped e').Reports text s ↔ e' = e := by
  obtain ⟨before, d, after, ht, -, rfl⟩ := he
  obtain ⟨ho, hd⟩ := Prod.mk.inj hs
  have ho : s.offset = before.byteSize := by
    rw [ho, Position.past_offset]
    exact Nat.zero_add _
  constructor
  · rintro ⟨b, c, a, hb, hc, hoff, he⟩
    obtain ⟨rfl, hu⟩ := Text.append_inj (hb.symm.trans ht) (hoff.symm.trans ho)
    cases hu
    exact Event.skipped.inj he
  · rintro rfl
    exact ⟨before, d, after, ht, hd, ho, rfl⟩

theorem forall₂_reports {es es' : List LexError} {ss : List Spot}
    (hs : ss.map (fun s => (s.offset, s.text)) = es.map LexError.stretch)
    (he : ∀ e ∈ es, e.StandsIn {} text) :
    List.Forall₂ (Reports text) (es'.map .skipped) ss ↔ es' = es := by
  induction es generalizing es' ss with
  | nil =>
    obtain rfl := List.map_eq_nil_iff.1 hs
    simp
  | cons e es ih =>
    obtain ⟨s, ss, rfl, h₁, h₂⟩ := List.map_eq_cons_iff.1 hs
    cases es' with
    | nil => simp
    | cons e' es' =>
      rw [List.map_cons, List.forall₂_cons, reports_iff h₁ (he e List.mem_cons_self),
        ih h₂ fun e h => he e (List.mem_cons_of_mem _ h), List.cons_eq_cons]

end Event

namespace Lexer

variable {text : Text} {c : Char} {strict : Bool} {t : Tree}

/-- The leaves of skipped characters are those that the pieces of the text keep. -/
theorem result_skips (h : (start text c).result strict = .ok t) :
    t.errorSpots.map (fun s => (s.offset, s.text)) =
      ((start text c).run.1.flatMap Piece.kept).map LexError.stretch := by
  obtain ⟨ts, rfl, hr⟩ := result_reading h
  have hn : (start text c).nests = ((start text c).nests.1, (start text c).nests.2) := rfl
  obtain ⟨hf, ht⟩ := lexemes_of_nests hn
  have hseat : Lexeme.Seated 0 (start text c).lexemes.1 := (start text c).seated_lexemes.1
  have hskips : _ = ((start text c).run.1.flatMap Piece.kept).map LexError.stretch :=
    @Steps.skips _ _ _ (start text c).steps_run 0 [] rfl
  show Tree.skips .root 0 _ = _
  rw [Tree.skips_append, hr.skips hf hseat, hr.text hf hseat, Tree.skips_trivia, ht]
  exact hskips

end Lexer

/-- A lenient reading warns of the first illegal character of each piece of the text, and its tree
has leaves for those that the pieces keep. The warnings report the leaves, one each and in order,
just if each piece keeps the first of what it hides and no more. -/
theorem parse_reports {text : Text} {c : Char} {t : Tree}
    (h : (parse text ⟨c, false⟩).result = .ok t) :
    (parse text ⟨c, false⟩).warnings =
      ((Lexer.start text c).run.1.filterMap (·.hidden.head?)).map .skipped ∧
    t.errorSpots.map (fun s => (s.offset, s.text)) =
      ((Lexer.start text c).run.1.flatMap Piece.kept).map LexError.stretch ∧
    (∀ p ∈ (Lexer.start text c).run.1, p.kept.Sublist p.hidden ∧
      ∀ e ∈ p.hidden, e.StandsIn {} text) ∧
    (List.Forall₂ (Event.Reports text) (parse text ⟨c, false⟩).warnings t.errorSpots ↔
      ∀ p ∈ (Lexer.start text c).run.1, p.kept = p.hidden.head?.toList) := by
  rw [parse_result_start] at h
  have hskips := Lexer.result_skips h
  have hwarnings : (parse text ⟨c, false⟩).warnings =
      ((Lexer.start text c).run.1.filterMap (·.hidden.head?)).map .skipped := by
    rw [Outcome.warnings, parse_warned]
    simp only [Piece.hidden?_eq]
  have hstands : ∀ p ∈ (Lexer.start text c).run.1, ∀ e ∈ p.hidden, e.StandsIn {} text := by
    intro p hp e he
    have hm : e ∈ (Lexer.start text c).flaws fun _ => true := by
      rw [Lexer.flaws_eq]
      exact List.mem_flatMap.2 ⟨p, hp, he⟩
    exact Lexer.standsIn_of_mem_flaws hm
  refine ⟨hwarnings, hskips, fun p hp => ⟨p.kept_sublist, hstands p hp⟩, ?_⟩
  have hkept : ∀ e ∈ (Lexer.start text c).run.1.flatMap Piece.kept, e.StandsIn {} text := by
    intro e he
    obtain ⟨p, hp, he⟩ := List.mem_flatMap.1 he
    exact hstands p hp e (p.kept_sublist.subset he)
  rw [hwarnings, Event.forall₂_reports hskips hkept, List.filterMap_eq_flatMap_toList]
  constructor
  · intro he
    have hhead (p : Piece) : p.hidden.head?.toList ⊆ p.hidden := by
      cases p.hidden <;> simp
    have hall := (Lexer.start text c).steps_run.flaws_ext hhead (fun p => p.kept_sublist.subset) he
    exact fun p hp => (hall p hp).symm
  · exact fun hall => List.flatMap_congr fun p hp => (hall p hp).symm

/-- A literal that holds two illegal characters: one warning, two leaves. -/
theorem parse_twoSkipped : ∃ t, (parse "a='\x01\x02'\n".toList {}).result = .ok t ∧
    (parse "a='\x01\x02'\n".toList {}).warnings.length = 1 ∧ t.errorSpots.length = 2 := by
  have h : (parse "a='\x01\x02'\n".toList {}).result = .ok (.node .root [.node .assignment
      [.node .expression [.leaf (.token .plainText) ['a']], .leaf (.token .assignOp) ['='],
        .node .expression [.leaf .quote ['\''], .leaf .skipped ['\x01'], .leaf .skipped ['\x02'],
          .leaf .quote ['\'']],
        .leaf (.token .lineBreak) ['\n']]]) := by cbv
  have hw : (parse "a='\x01\x02'\n".toList {}).warnings.length = 1 := by cbv
  exact ⟨_, h, hw, by rfl⟩

/-- With two illegal characters in a literal. -/
theorem parse_reports_twice : ∃ t,
    (parse "a='\x01\x02'\n".toList {}).result = .ok t ∧
    (parse "a='\x01\x02'\n".toList {}).warnings =
      ((Lexer.start "a='\x01\x02'\n".toList '\t').run.1.filterMap (·.hidden.head?)).map .skipped ∧
    t.errorSpots.map (fun s => (s.offset, s.text)) =
      ((Lexer.start "a='\x01\x02'\n".toList '\t').run.1.flatMap Piece.kept).map
        LexError.stretch ∧
    (∀ p ∈ (Lexer.start "a='\x01\x02'\n".toList '\t').run.1, p.kept.Sublist p.hidden ∧
      ∀ e ∈ p.hidden, e.StandsIn {} "a='\x01\x02'\n".toList) ∧
    (List.Forall₂ (Event.Reports "a='\x01\x02'\n".toList)
        (parse "a='\x01\x02'\n".toList {}).warnings t.errorSpots ↔
      ∀ p ∈ (Lexer.start "a='\x01\x02'\n".toList '\t').run.1,
        p.kept = p.hidden.head?.toList) := by
  obtain ⟨t, h, -⟩ := parse_twoSkipped
  exact ⟨t, h, parse_reports h⟩

/-- Not every leaf of a skipped character is reported: of two in one literal only the first is. -/
theorem parse_skipped_unreported : ¬ ∀ (text : Text) (c : Char) (t : Tree),
    (parse text ⟨c, false⟩).result = .ok t →
      List.Forall₂ (Event.Reports text) (parse text ⟨c, false⟩).warnings t.errorSpots := by
  intro h
  obtain ⟨t, ht, hw, hl⟩ := parse_twoSkipped
  have hlength := (h _ _ t ht).length_eq
  rw [hw, hl] at hlength
  cases hlength

end MakeTree
