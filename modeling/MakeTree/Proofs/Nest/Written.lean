import MakeTree.Proofs.Lexer.Prefix
import MakeTree.Proofs.Nest.Placement
import MakeTree.Proofs.Nest.Regroup
import MakeTree.View.Node

/-!
What leaves read. The kind of a leaf tells how its text is written, wherever the leaf stands
(`Reading.written`): what begins an expansion is a dollar sign and one more character, and a recipe
prefix is the one that the text was read with, also where literals are read again. The first leaf of
a node need not be that of its first token (`Tree.firstLeaf?_behind`).
-/

namespace MakeTree

/-- How a leaf is written, in a text with the recipe prefix `c`. -/
def LeafKind.Writes (c : Char) : LeafKind → Text → Prop
  | .continuation, s => ∃ b, Text.IsLineBreak b ∧ s = '\\' :: b
  | .skipped, s => ∃ d, isIllegal d = true ∧ s = [d]
  | .token .varRef, s => ∃ d, s = ['$', d]
  | .token .expansionPrefix, s => s = ['$', '('] ∨ s = ['$', '{']
  | .token .recipePrefix, s => s = [c]
  | .token .stringLiteral, s => ∀ d ∈ s, d ≠ '\n' ∧ d ≠ '\r'
  | _, _ => True

namespace Trivia

def leaf : Trivia → LeafKind × Text
  | continuation t => (.continuation, t)
  | skipped c => (.skipped, [c])

theorem writes_leaf (v : Trivia) (c : Char) : v.leaf.1.Writes c v.leaf.2 ↔ v.Valid := by
  cases v with
  | continuation s => exact Iff.rfl
  | skipped d =>
    constructor
    · rintro ⟨_, h, ⟨⟩⟩
      exact h
    · exact fun h => ⟨d, h, rfl⟩

theorem Valid.text_ne {v : Trivia} (h : v.Valid) {d : Char} (hb : d ≠ '\\')
    (hd : isIllegal d = false) (s : Text) : v.text ≠ d :: s := by
  cases v with
  | continuation r =>
    obtain ⟨b, -, rfl⟩ := h
    rintro ⟨⟩
    exact hb rfl
  | skipped c =>
    have h : isIllegal c = true := h
    rintro ⟨⟩
    rw [h] at hd
    cases hd

theorem head?_eq_some {vs : List Trivia} {s : Text} (h : ∀ v ∈ vs, v.text ≠ s) :
    (vs.map text ++ [s]).head? = some s ↔ vs = [] := by
  cases vs with
  | nil => simp
  | cons v vs => simpa using h v List.mem_cons_self

end Trivia

theorem Tree.firstLeaf?_behind (k : NodeKind) (vs : List Trivia) (j : LeafKind) (s : Text)
    (ts : List Tree) : (node k (vs.map Trivia.tree ++ .leaf j s :: ts)).firstLeaf? =
      (vs.map Trivia.leaf ++ [(j, s)]).head? := by
  cases vs with
  | nil => rfl
  | cons v vs => cases v <;> rfl

def Token.Written (c : Char) (t : Token) : Prop := (LeafKind.token t.kind).Writes c t.text

/-- A lexeme as it comes of a text with the recipe prefix `c`. -/
structure Lexeme.Written (c : Char) (x : Lexeme) : Prop where
  leading : ∀ v ∈ x.leading, v.Valid
  token : x.token.Written c

namespace Shape

variable {frames : List Frame} {b : Bool} {d : Char} {t : Text} {kind : TokenKind} {m : Nat}
  {change : FrameChange}

theorem inLine_dollar (h : inLine frames b d t = .token kind m change)
    (hk : kind = .varRef ∨ kind = .expansionPrefix) : d = '$' ∧ dollar t = .token kind m change := by
  simp only [inLine, backslash_eq, colon_eq, beforeEquals_eq, quote, closing, opening, word, plain,
    assign] at h
  repeat' split at h
  · exact ⟨rfl, h⟩
  all_goals rcases hk with rfl | rfl <;> cases h

theorem dollar_varRef (h : dollar t = .token .varRef m change) : ∃ e, t.take m = [e] := by
  rw [dollar_eq] at h
  repeat' split at h
  · cases h
  · cases h
  · cases h
  · next hn =>
    cases h
    cases t with
    | nil => simp at hn
    | cons e t => exact ⟨e, rfl⟩

theorem dollar_expansionPrefix (h : dollar t = .token .expansionPrefix m change) :
    t.take m = ['('] ∨ t.take m = ['{'] := by
  rw [dollar_eq] at h
  repeat' split at h
  · cases h
  · next hb =>
    cases h
    cases t with
    | nil => simp at hb
    | cons e t => simpa using hb
  · cases h
  · cases h

end Shape

namespace Lexer

variable {lx next last : Lexer} {c : Char}

/-- Recipe prefixes are found where they are `c`, or there are none. -/
def Heads (c : Char) (lx : Lexer) : Prop := lx.recipePrefix = c ∨ lx.OneLine

theorem Heads.step {p : Piece} (h : lx.Heads c) (hs : lx.step = some (p, next)) : next.Heads c :=
  h.imp (step_recipePrefix hs).trans (·.step hs)

theorem step_dollar {t : Token} {change : FrameChange}
    (h : lx.step = some (.token t change, next)) (hk : t.kind = .varRef ∨ t.kind = .expansionPrefix) :
    ∃ m after, t.text = '$' :: after.take m ∧ Shape.dollar after = .token t.kind m change := by
  obtain ⟨d, after, -, ⟨kind, more, ch, hs, hp, -⟩ | ⟨_, -, hp, -⟩ | ⟨-, hp, -⟩⟩ := step_cases h
  · cases hp
    obtain ⟨_, -, he⟩ | ⟨_, -, -, he⟩ | ⟨-, -, he | he⟩ := lx.shape_cases d after
    · rw [he] at hs; cases hs; simp at hk
    · rw [he] at hs; cases hs
    · rw [he] at hs; cases hs; simp at hk
    · obtain ⟨rfl, hd⟩ := Shape.inLine_dollar (he ▸ hs) hk
      exact ⟨more, after, rfl, hd⟩
  · cases hp
  · cases hp

theorem step_written {t : Token} {change : FrameChange} (hc : lx.Heads c)
    (h : lx.step = some (.token t change, next)) : t.Written c := by
  unfold Token.Written
  cases hk : t.kind with
  | recipePrefix =>
    obtain ⟨hp, -, hl, -⟩ := step_isRecipePrefix h (by simp [Piece.isRecipePrefix, hk])
    cases hp
    rcases hc with rfl | ho
    · rfl
    · rw [ho.1] at hl
      cases hl
  | stringLiteral => exact step_ne_break h (by rw [hk]; decide)
  | varRef =>
    obtain ⟨m, after, ht, hd⟩ := step_dollar h (.inl hk)
    obtain ⟨e, he⟩ := Shape.dollar_varRef (hk ▸ hd)
    exact ⟨e, by rw [ht, he]⟩
  | expansionPrefix =>
    obtain ⟨m, after, ht, hd⟩ := step_dollar h (.inr hk)
    rcases Shape.dollar_expansionPrefix (hk ▸ hd) with he | he
    · exact .inl (by rw [ht, he])
    · exact .inr (by rw [ht, he])
  | _ => trivial

theorem Steps.written {ps : List Piece} (h : Steps lx ps last) (hc : lx.Heads c) :
    ∀ t ∈ ps.filterMap Piece.token?, t.Written c := by
  induction h with
  | nil lx => exact fun _ ht => absurd ht List.not_mem_nil
  | @cons lx next last p ps hs _ ih =>
    have ih := ih (hc.step hs)
    rcases p with ⟨u, change⟩ | s | ⟨q, d⟩
    · rintro t (_ | ⟨_, ht⟩)
      · exact step_written hc hs
      · exact ih t ht
    · exact ih
    · exact ih

end Lexer

theorem Lexeme.Seated.leading {start : Nat} {xs : List Lexeme} (h : Seated start xs) :
    ∀ x ∈ xs, ∀ v ∈ x.leading, v.Valid := by
  induction xs generalizing start with
  | nil => exact fun _ hx => absurd hx List.not_mem_nil
  | cons y ys ih =>
    rintro x (_ | ⟨_, hx⟩)
    · exact h.1.leading
    · exact ih h.2 x hx

theorem Lexer.lexemes_written {lx : Lexer} {c : Char} (hc : lx.Heads c) :
    ∀ x ∈ lx.lexemes.1, x.Written c := by
  intro x hx
  refine ⟨lx.seated_lexemes.1.leading x hx, lx.steps_run.written hc x.token ?_⟩
  rw [← Piece.lexemes_token []]
  exact List.mem_map_of_mem hx

theorem Token.Written.inside {t : Token} {c : Char} (h : t.Written c) (hk : t.kind = .stringLiteral) :
    t.inside.Heads c := by
  rw [Written, hk] at h
  exact .inr ⟨rfl, fun d hd => h d (Lexer.inside_subset hd)⟩

namespace Tree

theorem leavesOf_trivia (vs : List Trivia) : leavesOf (vs.map Trivia.tree) = vs.map Trivia.leaf := by
  induction vs with
  | nil => rfl
  | cons v vs ih =>
    rw [List.map_cons, leavesOf, ih]
    cases v <;> rfl

/-- All leaves of the trees are written as their kinds tell. -/
def Written (c : Char) (ts : List Tree) : Prop := ∀ l ∈ leavesOf ts, l.1.Writes c l.2

namespace Written

variable {c : Char} {ts us : List Tree} {vs : List Trivia} {x : Lexeme}

theorem append_iff : Written c (ts ++ us) ↔ Written c ts ∧ Written c us := by
  simp only [Written, leavesOf_append, List.forall_mem_append]

theorem append (h : Written c ts) (h' : Written c us) : Written c (ts ++ us) := append_iff.2 ⟨h, h'⟩

theorem node_iff {k : NodeKind} : Written c [.node k ts] ↔ Written c ts := by
  rw [Written, leavesOf, leavesOf, List.append_nil]
  exact Iff.rfl

theorem leaf_iff {k : LeafKind} {s : Text} : Written c [.leaf k s] ↔ k.Writes c s :=
  List.forall_mem_singleton

theorem trivia_iff : Written c (vs.map Trivia.tree) ↔ ∀ v ∈ vs, v.Valid := by
  rw [Written, leavesOf_trivia, List.forall_mem_map]
  exact forall₂_congr fun v _ => v.writes_leaf c

theorem leaves_iff : Written c x.leaves ↔ x.Written c := by
  rw [Lexeme.leaves, append_iff, trivia_iff, leaf_iff]
  exact ⟨fun h => ⟨h.1, h.2⟩, fun h => ⟨h.leading, h.token⟩⟩

theorem quote (s : Text) : Written c [.leaf .quote s] := leaf_iff.2 trivial

theorem openQuote (h : x.Written c) : Written c x.openQuote := (trivia_iff.2 h.leading).append (quote _)

end Written

end Tree

/-- Trees that hold the nests of lexemes are written as these are. -/
theorem Reading.written {P : NodeKind → Prop} {k : NodeKind} {ns : List Nest} {ts : List Tree}
    {c : Char} (h : Reading P k ns ts) {xs : List Lexeme} (hn : ns = xs.map Nest.ofLexeme)
    (hx : ∀ x ∈ xs, x.Written c) : Tree.Written c ts := by
  induction h generalizing xs with
  | nil => exact fun _ hl => absurd hl List.not_mem_nil
  | append _ _ ih ih' =>
    obtain ⟨ys, zs, rfl, hy, hz⟩ := List.map_eq_append_iff.1 hn.symm
    exact (ih hy.symm fun y h => hx y (List.mem_append_left zs h)).append
      (ih' hz.symm fun z h => hx z (List.mem_append_right ys h))
  | node _ _ ih => exact Tree.Written.node_iff.2 (ih hn hx)
  | leaf k x =>
    obtain ⟨y, rfl, hy⟩ := Nest.map_ofLexeme_eq_singleton hn
    obtain ⟨rfl, -⟩ := Nest.ofLexeme_eq_leaf hy
    exact Tree.Written.leaves_iff.2 (hx y List.mem_cons_self)
  | quoted x trailing _ ih =>
    obtain ⟨y, rfl, hy⟩ := Nest.map_ofLexeme_eq_singleton hn
    obtain ⟨rfl, hk, -, hi⟩ := Nest.ofLexeme_eq_quoted hy
    have hw := hx y List.mem_cons_self
    obtain ⟨hf, rfl⟩ := Lexer.lexemes_of_nests hi
    have hin := ih hf (Lexer.lexemes_written (hw.token.inside hk))
    have ht : Tree.Written c (y.token.inside.lexemes.2.map Trivia.tree) :=
      Tree.Written.trivia_iff.2 y.token.inside.seated_lexemes.2
    exact (((Tree.Written.openQuote hw).append hin).append ht).append (.quote _)
  | raw x _ =>
    obtain ⟨y, rfl, hy⟩ := Nest.map_ofLexeme_eq_singleton hn
    obtain ⟨rfl, -, -⟩ := Nest.ofLexeme_eq_raw hy
    exact Tree.Written.leaves_iff.2 (hx y List.mem_cons_self)
  | operand x _ =>
    obtain ⟨y, rfl, hy⟩ := Nest.map_ofLexeme_eq_singleton hn
    obtain ⟨rfl, -, -⟩ := Nest.ofLexeme_eq_raw hy
    have ht : Tree.Written c [.leaf (.token .plainText) y.token.inside.rest] :=
      Tree.Written.leaf_iff.2 trivial
    exact (Tree.Written.openQuote (hx y List.mem_cons_self)).append
      ((Tree.Written.node_iff.2 ht).append (.quote _))

end MakeTree
