import MakeTree.Proofs.Lossless
import MakeTree.Proofs.Nest.Gaps
import MakeTree.Proofs.Tree.Places

/-!
The leaves of a tree are the tokens of its text. Read in order, and but for what the lexer passes
over, they spell the tokens, each at its offset (`parse_spells`): literals as quotes around what
the tokens inside them spell, or as one leaf when a frame is left open inside, which in a condition
is quotes around text.
-/

namespace MakeTree

/-- A leaf with the byte offset where it starts and the kind of the node it is a child of. -/
structure Spot where
  kind : LeafKind
  text : Text
  offset : Nat
  parent : NodeKind
deriving DecidableEq, Repr

namespace Tree

mutual

/-- The leaves of a child of a node of kind `parent`. -/
def spots (parent : NodeKind) (start : Nat) : Tree → List Spot
  | leaf k t => [⟨k, t, start, parent⟩]
  | node k ts => spotsOf k start ts

def spotsOf (parent : NodeKind) (start : Nat) : List Tree → List Spot
  | [] => []
  | t :: ts => t.spots parent start ++ spotsOf parent (start + t.text.byteSize) ts

end

mutual

theorem placed_of_spots {s : Spot} {parent : NodeKind} {t : Tree} {start : Nat}
    (h : s ∈ t.spots parent start) (depth : Nat) :
    ∃ q ∈ t.placed depth start, q.start = s.offset ∧ q.tree = .leaf s.kind s.text := by
  match t with
  | leaf k u =>
    obtain rfl := List.mem_singleton.1 h
    exact ⟨_, List.mem_singleton_self _, rfl, rfl⟩
  | node k ts =>
    obtain ⟨q, hq, hs⟩ := placedOf_of_spotsOf h (depth + 1)
    exact ⟨q, List.mem_cons_of_mem _ hq, hs⟩

theorem placedOf_of_spotsOf {s : Spot} {parent : NodeKind} {ts : List Tree} {start : Nat}
    (h : s ∈ spotsOf parent start ts) (depth : Nat) :
    ∃ q ∈ placedOf depth start ts, q.start = s.offset ∧ q.tree = .leaf s.kind s.text := by
  match ts with
  | [] => cases h
  | t :: ts =>
    rcases List.mem_append.1 h with h | h
    · obtain ⟨q, hq, hs⟩ := placed_of_spots h depth
      exact ⟨q, List.mem_append_left _ hq, hs⟩
    · obtain ⟨q, hq, hs⟩ := placedOf_of_spotsOf h depth
      exact ⟨q, List.mem_append_right _ hq, hs⟩

end

end Tree

namespace Spot

def ofToken (s : Spot) : Bool := s.kind != .continuation && s.kind != .skipped

/-- A backslash and a line break, or one illegal character. -/
def PassedOver (s : Spot) : Prop :=
  (s.kind = .continuation ∧ ∃ b, Text.IsLineBreak b ∧ s.text = '\\' :: b) ∨
    (s.kind = .skipped ∧ ∃ c, isIllegal c = true ∧ s.text = [c])

end Spot

/-- The tokens of a lexer's text. -/
def Lexer.tokens (lx : Lexer) : List Token := lx.run.1.filterMap Piece.token?

/-- The tokens of a text, with what stands between them put back, are its lexemes. -/
theorem Lexer.ofTokens_tokens (lx : Lexer) :
    Lexeme.ofTokens lx.position.offset lx.rest lx.tokens = lx.lexemes := by
  obtain ⟨hs, hv⟩ := lx.seated_lexemes
  rw [tokens, ← Piece.lexemes_token [], ← lx.lexemes_text]
  exact Lexeme.ofTokens_of_seated hs hv

/-- What leaves make of tokens. -/
inductive Spells : List Token → List Spot → Prop
  | nil : Spells [] []
  | token {t : Token} {ts : List Token} {ss : List Spot} (parent : NodeKind)
      (hk : t.kind ≠ .stringLiteral) (h : Spells ts ss) :
      Spells (t :: ts) (⟨.token t.kind, t.text, t.position.offset, parent⟩ :: ss)
  /-- a literal that is read again -/
  | quoted {t : Token} {ts : List Token} {is ss : List Spot} {q : Char} (parent : NodeKind)
      (hk : t.kind = .stringLiteral) (hu : t.inside.unclosed? = none) (hq : t.QuotedBy q)
      (hi : Spells t.inside.tokens is) (h : Spells ts ss) :
      Spells (t :: ts) (⟨.quote, [q], t.position.offset, parent⟩ :: (is ++
        ⟨.quote, [q], t.inside.position.offset + t.inside.rest.byteSize, parent⟩ :: ss))
  /-- a literal with a frame left open inside -/
  | raw {t : Token} {ts : List Token} {ss : List Spot} {parent : NodeKind}
      (hk : t.kind = .stringLiteral) (hu : t.inside.unclosed?.isSome = true)
      (hp : parent ≠ .condition) (h : Spells ts ss) :
      Spells (t :: ts) (⟨.token .stringLiteral, t.text, t.position.offset, parent⟩ :: ss)
  /-- such a literal as one side of a comparison -/
  | operand {t : Token} {ts : List Token} {ss : List Spot} {q : Char}
      (hk : t.kind = .stringLiteral) (hu : t.inside.unclosed?.isSome = true) (hq : t.QuotedBy q)
      (h : Spells ts ss) :
      Spells (t :: ts) (⟨.quote, [q], t.position.offset, .condition⟩ ::
        ⟨.token .plainText, t.inside.rest, t.inside.position.offset, .expression⟩ ::
        ⟨.quote, [q], t.inside.position.offset + t.inside.rest.byteSize, .condition⟩ :: ss)

namespace Spells

variable {ts us : List Token} {ss rs : List Spot}

theorem append (h : Spells ts ss) (h' : Spells us rs) : Spells (ts ++ us) (ss ++ rs) := by
  induction h with
  | nil => exact h'
  | token parent hk _ ih => exact .token parent hk ih
  | quoted parent hk hu hq hi _ _ ih =>
    simpa using Spells.quoted parent hk hu hq hi ih
  | raw hk hu hp _ ih => exact .raw hk hu hp ih
  | operand hk hu hq _ ih => exact .operand hk hu hq ih

theorem mem (h : Spells ts ss) {x : Token} (hm : x ∈ ts) (hk : x.kind ≠ .stringLiteral) :
    ∃ parent, ⟨.token x.kind, x.text, x.position.offset, parent⟩ ∈ ss := by
  induction h with
  | nil => cases hm
  | token parent _ _ ih =>
    rcases List.mem_cons.1 hm with rfl | hm
    · exact ⟨parent, List.mem_cons_self⟩
    · exact (ih hm).imp fun _ hs => List.mem_cons_of_mem _ hs
  | quoted parent ht _ _ _ _ _ ih =>
    rcases List.mem_cons.1 hm with rfl | hm
    · exact absurd ht hk
    · refine (ih hm).imp fun _ hs => List.mem_cons_of_mem _ (List.mem_append_right _ ?_)
      exact List.mem_cons_of_mem _ hs
  | raw ht _ _ _ ih =>
    rcases List.mem_cons.1 hm with rfl | hm
    · exact absurd ht hk
    · exact (ih hm).imp fun _ hs => List.mem_cons_of_mem _ hs
  | operand ht _ _ _ ih =>
    rcases List.mem_cons.1 hm with rfl | hm
    · exact absurd ht hk
    · refine (ih hm).imp fun _ hs => List.mem_cons_of_mem _ (List.mem_cons_of_mem _ ?_)
      exact List.mem_cons_of_mem _ hs

theorem nil_iff (h : Spells [] ss) : ss = [] := by
  cases h
  rfl

end Spells

/-- The trees, children of a `parent` at the offset, spell the tokens. -/
structure Accounts (parent : NodeKind) (start : Nat) (ts : List Tree) (tokens : List Token) :
    Prop where
  spells : Spells tokens ((Tree.spotsOf parent start ts).filter Spot.ofToken)
  others : ∀ s ∈ Tree.spotsOf parent start ts, s.ofToken = false → s.PassedOver

namespace Accounts

variable {parent : NodeKind} {start : Nat} {ts us : List Tree} {tokens tokens' : List Token}

theorem spotsOf_append (parent : NodeKind) (start : Nat) (ts us : List Tree) :
    Tree.spotsOf parent start (ts ++ us) = Tree.spotsOf parent start ts ++
      Tree.spotsOf parent (start + (Tree.textOf ts).byteSize) us := by
  induction ts generalizing start with
  | nil => rfl
  | cons t ts ih =>
    rw [List.cons_append, Tree.spotsOf, Tree.spotsOf, ih, Tree.textOf, Text.byteSize_append,
      List.append_assoc, Nat.add_assoc]

theorem nil : Accounts parent start [] [] := ⟨.nil, nofun⟩

theorem append (h : Accounts parent start ts tokens)
    (h' : Accounts parent (start + (Tree.textOf ts).byteSize) us tokens') :
    Accounts parent start (ts ++ us) (tokens ++ tokens') := by
  constructor
  · rw [spotsOf_append, List.filter_append]
    exact h.spells.append h'.spells
  · intro s hs
    rw [spotsOf_append] at hs
    exact (List.mem_append.1 hs).elim (h.others s) (h'.others s)

theorem node {k : NodeKind} (h : Accounts k start ts tokens) :
    Accounts parent start [.node k ts] tokens := by
  have he : Tree.spotsOf parent start [.node k ts] = Tree.spotsOf k start ts :=
    List.append_nil _
  exact ⟨he ▸ h.spells, he ▸ h.others⟩

theorem trivia {vs : List Trivia} (hv : ∀ v ∈ vs, v.Valid) :
    Accounts parent start (vs.map Trivia.tree) [] := by
  induction vs generalizing start with
  | nil => exact nil
  | cons v vs ih =>
    have ih : Accounts parent (start + v.tree.text.byteSize) (vs.map Trivia.tree) [] :=
      ih fun w hw => hv w (List.mem_cons_of_mem v hw)
    have hvalid := hv v List.mem_cons_self
    cases v with
    | continuation s =>
      refine ⟨ih.spells, fun r hr hf => ?_⟩
      rcases List.mem_cons.1 hr with rfl | hr
      · exact .inl ⟨rfl, hvalid⟩
      · exact ih.others r hr hf
    | skipped c =>
      refine ⟨ih.spells, fun r hr hf => ?_⟩
      rcases List.mem_cons.1 hr with rfl | hr
      · exact .inr ⟨rfl, c, hvalid, rfl⟩
      · exact ih.others r hr hf

theorem of_spots (hs : Spells tokens (Tree.spotsOf parent start ts))
    (ht : ∀ s ∈ Tree.spotsOf parent start ts, s.ofToken = true) :
    Accounts parent start ts tokens := by
  refine ⟨?_, fun s hm hf => ?_⟩
  · rwa [List.filter_eq_self.2 ht]
  · rw [ht s hm] at hf
    cases hf

theorem lead {x : Lexeme} (hx : x.Stands start)
    (h : Accounts parent x.token.position.offset ts tokens) :
    Accounts parent start (x.leading.map Trivia.tree ++ ts) tokens := by
  have ht : Accounts parent start (x.leading.map Trivia.tree) [] := trivia hx.leading
  refine ht.append ?_
  rwa [Lexeme.textOf_trivia, ← hx.offset]

theorem leaf (t : Token) (hk : t.kind ≠ .stringLiteral) :
    Accounts parent t.position.offset [.leaf (.token t.kind) t.text] [t] :=
  of_spots (.token parent hk .nil) (by simp [Tree.spotsOf, Tree.spots, Spot.ofToken])

theorem raw (t : Token) (hk : t.kind = .stringLiteral) (hu : t.inside.unclosed?.isSome = true)
    (hp : parent ≠ .condition) :
    Accounts parent t.position.offset [.leaf (.token t.kind) t.text] [t] := by
  rw [hk]
  exact of_spots (.raw hk hu hp .nil) (by simp [Tree.spotsOf, Tree.spots, Spot.ofToken])

theorem operand {t : Token} {q : Char} (hk : t.kind = .stringLiteral)
    (hu : t.inside.unclosed?.isSome = true) (hq : t.QuotedBy q) :
    Accounts .condition t.position.offset [.leaf .quote [q],
      .node .expression [.leaf (.token .plainText) t.inside.rest], .leaf .quote [q]] [t] := by
  refine of_spots ?_ (by simp [Tree.spotsOf, Tree.spots, Spot.ofToken])
  have h := Spells.operand hk hu hq .nil
  simpa [Tree.spotsOf, Tree.spots, Tree.text, Tree.textOf, Text.byteSize, hq.utf8Size,
    Token.inside] using h

theorem quoted {t : Token} {q : Char} (hk : t.kind = .stringLiteral)
    (hu : t.inside.unclosed? = none) (hq : t.QuotedBy q)
    (hi : Accounts parent t.inside.position.offset ts t.inside.tokens) {trailing : List Trivia}
    (hv : ∀ v ∈ trailing, v.Valid)
    (ht : Tree.textOf ts ++ Trivia.textOf trailing = t.inside.rest) :
    Accounts parent t.position.offset
      ([.leaf .quote [q]] ++ ts ++ trailing.map Trivia.tree ++ [.leaf .quote [q]]) [t] := by
  have hsize : Text.byteSize [q] = 1 := by simp [Text.byteSize, hq.utf8Size]
  have hin : t.inside.position.offset = t.position.offset + 1 := rfl
  have hv' : Accounts parent (t.inside.position.offset + (Tree.textOf ts).byteSize)
    (trailing.map Trivia.tree) [] := trivia hv
  have hspots : Tree.spotsOf parent t.position.offset
      ([.leaf .quote [q]] ++ ts ++ trailing.map Trivia.tree ++ [.leaf .quote [q]]) =
      ⟨.quote, [q], t.position.offset, parent⟩ ::
        (Tree.spotsOf parent t.inside.position.offset ts ++
          Tree.spotsOf parent (t.inside.position.offset + (Tree.textOf ts).byteSize)
            (trailing.map Trivia.tree) ++
          [⟨.quote, [q], t.inside.position.offset + t.inside.rest.byteSize, parent⟩]) := by
    rw [← ht]
    simp [spotsOf_append, Lexeme.textOf_trivia, Tree.spotsOf, Tree.spots, Tree.text,
      hsize, hin, Nat.add_assoc]
  constructor
  · have h := Spells.quoted parent hk hu hq hi.spells .nil
    rw [hspots, List.filter_cons_of_pos rfl, List.filter_append, List.filter_append,
      hv'.spells.nil_iff, List.append_nil, List.filter_cons_of_pos rfl, List.filter_nil]
    exact h
  · intro s hs hf
    rw [hspots] at hs
    rcases List.mem_cons.1 hs with rfl | hs
    · cases hf
    · rcases List.mem_append.1 hs with hs | hs
      · exact (List.mem_append.1 hs).elim (fun hs => hi.others s hs hf) fun hs => hv'.others s hs hf
      · rw [List.mem_singleton.1 hs] at hf
        cases hf

end Accounts

theorem Reading.accounts {P : NodeKind → Prop} {k : NodeKind} {ns : List Nest} {ts : List Tree}
    (h : Reading P k ns ts) {xs : List Lexeme} {start : Nat} (hn : ns = xs.map Nest.ofLexeme)
    (hs : Lexeme.Seated start xs) : Accounts k start ts (xs.map Lexeme.token) := by
  induction h generalizing xs start with
  | nil =>
    obtain rfl := List.map_eq_nil_iff.1 hn.symm
    exact .nil
  | append h _ ih ih' =>
    obtain ⟨ys, zs, rfl, ⟨hy, h₁⟩, hz, h₂⟩ := Lexeme.seated_split hn.symm hs
    rw [List.map_append]
    refine (ih hy.symm h₁).append ?_
    rw [h.text hy.symm h₁]
    exact ih' hz.symm h₂
  | node _ _ ih => exact (ih hn hs).node
  | leaf k x =>
    obtain ⟨y, rfl, hy⟩ := Nest.map_ofLexeme_eq_singleton hn
    obtain ⟨rfl, hk⟩ := Nest.ofLexeme_eq_leaf hy
    exact .lead hs.1 (.leaf y.token hk)
  | quoted x trailing h ih =>
    obtain ⟨y, rfl, hy⟩ := Nest.map_ofLexeme_eq_singleton hn
    obtain ⟨rfl, hk, hu, hi⟩ := Nest.ofLexeme_eq_quoted hy
    obtain ⟨q, hq⟩ := hs.1.literal hk
    obtain ⟨hf, rfl⟩ := Lexer.lexemes_of_nests hi
    obtain ⟨hseat, hv⟩ := y.token.inside.seated_lexemes
    have hin := ih hf hseat
    rw [Lexer.lexemes, Piece.lexemes_token] at hin
    have htext := y.token.inside.lexemes_text
    rw [← h.text hf hseat] at htext
    rw [Lexeme.openQuote_eq hq, Lexeme.closeQuote_eq hq]
    have hl := Accounts.lead hs.1 (.quoted hk hu hq hin hv htext)
    simpa using hl
  | raw x hc =>
    obtain ⟨y, rfl, hy⟩ := Nest.map_ofLexeme_eq_singleton hn
    obtain ⟨rfl, hk, hu⟩ := Nest.ofLexeme_eq_raw hy
    exact .lead hs.1 (.raw y.token hk hu hc)
  | operand x _ =>
    obtain ⟨y, rfl, hy⟩ := Nest.map_ofLexeme_eq_singleton hn
    obtain ⟨rfl, hk, hu⟩ := Nest.ofLexeme_eq_raw hy
    obtain ⟨q, hq⟩ := hs.1.literal hk
    rw [Lexeme.openQuote_eq hq, Lexeme.closeQuote_eq hq, List.append_assoc]
    exact .lead hs.1 (.operand hk hu hq)

theorem tokenize_tokens {text : Text} {c : Char} (h : (Lexer.start text c).unclosed? = none) :
    (tokenize text c).2 = .ok (Lexer.start text c).tokens := by
  rw [tokenize]
  simp only [h]
  rfl

/-- The tree of a text accounts for its tokens. -/
theorem Lexer.result_accounts {text : Text} {c : Char} {strict : Bool} {t : Tree}
    (h : (start text c).result strict = .ok t) :
    ∃ us, t = .node .root us ∧ Accounts .root 0 us (start text c).tokens := by
  obtain ⟨ts, rfl, hr⟩ := result_reading h
  have hn : (start text c).nests = ((start text c).nests.1, (start text c).nests.2) := rfl
  obtain ⟨hf, ht⟩ := lexemes_of_nests hn
  obtain ⟨hseat, hv⟩ := (start text c).seated_lexemes
  have ha := (hr.accounts hf hseat).append (Accounts.trivia (ht ▸ hv))
  rw [List.append_nil, lexemes, Piece.lexemes_token] at ha
  exact ⟨_, rfl, ha⟩

/-- The leaves of a tree spell the tokens of the text, and the others are what the lexer passes
over. -/
theorem parse_spells {text : Text} {options : Options} {t : Tree}
    (h : (parse text options).result = .ok t) : ∃ tokens,
      (tokenize text options.recipePrefix).2 = .ok tokens ∧
      Spells tokens ((t.spots .root 0).filter Spot.ofToken) ∧
      ∀ s ∈ t.spots .root 0, s.ofToken = false → s.PassedOver := by
  rw [parse_result_start] at h
  have hu := (Lexer.refusal_eq_none.1 (Lexer.result_ok h).1).2
  obtain ⟨us, rfl, ha⟩ := Lexer.result_accounts h
  exact ⟨_, tokenize_tokens hu, ha.spells, ha.others⟩

/-- With a literal that leaves an expansion open in a condition. -/
theorem parse_spells_operand : ∃ t tokens,
    (parse "ifeq '$(' 'b'\nendif\n".toList {}).result = .ok t ∧
    (tokenize "ifeq '$(' 'b'\nendif\n".toList '\t').2 = .ok tokens ∧
    Spells tokens ((t.spots .root 0).filter Spot.ofToken) ∧
    ∀ s ∈ t.spots .root 0, s.ofToken = false → s.PassedOver := by
  obtain ⟨t, ht⟩ : ∃ t, (parse "ifeq '$(' 'b'\nendif\n".toList {}).result = .ok t :=
    exists_result (by cbv)
  obtain ⟨tokens, hs⟩ := parse_spells ht
  exact ⟨t, tokens, ht, hs⟩

end MakeTree
