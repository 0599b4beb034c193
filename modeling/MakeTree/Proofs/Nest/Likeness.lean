import MakeTree.Grammar.Line
import Mathlib.Data.List.Forall2
import Mathlib.Data.List.TakeWhile

/-!
Nests that no rule of the grammar tells apart. A `Likeness` relates positions, tokens and what is
passed over between them, and says which trees are then alike; the trees of nests that are alike
are (`Likeness.treesOf`).
-/

namespace MakeTree

structure Likeness where
  position : Position → Position → Prop
  token : Token → Token → Prop
  trivia : List Trivia → List Trivia → Prop
  forest : List Tree → List Tree → Prop
  kind : ∀ {t u}, token t u → u.kind = t.kind
  /-- the text of those tokens that are told apart by it -/
  text : ∀ {t u}, token t u →
    t.kind = .plainText ∨ t.kind = .varRef ∨ t.kind = .stringLiteral → u.text = t.text
  trivia_nil : trivia [] []
  skipped : ∀ c, trivia [.skipped c] [.skipped c]
  trivia_append : ∀ {us vs us' vs'}, trivia us vs → trivia us' vs' → trivia (us ++ us') (vs ++ vs')
  append : ∀ {ts us ts' us'}, forest ts us → forest ts' us' → forest (ts ++ ts') (us ++ us')
  node : ∀ {ts us} k, forest ts us → forest [.node k ts] [.node k us]
  passed : ∀ {us vs}, trivia us vs → forest (us.map Trivia.tree) (vs.map Trivia.tree)
  leaf : ∀ {t u}, token t u →
    forest [.leaf (.token t.kind) t.text] [.leaf (.token u.kind) u.text]
  quote : ∀ s, forest [.leaf .quote s] [.leaf .quote s]
  plain : ∀ s, forest [.leaf (.token .plainText) s] [.leaf (.token .plainText) s]

namespace Likeness

variable (ρ : Likeness)

theorem nil : ρ.forest [] [] := ρ.passed ρ.trivia_nil

structure Lex (x y : Lexeme) : Prop where
  leading : ρ.trivia x.leading y.leading
  token : ρ.token x.token y.token

/-- Nests of the same shape, made of lexemes that are alike. -/
inductive Match : Nest → Nest → Prop
  | leaf {x y : Lexeme} (h : ρ.Lex x y) : Match (.leaf x) (.leaf y)
  | quoted {x y : Lexeme} {ns ms : List Nest} {us vs : List Trivia} (h : ρ.Lex x y)
      (ht : y.token.text = x.token.text) (hi : List.Forall₂ Match ns ms) (hv : ρ.trivia us vs) :
      Match (.quoted x ns us) (.quoted y ms vs)
  | raw {x y : Lexeme} (h : ρ.Lex x y) (ht : y.token.text = x.token.text) :
      Match (.raw x) (.raw y)
  | expansion {x y x' y' : Lexeme} {ns ms : List Nest} (h : ρ.Lex x y)
      (hb : List.Forall₂ Match ns ms) (h' : ρ.Lex x' y') :
      Match (.expansion x ns x') (.expansion y ms y')

/-- Nests that are alike, one by one. -/
abbrev Nests : List Nest → List Nest → Prop := List.Forall₂ ρ.Match

variable {ρ}

namespace Lex

variable {x y : Lexeme} (h : ρ.Lex x y)

include h

theorem isText (s : Text) : y.token.isText s = x.token.isText s := by
  rw [Token.isText, Token.isText, ρ.kind h.token]
  by_cases hk : x.token.kind = .plainText
  · rw [ρ.text h.token (.inl hk)]
  · rw [beq_false_of_ne hk, Bool.false_and, Bool.false_and]

theorem isReference : y.isReference = x.isReference := by
  rw [Lexeme.isReference, Lexeme.isReference, ρ.kind h.token]
  by_cases hk : x.token.kind = .varRef
  · rw [ρ.text h.token (.inr (.inl hk))]
  · rw [beq_false_of_ne hk, Bool.false_and, Bool.false_and]

theorem leaves : ρ.forest x.leaves y.leaves := ρ.append (ρ.passed h.leading) (ρ.leaf h.token)

theorem trees : ρ.forest x.trees y.trees := by
  rw [Lexeme.trees, Lexeme.trees, h.isReference]
  split
  · exact ρ.node _ h.leaves
  · exact h.leaves

theorem openQuote (ht : y.token.text = x.token.text) : ρ.forest x.openQuote y.openQuote := by
  rw [Lexeme.openQuote, Lexeme.openQuote, ht]
  exact ρ.append (ρ.passed h.leading) (ρ.quote _)

omit h in
theorem closeQuote (ht : y.token.text = x.token.text) :
    ρ.forest [x.closeQuote] [y.closeQuote] := by
  rw [Lexeme.closeQuote, Lexeme.closeQuote, ht]
  exact ρ.quote _

end Lex

namespace Match

variable {n m : Nest}

theorem first (h : ρ.Match n m) : ρ.Lex n.first m.first := by
  cases h with
  | leaf h => exact h
  | quoted h => exact h
  | raw h => exact h
  | expansion h => exact h

theorem token (h : ρ.Match n m) : ρ.token n.token m.token := h.first.token

theorem kind (h : ρ.Match n m) : m.kind = n.kind := ρ.kind h.token

theorem isText (h : ρ.Match n m) (s : Text) : m.isText s = n.isText s := h.first.isText s

theorem mark (h : ρ.Match n m) : Mark.ofToken m.token = Mark.ofToken n.token := by
  have hk : m.token.kind = n.token.kind := h.kind
  have ht (s : Text) : m.token.isText s = n.token.isText s := h.isText s
  simp only [Mark.ofToken, hk, ht]

end Match

mutual

theorem flatten (n : Nest) {m : Nest} (h : ρ.Match n m) :
    ρ.Nests n.flatten m.flatten := by
  match n with
  | .leaf x =>
    cases h with
    | leaf h => exact .cons (.leaf h) .nil
  | .quoted x ns us =>
    cases h with
    | quoted h ht hi hv => exact .cons (.quoted h ht hi hv) .nil
  | .raw x =>
    cases h with
    | raw h ht => exact .cons (.raw h ht) .nil
  | .expansion x ns x' =>
    cases h with
    | expansion h hb h' =>
      exact .cons (.leaf h) (List.rel_append (flattenAll ns hb) (.cons (.leaf h') .nil))

theorem flattenAll (ns : List Nest) {ms : List Nest} (h : ρ.Nests ns ms) :
    ρ.Nests (Nest.flattenAll ns) (Nest.flattenAll ms) := by
  match ns with
  | [] =>
    cases h
    exact .nil
  | n :: ns =>
    cases h with
    | cons hn hs => exact List.rel_append (flatten n hn) (flattenAll ns hs)

end

/-- Parts of the same marks whose trees are alike. -/
def Parts (ρ : Likeness) : List Part → List Part → Prop :=
  List.Forall₂ fun p q => q.mark = p.mark ∧ ρ.forest p.trees q.trees

variable {ps qs : List Part}

theorem Parts.treesOf (h : ρ.Parts ps qs) : ρ.forest (Part.treesOf ps) (Part.treesOf qs) := by
  induction h with
  | nil => exact ρ.nil
  | cons hp _ ih => exact ρ.append hp.2 ih

theorem Parts.splitName (h : ρ.Parts ps qs) (depth : Nat) :
    ρ.Parts (Part.splitName depth ps).1 (Part.splitName depth qs).1 ∧
      ρ.Parts (Part.splitName depth ps).2 (Part.splitName depth qs).2 := by
  induction h generalizing depth with
  | nil => exact ⟨.nil, .nil⟩
  | @cons p q ps qs hp h ih =>
    unfold Part.splitName
    rw [hp.1]
    split
    · exact ⟨.nil, .cons hp h⟩
    · exact ⟨.cons hp (ih _).1, (ih _).2⟩

theorem Parts.arguments {ts us : List Tree} (h : ρ.Parts ps qs) (ht : ρ.forest ts us)
    (depth : Nat) : ρ.forest (Part.arguments depth ts ps) (Part.arguments depth us qs) := by
  induction h generalizing depth ts us with
  | nil => exact ρ.node _ ht
  | @cons p q ps qs hp h ih =>
    unfold Part.arguments
    rw [hp.1]
    split
    · exact ρ.append (ρ.node _ ht) (ρ.append hp.2 (ih ρ.nil 0))
    · exact ih (ρ.append ht hp.2) _

theorem Parts.takeWhile (h : ρ.Parts ps qs) (p : Mark → Bool) :
    ρ.Parts (ps.takeWhile (p ·.mark)) (qs.takeWhile (p ·.mark)) := by
  induction h with
  | nil => exact .nil
  | @cons a b ps qs hp h ih =>
    rw [List.takeWhile_cons, List.takeWhile_cons, hp.1]
    split
    · exact .cons hp ih
    · exact .nil

theorem Parts.layout (h : ρ.Parts ps qs) : ρ.forest (Part.layout ps) (Part.layout qs) := by
  obtain ⟨hn, hr⟩ := h.splitName 0
  have hb := hr.takeWhile (· == .blank)
  have ha := List.forall₂_drop ((Part.splitName 0 ps).2.takeWhile (·.mark == .blank)).length hr
  unfold Part.layout
  refine ρ.append (ρ.node _ hn.treesOf) (ρ.append hb.treesOf ?_)
  rw [← hb.length_eq]
  cases h₁ : (Part.splitName 0 ps).2.drop
      ((Part.splitName 0 ps).2.takeWhile (·.mark == .blank)).length with
  | nil =>
    rw [h₁] at ha
    rw [List.forall₂_nil_left_iff.1 ha]
    exact ρ.nil
  | cons p ps' =>
    rw [h₁] at ha
    obtain ⟨q, qs', hp, hps, hq⟩ := List.forall₂_cons_left_iff.1 ha
    rw [hq]
    exact Parts.arguments (.cons hp hps) ρ.nil 0

mutual

theorem trees (n : Nest) {m : Nest} (h : ρ.Match n m) : ρ.forest n.trees m.trees := by
  match n with
  | .leaf x =>
    cases h with
    | leaf h => exact h.trees
  | .quoted x ns us =>
    cases h with
    | quoted h ht hi hv =>
      exact ρ.append (ρ.append (ρ.append (h.openQuote ht) (parts ns hi).treesOf) (ρ.passed hv))
        (Lex.closeQuote ht)
  | .raw x =>
    cases h with
    | raw h => exact h.leaves
  | .expansion x ns x' =>
    cases h with
    | expansion h hb h' =>
      exact ρ.node _ (ρ.append (ρ.append h.leaves (parts ns hb).layout) h'.leaves)

theorem parts (ns : List Nest) {ms : List Nest} (h : ρ.Nests ns ms) :
    ρ.Parts (Nest.parts ns) (Nest.parts ms) := by
  match ns with
  | [] =>
    cases h
    exact .nil
  | n :: ns =>
    cases h with
    | cons hn hs => exact .cons ⟨hn.mark, trees n hn⟩ (parts ns hs)

end

theorem treesOf {ns ms : List Nest} (h : ρ.Nests ns ms) :
    ρ.forest (Nest.treesOf ns) (Nest.treesOf ms) := (parts ns h).treesOf

/-- Only trees that are the same are alike, and tokens only if they differ in where they stand. -/
def moved (position : Position → Position → Prop) (token : Token → Token → Prop)
    (h : ∀ {t u}, token t u → u.kind = t.kind ∧ u.text = t.text) : Likeness where
  position := position
  token := token
  trivia := Eq
  forest := Eq
  kind h' := (h h').1
  text h' _ := (h h').2
  trivia_nil := rfl
  skipped _ := rfl
  trivia_append h₁ h₂ := congrArg₂ _ h₁ h₂
  append h₁ h₂ := congrArg₂ _ h₁ h₂
  node k h₁ := congrArg (fun ts => [Tree.node k ts]) h₁
  passed h₁ := congrArg _ h₁
  leaf h' := by rw [(h h').1, (h h').2]
  quote _ := rfl
  plain _ := rfl

/-- Only what is the same is alike. -/
def same : Likeness := moved Eq Eq fun h => ⟨congrArg _ h.symm, congrArg _ h.symm⟩

theorem same_lex (x : Lexeme) : same.Lex x x := ⟨rfl, rfl⟩

theorem Lex.eq {x y : Lexeme} (h : same.Lex x y) : y = x := by
  cases x
  cases y
  cases h.leading
  cases h.token
  rfl

mutual

theorem same_match (n : Nest) : same.Match n n := by
  match n with
  | .leaf x => exact .leaf (same_lex x)
  | .quoted x ns us => exact .quoted (same_lex x) rfl (same_nests ns) rfl
  | .raw x => exact .raw (same_lex x) rfl
  | .expansion x ns x' => exact .expansion (same_lex x) (same_nests ns) (same_lex x')

theorem same_nests (ns : List Nest) : same.Nests ns ns := by
  match ns with
  | [] => exact .nil
  | n :: ns => exact .cons (same_match n) (same_nests ns)

end

mutual

theorem Match.eq (n : Nest) {m : Nest} (h : same.Match n m) : m = n := by
  match n with
  | .leaf x =>
    cases h with
    | leaf h => rw [h.eq]
  | .quoted x ns us =>
    cases h with
    | quoted h _ hi hv => rw [h.eq, Match.eq_all ns hi, show _ = _ from hv]
  | .raw x =>
    cases h with
    | raw h => rw [h.eq]
  | .expansion x ns x' =>
    cases h with
    | expansion h hb h' => rw [h.eq, Match.eq_all ns hb, h'.eq]

theorem Match.eq_all (ns : List Nest) {ms : List Nest} (h : same.Nests ns ms) :
    ms = ns := by
  match ns with
  | [] =>
    cases h
    rfl
  | n :: ns =>
    cases h with
    | cons hn hs => rw [Match.eq n hn, Match.eq_all ns hs]

end

end Likeness

end MakeTree
