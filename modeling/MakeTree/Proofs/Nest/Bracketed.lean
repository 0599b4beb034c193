import MakeTree.Proofs.Openers

/-!
Expansions in brackets, wherever they stand among nests. Each is made of lexemes in a row, and in the
trees of the nests its node stands behind the text of the lexemes before these (`Laid.bracketed`).
-/

namespace MakeTree

/-- An expansion in brackets. -/
structure Bracketed where
  opener : Lexeme
  body : List Nest
  closer : Lexeme

namespace Bracketed

/-- What the node of the expansion holds. -/
def children (b : Bracketed) : List Tree :=
  b.opener.leaves ++ Part.layout (Nest.parts b.body) ++ b.closer.leaves

/-- Among the lexemes `xs` the expansion is made of those between `before` and `after`, and in the
trees `ts` of all of them, which start at the offset, it stands behind the text of `before`. -/
structure Among (b : Bracketed) (start : Nat) (xs : List Lexeme) (ts : List Tree)
    (before inside after : List Lexeme) : Prop where
  lexemes : xs = before ++ (b.opener :: (inside ++ [b.closer])) ++ after
  body : inside.map Nest.ofLexeme = Nest.flattenAll b.body
  node : (start + (Lexeme.textOf before).byteSize, b.children) ∈ Tree.expansionsOf start ts

/-- The expansion stands among the lexemes, and in their trees. -/
def Stands (b : Bracketed) (start : Nat) (xs : List Lexeme) (ts : List Tree) : Prop :=
  ∃ before inside after, b.Among start xs ts before inside after

namespace Stands

variable {b : Bracketed} {start : Nat} {xs ys : List Lexeme} {ts us : List Tree}

theorem left (h : b.Stands start xs ts) : b.Stands start (xs ++ ys) (ts ++ us) := by
  obtain ⟨before, inside, after, hx, hb, hn⟩ := h
  refine ⟨before, inside, after ++ ys, ?_, hb, ?_⟩
  · rw [hx, List.append_assoc _ after]
  · rw [Tree.expansionsOf_append]
    exact List.mem_append_left _ hn

theorem right (h : b.Stands (start + (Lexeme.textOf xs).byteSize) ys us)
    (ht : Tree.textOf ts = Lexeme.textOf xs) : b.Stands start (xs ++ ys) (ts ++ us) := by
  obtain ⟨before, inside, after, hy, hb, hn⟩ := h
  refine ⟨xs ++ before, inside, after, ?_, hb, ?_⟩
  · rw [hy]
    simp only [List.append_assoc]
  · rw [Tree.expansionsOf_append, ht, Lexeme.textOf_append, Text.byteSize_append, ← Nat.add_assoc]
    exact List.mem_append_right _ hn

theorem of_eq (h : b.Stands start xs ts)
    (he : Tree.expansionsOf start us = Tree.expansionsOf start ts) : b.Stands start xs us := by
  obtain ⟨before, inside, after, hx, hb, hn⟩ := h
  exact ⟨before, inside, after, hx, hb, he ▸ hn⟩

theorem expansion (h : b.Stands start xs ts) : b.Stands start xs [.node .expansion ts] := by
  obtain ⟨before, inside, after, hx, hb, hn⟩ := h
  refine ⟨before, inside, after, hx, hb, ?_⟩
  rw [Tree.expansionsOf_expansion]
  exact List.mem_cons_of_mem _ hn

end Stands

end Bracketed

namespace Nest

mutual

/-- The expansions in a nest. -/
def bracketed : Nest → List Bracketed
  | leaf _ => []
  | quoted .. => []
  | raw _ => []
  | expansion opener body closer => ⟨opener, body, closer⟩ :: bracketedOf body

def bracketedOf : List Nest → List Bracketed
  | [] => []
  | n :: ns => n.bracketed ++ bracketedOf ns

end

theorem bracketedOf_append (ms ns : List Nest) :
    bracketedOf (ms ++ ns) = bracketedOf ms ++ bracketedOf ns := by
  induction ms with
  | nil => rfl
  | cons m ms ih => simp [bracketedOf, ih]

mutual

theorem mem_bracketed {n : Nest} {b : Lexeme × Lexeme} (h : b ∈ n.brackets) :
    ∃ body, ⟨b.1, body, b.2⟩ ∈ n.bracketed := by
  match n with
  | leaf x => cases h
  | quoted x inside trailing => cases h
  | raw x => cases h
  | expansion opener body closer =>
    rcases List.mem_cons.1 h with rfl | h
    · exact ⟨body, List.mem_cons_self⟩
    · exact (mem_bracketedOf h).imp fun _ hm => List.mem_cons_of_mem _ hm

theorem mem_bracketedOf {ns : List Nest} {b : Lexeme × Lexeme} (h : b ∈ bracketsOf ns) :
    ∃ body, ⟨b.1, body, b.2⟩ ∈ bracketedOf ns := by
  match ns with
  | [] => cases h
  | n :: ns =>
    rcases List.mem_append.1 h with h | h
    · exact (mem_bracketed h).imp fun _ hm => List.mem_append_left _ hm
    · exact (mem_bracketedOf h).imp fun _ hm => List.mem_append_right _ hm

end

mutual

theorem closed_bracketed {n : Nest} (hc : n.Closed) {b : Bracketed} (h : b ∈ n.bracketed) :
    (expansion b.opener b.body b.closer).Closed := by
  match n with
  | leaf x => cases h
  | quoted x inside trailing => cases h
  | raw x => cases h
  | expansion opener body closer =>
    rcases List.mem_cons.1 h with rfl | h
    · exact hc
    · exact closed_bracketedOf hc.2.1 h

theorem closed_bracketedOf {ns : List Nest} (hc : ClosedAll ns) {b : Bracketed}
    (h : b ∈ bracketedOf ns) : (expansion b.opener b.body b.closer).Closed := by
  match ns with
  | [] => cases h
  | n :: ns =>
    rcases List.mem_append.1 h with h | h
    · exact closed_bracketed hc.1 h
    · exact closed_bracketedOf hc.2 h

end

theorem map_ofLexeme_expansion {opener closer : Lexeme} {body : List Nest}
    (h : (expansion opener body closer).Closed) {xs : List Lexeme}
    (hx : xs.map ofLexeme = flattenAll body) :
    (opener :: (xs ++ [closer])).map ofLexeme = (expansion opener body closer).flatten := by
  have leaf {x : Lexeme} (hk : x.token.kind ≠ .stringLiteral) : ofLexeme x = .leaf x := by
    rw [ofLexeme, if_neg hk]
  rw [List.map_cons, List.map_append, hx, List.map_singleton, leaf (by rw [h.1]; decide),
    leaf (by rw [h.2.2]; decide)]
  rfl

mutual

theorem bracketed_trees {n : Nest} {xs : List Lexeme} {start : Nat}
    (hx : xs.map ofLexeme = n.flatten) (hs : Lexeme.Seated start xs) :
    ∀ b ∈ n.bracketed, b.Stands start xs n.trees := by
  match n with
  | leaf x => exact fun _ hb => absurd hb List.not_mem_nil
  | quoted x inside trailing => exact fun _ hb => absurd hb List.not_mem_nil
  | raw x => exact fun _ hb => absurd hb List.not_mem_nil
  | expansion opener body closer =>
    obtain ⟨ys, rfl, hy⟩ := map_ofLexeme_eq_expansion hx
    obtain ⟨⟨ho, -⟩, hs⟩ := Lexeme.seated_append.1 hs
    obtain ⟨hbody, -⟩ := Lexeme.seated_append.1 hs
    intro b hb
    rcases List.mem_cons.1 hb with rfl | hb
    · refine ⟨[], ys, [], ?_, hy, ?_⟩
      · simp
      · rw [trees, Tree.expansionsOf_expansion]
        exact List.mem_cons_self
    · have hin := (bracketed_treesOf hy hbody b hb).of_eq
        ((Part.layout_regroups (parts body)).expansionsOf _)
      have hto : Tree.textOf opener.leaves = Lexeme.textOf [opener] := by
        rw [Lexeme.textOf_leaves]
        exact (List.append_nil _).symm
      have hall : b.Stands start ([opener] ++ (ys ++ [closer]))
          (opener.leaves ++ (Part.layout (parts body) ++ closer.leaves)) := hin.left.right hto
      rw [← List.append_assoc opener.leaves] at hall
      exact hall.expansion

theorem bracketed_treesOf {ns : List Nest} {xs : List Lexeme} {start : Nat}
    (hx : xs.map ofLexeme = flattenAll ns) (hs : Lexeme.Seated start xs) :
    ∀ b ∈ bracketedOf ns, b.Stands start xs (treesOf ns) := by
  match ns with
  | [] => exact fun _ hb => absurd hb List.not_mem_nil
  | n :: ns =>
    obtain ⟨ys, zs, rfl, ⟨hy, h₁⟩, hz, h₂⟩ := Lexeme.seated_split hx hs
    intro b hb
    show b.Stands start (ys ++ zs) (n.trees ++ treesOf ns)
    rcases List.mem_append.1 hb with hb | hb
    · exact (bracketed_trees hy h₁ b hb).left
    · exact (bracketed_treesOf hz h₂ b hb).right (textOf_trees hy h₁)

end

end Nest

namespace Laid

theorem finds_bracketed : Nest.Finds Nest.bracketedOf fun b start xs ts => b.Stands start xs ts where
  append := Nest.bracketedOf_append
  nil := rfl
  leaf _ := rfl
  quoted _ _ _ := rfl
  raw _ := rfl
  left h := h.left
  right ht h := h.right ht
  of_eq h he := h.of_eq he
  treesOf _ hx hs := Nest.bracketed_treesOf hx hs

/-- Every expansion of the nests stands in their trees. -/
theorem bracketed {k : NodeKind} {ns : List Nest} {ts : List Tree} (h : Laid k ns ts)
    {xs : List Lexeme} {start : Nat} (hx : xs.map Nest.ofLexeme = Nest.flattenAll ns)
    (hs : Lexeme.Seated start xs) : ∀ b ∈ Nest.bracketedOf ns, b.Stands start xs ts :=
  h.finds finds_bracketed hx hs

end Laid

end MakeTree
