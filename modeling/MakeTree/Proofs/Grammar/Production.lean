import MakeTree.Grammar.Statement
import MakeTree.View.Makefile

/-!
The grammar of trees. `Node.Conforms` says for each kind of node which nodes it holds, in order, and
what its views find in it.
-/

namespace MakeTree

namespace Tree

/-- The nodes among the trees, with their children. -/
def nodesOf (ts : List Tree) : List (NodeKind × List Tree) :=
  ts.filterMap fun
    | .node k us => some (k, us)
    | .leaf .. => none

def kinds (ts : List Tree) : List NodeKind := (nodesOf ts).map Prod.fst

def marks (ts : List Tree) : List (TokenKind × Text) := Node.tokens (k := .root) ⟨ts⟩

def specifiers (ts : List Tree) : List Specifier := (marks ts).filterMap (·.1.specifier?)

section Lists

variable (ts us : List Tree)

@[simp] theorem nodesOf_nil : nodesOf [] = [] := rfl

@[simp] theorem nodesOf_append : nodesOf (ts ++ us) = nodesOf ts ++ nodesOf us := List.filterMap_append

@[simp] theorem nodesOf_node (k : NodeKind) : nodesOf (.node k us :: ts) = (k, us) :: nodesOf ts := rfl

@[simp] theorem nodesOf_leaf (k : LeafKind) (s : Text) : nodesOf (.leaf k s :: ts) = nodesOf ts := rfl

@[simp] theorem kinds_nil : kinds [] = [] := rfl

@[simp] theorem kinds_append : kinds (ts ++ us) = kinds ts ++ kinds us := by simp [kinds]

@[simp] theorem kinds_node (k : NodeKind) : kinds (.node k us :: ts) = k :: kinds ts := rfl

@[simp] theorem kinds_leaf (k : LeafKind) (s : Text) : kinds (.leaf k s :: ts) = kinds ts := rfl

@[simp] theorem marks_nil : marks [] = [] := rfl

@[simp] theorem marks_append : marks (ts ++ us) = marks ts ++ marks us := List.filterMap_append

@[simp] theorem marks_node (k : NodeKind) : marks (.node k us :: ts) = marks ts := rfl

@[simp] theorem marks_token (k : TokenKind) (s : Text) :
    marks (.leaf (.token k) s :: ts) = (k, s) :: marks ts := rfl

@[simp] theorem marks_quote (s : Text) : marks (.leaf .quote s :: ts) = marks ts := rfl

@[simp] theorem marks_trivia (vs : List Trivia) : marks (vs.map Trivia.tree) = [] := by
  induction vs with
  | nil => rfl
  | cons v vs ih => cases v <;> exact ih

@[simp] theorem nodesOf_trivia (vs : List Trivia) : nodesOf (vs.map Trivia.tree) = [] := by
  induction vs with
  | nil => rfl
  | cons v vs ih => cases v <;> exact ih

@[simp] theorem nodesOf_leaves (x : Lexeme) : nodesOf x.leaves = [] := by simp [Lexeme.leaves]

@[simp] theorem marks_leaves (x : Lexeme) : marks x.leaves = [(x.token.kind, x.token.text)] := by
  simp [Lexeme.leaves]

@[simp] theorem nodesOf_openQuote (x : Lexeme) : nodesOf x.openQuote = [] := by
  simp [Lexeme.openQuote]

@[simp] theorem kinds_leaves (x : Lexeme) : kinds x.leaves = [] := by simp [kinds]

@[simp] theorem kinds_openQuote (x : Lexeme) : kinds x.openQuote = [] := by simp [kinds]

@[simp] theorem kinds_trivia (vs : List Trivia) : kinds (vs.map Trivia.tree) = [] := by
  simp [kinds]

@[simp] theorem marks_openQuote (x : Lexeme) : marks x.openQuote = [] := by
  simp [Lexeme.openQuote]

@[simp] theorem specifiers_nil : specifiers [] = [] := rfl

@[simp] theorem specifiers_append : specifiers (ts ++ us) = specifiers ts ++ specifiers us := by
  rw [specifiers, marks_append, List.filterMap_append]
  rfl

@[simp] theorem specifiers_node (k : NodeKind) :
    specifiers (.node k us :: ts) = specifiers ts := rfl

end Lists

theorem eq_node_of_kind {t : Tree} {k : NodeKind} (h : t.kind = .node k) : ∃ us, t = .node k us := by
  cases t with
  | leaf => cases h
  | node j us =>
    obtain rfl := Kind.node.inj h
    exact ⟨us, rfl⟩

theorem mem_nodesOf {ts us : List Tree} {k : NodeKind} :
    (k, us) ∈ nodesOf ts ↔ .node k us ∈ ts := by
  rw [nodesOf, List.mem_filterMap]
  constructor
  · rintro ⟨t, ht, he⟩
    cases t with
    | leaf j s => cases he
    | node j vs =>
      cases he
      exact ht
  · exact fun h => ⟨_, h, rfl⟩

theorem kinds_of_nodesOf {ts : List Tree} (h : nodesOf ts = []) : kinds ts = [] := by
  rw [kinds, h, List.map_nil]

theorem kinds_of_one {ts us : List Tree} {k : NodeKind} (h : nodesOf ts = [(k, us)]) :
    kinds ts = [k] := by
  rw [kinds, h]
  rfl

theorem specifiers_eq_nil {ts : List Tree} (h : ∀ m ∈ marks ts, m.1.specifier? = none) :
    specifiers ts = [] := List.filterMap_eq_nil_iff.2 h

end Tree

/-- The nodes of kind `k` among nodes. -/
def NodeKind.pick (k : NodeKind) (us : List (NodeKind × List Tree)) : List (Node k) :=
  us.filterMap fun u => if u.1 = k then some ⟨u.2⟩ else none

namespace Node

variable {k : NodeKind}

theorem tokens_eq (n : Node k) : n.tokens = Tree.marks n.children := rfl

theorem nodes_eq (n : Node k) (j : NodeKind) : n.nodes j = j.pick (Tree.nodesOf n.children) := by
  rw [nodes, NodeKind.pick, Tree.nodesOf, List.filterMap_filterMap]
  congr 1
  funext t
  cases t <;> rfl

theorem token?_isSome (n : Node k) (j : TokenKind) :
    (n.token? j).isSome = true ↔ ∃ s, (j, s) ∈ Tree.marks n.children := by
  rw [token?, tokens_eq]
  simp

theorem token?_eq_none (n : Node k) (j : TokenKind) :
    n.token? j = none ↔ ∀ s, (j, s) ∉ Tree.marks n.children := by
  rw [← Option.not_isSome_iff_eq_none, token?_isSome, not_exists]

theorem mem_of_token? {n : Node k} {j : TokenKind} {s : Text} (h : n.token? j = some s) :
    (j, s) ∈ Tree.marks n.children := by
  obtain ⟨m, hm, rfl⟩ := Option.map_eq_some_iff.1 h
  have hk := List.find?_some hm
  simp only [beq_iff_eq] at hk
  subst hk
  exact List.mem_of_find?_eq_some hm

theorem specifiers_eq (n : Node k) :
    n.specifiers = Tree.specifiers n.children := rfl

def nodeKinds (n : Node k) : List NodeKind := Tree.kinds n.children

end Node

def NodeKind.statements : List NodeKind :=
  [.commentLine, .assignment, .rule, .conditional, .definition, .includeLine, .exportLine,
    .functionLine]

/-- What a recipe is made of. -/
def NodeKind.recipeItems : List NodeKind := [.recipe, .recipeConditional, .blankLine, .commentLine]

/-- The number of expressions that a conditional compares or looks up. -/
def ConditionalKind.operands : ConditionalKind → Nat
  | ifdef | ifndef => 1
  | ifeq | ifneq => 2

/-- No specifier twice, and none but one beside `override`. -/
def Specifier.Compatible (found : List Specifier) : Prop :=
  found.Nodup ∧ (found.filter (· != .override)).length ≤ 1

namespace Node

variable {k : NodeKind}

/-- The first expression is there and is not empty. -/
def Named (n : Node k) : Prop := ∃ e, n.subject? = some e ∧ e.text ≠ []

/-- Expressions and nothing else, none of them empty. -/
def HoldsWords (n : Node k) : Prop := n.nodeKinds ⊆ [.expression] ∧ ∀ e ∈ n.words, e.text ≠ []

/-- A conditional: a test with as many operands as its keyword wants, a branch, and either an
`endif` after at most a plain `else`, or a conditional of the same sort behind the `else`, and no
`endif`. -/
def IsConditional (ctx : Context) (n : Node k) : Prop :=
  (∃ c test, n.conditionalKind? = some c ∧ n.condition? = some test ∧
    (test.nodes .expression).length = c.operands) ∧
  (n.nodeKinds = [.condition, ctx.branch] ∧ n.hasEndif = true ∨
    n.nodeKinds = [.condition, ctx.branch, .elseBranch] ∧
      ∃ e, n.elseNode? = some e ∧
        (n.hasEndif = true ∧ e.nodeKinds = [ctx.branch] ∨
          n.hasEndif = false ∧ e.nodeKinds = [ctx.node]))

/-- What a rule holds behind its targets: an assignment and nothing else, or prerequisites and a
recipe. -/
def IsRule (n : Node .rule) : Prop :=
  (n.targets ≠ [] ∧ ∀ e ∈ n.targets, e.text ≠ []) ∧
  (n.nodeKinds = [.targets, .assignment] ∨
    ∃ lists items, n.nodeKinds = .targets :: (lists ++ items) ∧
      lists.Sublist [.prerequisites, .orderOnly] ∧ items ⊆ NodeKind.recipeItems)

/-- The children are what the grammar says of the kind. -/
def Conforms : {k : NodeKind} → Node k → Prop
  | .root, n => n.nodeKinds ⊆ .blankLine :: NodeKind.statements
  | .branch, n => n.nodeKinds ⊆ .blankLine :: NodeKind.statements
  | .recipeBranch, n => n.nodeKinds ⊆ NodeKind.recipeItems
  | .blankLine, n => n.nodeKinds = []
  | .commentLine, n => n.nodeKinds = [] ∧ n.comment?.isSome
  | .assignment, n =>
    n.Named ∧ Specifier.Compatible n.specifiers ∧
      (n.isUndefine = true ∧ n.nodeKinds = [.expression] ∧ n.operator? = none ∧ n.value? = none ∨
        n.isUndefine = false ∧ n.nodeKinds = [.expression, .expression] ∧ n.operator?.isSome ∧
          n.value?.isSome)
  | .definition, n =>
    n.Named ∧ Specifier.Compatible n.specifiers ∧ n.nodeKinds = [.expression, .expression] ∧
      n.body?.isSome
  | .rule, n => n.IsRule
  | .targets, n => n.HoldsWords ∧ n.words ≠ []
  | .prerequisites, n => n.HoldsWords ∧ n.words ≠ []
  | .orderOnly, n => n.HoldsWords ∧ n.words ≠ []
  | .recipe, n => n.nodeKinds = [.expression]
  | .conditional, n => n.IsConditional .statements
  | .recipeConditional, n => n.IsConditional .recipe
  | .condition, n => n.nodeKinds = [.expression] ∨ n.nodeKinds = [.expression, .expression]
  | .elseBranch, n => ∃ ctx : Context, n.nodeKinds = [ctx.branch] ∨ n.nodeKinds = [ctx.node]
  | .includeLine, n => n.includeKeyword?.isSome ∧ n.HoldsWords ∧ n.words ≠ []
  | .exportLine, n =>
    (n.specifiers = [.exported] ∨ n.specifiers = [.unexported]) ∧ n.HoldsWords
  | .functionLine, n => n.nodeKinds = [.expression] ∧ n.Named
  | .expression, n => n.nodeKinds ⊆ [.expansion]
  | .expansion, n =>
    (∃ s, n.nodeKinds = [] ∧ n.tokens = [(.varRef, s)]) ∨
      n.nodeKinds ≠ [] ∧ n.nodeKinds ⊆ [.expression] ∧
        n.tokens.head?.map Prod.fst = some .expansionPrefix ∧
        n.tokens.getLast?.map Prod.fst = some .expansionSuffix

end Node

end MakeTree
