import MakeTree.Tree.Basic

/-!
Nodes of a known kind. A view of a construct is such a node, and reads what it tells off its
children.
-/

namespace MakeTree

/-- A node of kind `k`, given by its children. -/
structure Node (k : NodeKind) where
  children : List Tree

/-- The tree as a node of kind `k`. -/
def Tree.cast? (k : NodeKind) : Tree → Option (Node k)
  | leaf .. => none
  | node k' ts => if k' = k then some ⟨ts⟩ else none

/-- The leaf on which a descent along first children ends. -/
def Tree.firstLeaf? : Tree → Option (LeafKind × Text)
  | leaf k t => some (k, t)
  | node _ [] => none
  | node _ (t :: _) => t.firstLeaf?

namespace Node

variable {k : NodeKind}

def tree (n : Node k) : Tree := .node k n.children

def text (n : Node k) : Text := n.tree.text

def nodes (n : Node k) (kind : NodeKind) : List (Node kind) := n.children.filterMap (Tree.cast? kind)

def node? (n : Node k) (kind : NodeKind) : Option (Node kind) := (n.nodes kind).head?

def tokens (n : Node k) : List (TokenKind × Text) :=
  n.children.filterMap fun
    | .leaf (.token kind) t => some (kind, t)
    | _ => none

def token? (n : Node k) (kind : TokenKind) : Option Text :=
  (n.tokens.find? (·.1 == kind)).map (·.2)

def specifiers (n : Node k) : List Specifier := n.tokens.filterMap (·.1.specifier?)

end Node

end MakeTree
