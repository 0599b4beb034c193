import MakeTree.Tree.Kind

/-!
Trees over a text. Only leaves hold text, so the text of a tree is that of its leaves in order,
and where a subtree stands follows from what comes before it.
-/

namespace MakeTree

inductive Tree where
  | leaf (kind : LeafKind) (text : Text)
  | node (kind : NodeKind) (children : List Tree)
deriving Repr

namespace Tree

def kind : Tree → Kind
  | leaf k _ => .leaf k
  | node k _ => .node k

def children : Tree → List Tree
  | leaf .. => []
  | node _ ts => ts

mutual

def text : Tree → Text
  | leaf _ t => t
  | node _ ts => textOf ts

def textOf : List Tree → Text
  | [] => []
  | t :: ts => t.text ++ textOf ts

end

theorem textOf_eq (ts : List Tree) : textOf ts = ts.flatMap text := by
  induction ts with
  | nil => rfl
  | cons t ts ih => simp [textOf, ih]

@[simp] theorem textOf_append (ts us : List Tree) : textOf (ts ++ us) = textOf ts ++ textOf us := by
  simp [textOf_eq]

mutual

def leaves : Tree → List (LeafKind × Text)
  | leaf k t => [(k, t)]
  | node _ ts => leavesOf ts

def leavesOf : List Tree → List (LeafKind × Text)
  | [] => []
  | t :: ts => t.leaves ++ leavesOf ts

end

end Tree

/-- A subtree with the number of nodes above it and the byte offset where it starts. -/
structure Placed where
  depth : Nat
  start : Nat
  tree : Tree

namespace Placed

def stop (p : Placed) : Nat := p.start + p.tree.text.byteSize

end Placed

namespace Tree

mutual

/-- All subtrees, each before its children. -/
def placed (depth start : Nat) : Tree → List Placed
  | leaf k t => [⟨depth, start, leaf k t⟩]
  | node k ts => ⟨depth, start, node k ts⟩ :: placedOf (depth + 1) start ts

def placedOf (depth start : Nat) : List Tree → List Placed
  | [] => []
  | t :: ts => t.placed depth start ++ placedOf depth (start + t.text.byteSize) ts

end

def subtrees (t : Tree) : List Placed := t.placed 0 0

end Tree

end MakeTree
