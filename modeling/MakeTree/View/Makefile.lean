import MakeTree.View.Statement

/-!
Whole makefiles, and which kinds of node have a view.
-/

namespace MakeTree

abbrev Makefile := Node .root

/-- All assignments below a tree, at any depth, to a variable named literally `name`. -/
def Tree.findAssignments (t : Tree) (name : Text) : List Assignment :=
  (t.subtrees.filterMap (·.tree.cast? .assignment)).filter fun a =>
    a.subject?.any fun e => e.isLiteral && e.text == name

/-- The name of the view of a kind of node. -/
def NodeKind.viewName? : NodeKind → Option String
  | root => some "Makefile"
  | commentLine => some "Comment"
  | assignment => some "Assignment"
  | rule => some "Rule"
  | conditional => some "Conditional"
  | recipeConditional => some "RecipeConditional"
  | condition => some "Condition"
  | branch => some "Branch"
  | recipeBranch => some "RecipeBranch"
  | definition => some "Define"
  | includeLine => some "Include"
  | exportLine => some "Export"
  | functionLine => some "FunctionCall"
  | expression => some "Expression"
  | expansion => some "Expansion"
  | blankLine | targets | prerequisites | orderOnly | recipe | elseBranch => none

/-- The views of a tree of this kind, by name. -/
def Kind.viewNames : Kind → List String
  | leaf _ => []
  | node k => k.viewName?.toList

end MakeTree
