import MakeTree.View.Node

/-!
Expressions as fragments, and the name and arguments of an expansion.
-/

namespace MakeTree

abbrev Expression := Node .expression

abbrev Expansion := Node .expansion

/-- A piece of an expression. -/
inductive Fragment where
  | text (t : Text)
  | expansion (e : Expansion)

namespace Fragment

/-- Put text in front, into the first fragment if that is text too. -/
def prepend (t : Text) : List Fragment → List Fragment
  | text u :: fs => text (t ++ u) :: fs
  | fs => text t :: fs

def source : Fragment → Text
  | text t => t
  | expansion e => e.text

/-- Put one child of an expression in front. Continuations and skipped characters do not
count. -/
def addChild : Tree → List Fragment → List Fragment
  | .leaf .continuation _, fs => fs
  | .leaf .skipped _, fs => fs
  | .leaf _ t, fs => prepend t fs
  | .node k ts, fs =>
    match (Tree.node k ts).cast? .expansion with
    | some e => expansion e :: fs
    | none => fs

end Fragment

namespace Node

def fragments (e : Expression) : List Fragment := e.children.foldr Fragment.addChild []

def expansions (e : Expression) : List Expansion := e.nodes .expansion

def isLiteral (e : Expression) : Bool := e.expansions.isEmpty

/-- The first token of an expansion: its opening bracket, or the whole of a short one. -/
def opener? (e : Expansion) : Option Text := e.tree.firstLeaf?.map (·.2)

/-- Whether the expansion is a single character after a dollar sign. -/
def isShort (e : Expansion) : Bool := e.tree.firstLeaf?.any (·.1 == .token .varRef)

def nameExpression? (e : Expansion) : Option Expression := e.node? .expression

/-- The name as written. -/
def expansionName (e : Expansion) : Text :=
  if e.isShort then (e.opener?.getD []).dropWhile (· == '$')
  else (e.nameExpression?.map Node.text).getD []

def arguments (e : Expansion) : List Expression := (e.nodes .expression).drop 1

/-- Whether arguments follow the name. -/
def isCall (e : Expansion) : Bool := !e.arguments.isEmpty

end Node

end MakeTree
