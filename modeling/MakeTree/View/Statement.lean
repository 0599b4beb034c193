import MakeTree.View.Assignment

/-!
Statements and the lines of recipes, with the conditionals that hold either.
-/

namespace MakeTree

abbrev CommentLine := Node .commentLine
abbrev Rule := Node .rule
abbrev Conditional := Node .conditional
abbrev RecipeConditional := Node .recipeConditional
abbrev Condition := Node .condition
abbrev Branch := Node .branch
abbrev RecipeBranch := Node .recipeBranch
abbrev IncludeLine := Node .includeLine
abbrev FunctionLine := Node .functionLine

inductive Statement where
  | comment (n : CommentLine)
  | assignment (n : Assignment)
  | rule (n : Rule)
  | conditional (n : Conditional)
  | definition (n : Definition)
  | includeLine (n : IncludeLine)
  | exportLine (n : ExportLine)
  | functionLine (n : FunctionLine)

namespace Statement

def ofTree? : Tree → Option Statement
  | .node .commentLine ts => some (comment ⟨ts⟩)
  | .node .assignment ts => some (assignment ⟨ts⟩)
  | .node .rule ts => some (rule ⟨ts⟩)
  | .node .conditional ts => some (conditional ⟨ts⟩)
  | .node .definition ts => some (definition ⟨ts⟩)
  | .node .includeLine ts => some (includeLine ⟨ts⟩)
  | .node .exportLine ts => some (exportLine ⟨ts⟩)
  | .node .functionLine ts => some (functionLine ⟨ts⟩)
  | _ => none

def tree : Statement → Tree
  | comment n => n.tree
  | assignment n => n.tree
  | rule n => n.tree
  | conditional n => n.tree
  | definition n => n.tree
  | includeLine n => n.tree
  | exportLine n => n.tree
  | functionLine n => n.tree

theorem ofTree?_tree (s : Statement) : ofTree? s.tree = some s := by cases s <;> rfl

end Statement

inductive RecipeLine where
  | command (e : Expression)
  | conditional (n : RecipeConditional)

def RecipeLine.ofTree? : Tree → Option RecipeLine
  | .node .recipe ts => ((⟨ts⟩ : Node .recipe).node? .expression).map command
  | .node .recipeConditional ts => some (conditional ⟨ts⟩)
  | _ => none

/-- What an `else` is followed by: lines, or a conditional that owns the `endif`. -/
inductive ElsePart (body chained : NodeKind) where
  | body (n : Node body)
  | chained (n : Node chained)

namespace ElsePart

variable {body chained : NodeKind}

def ofTree? (body chained : NodeKind) (t : Tree) : Option (ElsePart body chained) :=
  ((t.cast? body).map .body).or ((t.cast? chained).map .chained)

end ElsePart

namespace Node

variable {k : NodeKind}

/-- The statements among the children. Blank lines are none. -/
def statements (n : Node k) : List Statement := n.children.filterMap Statement.ofTree?

/-- The recipe lines among the children. Blank lines and comments are none. -/
def recipeLines (n : Node k) : List RecipeLine := n.children.filterMap RecipeLine.ofTree?

/-- The comment without its `#`. -/
def commentText? (n : CommentLine) : Option Text :=
  (n.token? .comment).map fun
    | '#' :: t => t
    | t => t

def targets (r : Rule) : List Expression := ((r.node? .targets).map words).getD []

def prerequisites (r : Rule) : List Expression := ((r.node? .prerequisites).map words).getD []

def orderOnly (r : Rule) : List Expression := ((r.node? .orderOnly).map words).getD []

def isDoubleColon (r : Rule) : Bool := r.tokens.countP (·.1 == .colon) == 2

/-- The command after a semicolon: of the first recipe line that begins with one. -/
def inlineRecipe? (r : Rule) : Option Expression := do
  let line ← (r.nodes .recipe).find? fun n => n.tree.firstLeaf?.any (·.2 == [';'])
  line.node? .expression

/-- The assignment for the targets alone. -/
def targetAssignment? (r : Rule) : Option Assignment := r.node? .assignment

/-- The keyword of an include line as written. -/
def includeKeyword? (n : IncludeLine) : Option Text := n.token? (.keyword .includeFile)

/-- Whether a missing file is no error. -/
def isOptional (n : IncludeLine) : Bool :=
  n.includeKeyword? == some "-include".toList || n.includeKeyword? == some "sinclude".toList

def conditionalKind? (n : Node k) : Option ConditionalKind :=
  n.tokens.findSome? fun t =>
    match t.1 with
    | .keyword (.conditional c) => some c
    | _ => none

def condition? (n : Node k) : Option Condition := n.node? .condition

def elseNode? (n : Node k) : Option (Node .elseBranch) := n.node? .elseBranch

def hasElse (n : Node k) : Bool := n.elseNode?.isSome

/-- Whether the conditional has an `endif` of its own, and does not share one as the end of a
chain. -/
def hasEndif (n : Node k) : Bool := (n.token? (.keyword .endif)).isSome

def thenBranch? (n : Conditional) : Option Branch := n.node? .branch

def elsePart? (n : Conditional) : Option (ElsePart .branch .conditional) := do
  (← n.elseNode?).children.findSome? (ElsePart.ofTree? _ _)

def thenRecipe? (n : RecipeConditional) : Option RecipeBranch := n.node? .recipeBranch

def elseRecipe? (n : RecipeConditional) :
    Option (ElsePart .recipeBranch .recipeConditional) := do
  (← n.elseNode?).children.findSome? (ElsePart.ofTree? _ _)

def isQuoted (c : Condition) : Bool := c.children.any fun t => t.kind == .leaf .quote

end Node

end MakeTree
