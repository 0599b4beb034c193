import MakeTree.Grammar.Basic

/-!
Expressions, which are runs of nests on one line. Blanks at the end of a run stay outside. All of a
run is gone through before its trees are built, as nobody sees the trees of a run that is refused.
-/

namespace MakeTree

namespace Nest

/-- Without the blanks at the end. -/
def trimEnd : List Nest → List Nest
  | [] => []
  | n :: ns =>
    match trimEnd ns with
    | [] => if n.isWhitespace then [] else [n]
    | m :: ms => n :: m :: ms

theorem trimEnd_isPrefix (ns : List Nest) : trimEnd ns <+: ns := by
  induction ns with
  | nil => exact List.prefix_refl _
  | cons n ns ih =>
    unfold trimEnd
    split
    · split
      · exact List.nil_prefix
      · simp
    · next h => rwa [List.cons_prefix_cons, ← h, and_iff_right rfl]

/-- The run of nests in front of `stop` or the end of the line. -/
def span (stop : Nest → Bool) (ns : List Nest) : List Nest :=
  trimEnd (ns.takeWhile fun n => !n.isLineBreak && !stop n)

/-- The number of literal parentheses open after the nest. -/
def parenDepth (n : Nest) (depth : Nat) : Nat :=
  if n.isText ['('] then depth + 1 else if n.isText [')'] then depth - 1 else depth

/-- The nests in front of `stop`, which does not count within literal parentheses, or the end
of the line. -/
def takeOperand (stop : Nest → Bool) (depth : Nat) : List Nest → List Nest
  | [] => []
  | n :: ns =>
    if n.isLineBreak || (depth == 0 && stop n) then []
    else n :: takeOperand stop (n.parenDepth depth) ns

/-- Whether the line ends within the nest. -/
def breaksLine (n : Nest) : Bool := n.flatten.any isLineBreak

/-- Words and the blanks between them, in turn. -/
def wordRuns (ns : List Nest) : List (List Nest) :=
  ns.splitBy fun m n => m.isWhitespace == n.isWhitespace

end Nest

namespace Parser

mutual

/-- Go through the first of some nests: literals are read again, and brackets without a partner
refused. All that comes after an opener that nothing closes is in its expansion. -/
def fragment (multiline : Bool) : List Nest → Parser Unit
  | [] => failAt [] [.expression]
  | .leaf x :: ns =>
    match x.token.kind with
    | .expansionPrefix => do
      bracketed multiline ns
      failAt [] [.token .expansionSuffix]
    | .expansionSuffix => failAt [.leaf x] [.text]
    | _ => pure ()
  | .quoted x inside _ :: _ => do
    record x.token.inside.frameEvents
    fragments multiline inside.length inside
  | .raw x :: _ => record x.token.inside.frameEvents
  | .expansion _ body _ :: _ => bracketed multiline body
termination_by ns => (sizeOf ns, 0)

/-- Go through the first `count` nests. -/
def fragments (multiline : Bool) : Nat → List Nest → Parser Unit
  | 0, _ => pure ()
  | _ + 1, [] => pure ()
  | count + 1, n :: ns => do
    fragment multiline (n :: ns)
    fragments multiline count ns
termination_by _ ns => (sizeOf ns, 1)

/-- Go through the nests in an expansion. Unless it may take several lines, it ends on its own. -/
def bracketed (multiline : Bool) : List Nest → Parser Unit
  | [] => pure ()
  | n :: ns =>
    if n.isLineBreak && !multiline then failAt [n] [.token .expansionSuffix]
    else do
      fragment multiline (n :: ns)
      bracketed multiline ns
termination_by ns => (sizeOf ns, 1)

end

/-- The contents of an expression, which are next. -/
def contents (ns : List Nest) : Parser Unit := do
  fragments false ns.length (← unread)
  build (Nest.treesOf ns)

/-- An expression made of the next nests `ns`. -/
def expressionOf (ns : List Nest) : Parser Unit := do
  within .expression (contents ns)
  load ((← unread).drop ns.length)

/-- An expression up to `stop` or the end of the line. -/
def expression (stop : Nest → Bool) : Parser Unit := do
  expressionOf (Nest.span stop (← unread))

/-- One side of a comparison in parentheses. -/
def operand (stop : Nest → Bool) : Parser Unit := do
  expressionOf (Nest.trimEnd (Nest.takeOperand stop 0 (← unread)))

/-- A quoted literal as one side of a comparison: the quotes stand outside the expression. -/
def quotedOperand : Parser Unit := do
  match ← unread with
  | .quoted x inside trailing :: ns =>
    record x.token.inside.frameEvents
    fragments false inside.length inside
    build (x.openQuote ++ [.node .expression (Nest.treesOf inside)] ++
      trailing.map Trivia.tree ++ [x.closeQuote])
    load ns
  | .raw x :: ns =>
    record x.token.inside.frameEvents
    build (x.openQuote ++
      [.node .expression [.leaf (.token .plainText) x.token.inside.rest], x.closeQuote])
    load ns
  | _ => fail [.token .stringLiteral]

/-- Expressions separated by blanks, up to `stop`, a comment or the end of the line. -/
def words (stop : Nest → Bool) : Parser Unit := do
  let ns := Nest.span (fun n => n.isComment || stop n) (← unread)
  (Nest.wordRuns ns).forM fun run =>
    if run.all Nest.isWhitespace then move run.length else expressionOf run

end Parser

end MakeTree
