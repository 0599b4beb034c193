import MakeTree.Grammar.Expression

/-!
Lines: what a line is judged by before it is parsed, and the parsers that stay on one line.
-/

namespace MakeTree

/-- The nests up to a line break and the break; the last line of a text may have none. -/
abbrev Line := List Nest

namespace Line

/-- Cut after each line break that is not inside an expansion. -/
def split : List Nest → List Line
  | [] => []
  | n :: ns =>
    if n.isLineBreak then [n] :: split ns
    else
      match split ns with
      | [] => [[n]]
      | line :: lines => (n :: line) :: lines

theorem flatten_split (ns : List Nest) : (split ns).flatten = ns := by
  induction ns with
  | nil => rfl
  | cons n ns ih =>
    unfold split
    split
    · simp [ih]
    · split <;> simp_all

/-- From the first nest that is no blank and no recipe prefix. -/
def afterLeading (line : Line) : Line := line.dropWhile (·.kind.isLeading)

def isSpecifier (n : Nest) : Bool := n.kind.specifier?.isSome

/-- Whether at most blanks and a comment are left of the line. -/
def isDone (line : Line) : Bool :=
  (line.dropWhile Nest.isWhitespace).head?.all fun n => n.isLineBreak || n.isComment

/-- What decides between the kinds of statement: the nests in front of the end of the line,
which may come inside an expansion, and of a comment. -/
def header (line : Line) : Line := line.takeWhile fun n => !n.breaksLine && !n.isComment

/-- The first colon or assignment operator of the header. -/
def separator? (line : Line) : Option TokenKind :=
  ((header line).find? fun n => n.isColon || n.isAssignOp).map Nest.kind

def hasAssignOp (line : Line) : Bool := (header line).any Nest.isAssignOp

/-- Whether `n` makes a line of its own, evaluated for its effects. -/
def startsExpansion (n : Nest) : Bool := n.kind == .expansionPrefix || n.first.isReference

end Line

/-- What a line is to the recipe it may belong to. -/
inductive LineKind where
  | blank
  | comment
  | recipe
  | keyword (k : Keyword)
  | other
deriving DecidableEq, Repr

namespace LineKind

def ofLine (line : Line) : LineKind :=
  if line.head?.any (·.kind == .recipePrefix) then recipe
  else
    match (Line.afterLeading line).head?.map Nest.kind with
    | none => blank
    | some .lineBreak => blank
    | some .comment => comment
    | some (.keyword k) => keyword k
    | some _ => other

/-- The kinds of all lines, cut at every line break, also inside expansions. -/
def ofLines (lines : List Line) : List LineKind :=
  (Line.split (Nest.flattenAll lines.flatten)).map ofLine

/-- Whether the lines up to the `endif` of the outermost conditional are fit for a recipe, and
some of them, or an earlier one (`seen`), is a command. -/
def endsInRecipe (depth : Nat) (seen : Bool) : List LineKind → Bool
  | [] => false
  | .keyword (.conditional _) :: ks => endsInRecipe (depth + 1) seen ks
  | .keyword .otherwise :: ks => endsInRecipe depth seen ks
  | .keyword .endif :: ks => if depth ≤ 1 then seen else endsInRecipe (depth - 1) seen ks
  | .recipe :: ks => endsInRecipe depth true ks
  | .blank :: ks => endsInRecipe depth seen ks
  | .comment :: ks => endsInRecipe depth seen ks
  | .keyword _ :: _ => false
  | .other :: _ => false

end LineKind

namespace Line

/-- Whether the conditional at the head belongs to the recipe in front of it. -/
def isRecipeConditional (lines : List Line) : Bool :=
  LineKind.endsInRecipe 0 false (LineKind.ofLines lines)

/-- Whether a recipe goes on: with a command or a conditional fit for it, perhaps after lines
that are blank or hold only a comment. -/
def continuesRecipe (lines : List Line) : Bool :=
  let lines := lines.dropWhile fun line =>
    LineKind.ofLine line == .blank || LineKind.ofLine line == .comment
  match lines.head?.map LineKind.ofLine with
  | some .recipe => true
  | some (.keyword (.conditional _)) => isRecipeConditional lines
  | _ => false

end Line

namespace Parser

/-- Blanks, a comment, and the line break or the end of the text. -/
def endOfLine : Parser Unit := do
  skipWhitespace
  advanceIf Nest.isComment
  match ← unread with
  | [] => pure ()
  | _ => expect Nest.isLineBreak [.token .lineBreak]

def blankLine : Parser Unit := within .blankLine do
  skipLeading
  advanceIf Nest.isLineBreak

def commentLine : Parser Unit := within .commentLine do
  skipLeading
  endOfLine

/-- Specifiers in front of `ns`, after `found`, and what follows them. `override` goes with one
of the others, and none comes twice. -/
def specifiersOf (found : List Specifier) : List Nest → Parser (List Specifier × List Nest)
  | [] => return (found, [])
  | n :: ns =>
    match n.kind.specifier? with
    | some s =>
      let conflict :=
        if s = .override then found.contains .override else found.any (· != .override)
      if conflict then failAt (n :: ns) [.variableName] else specifiersOf (found ++ [s]) ns
    | none => if n.isWhitespace then specifiersOf found ns else return (found, n :: ns)

def specifiers : Parser (List Specifier) := do
  let (found, _) ← specifiersOf [] (← unread)
  moveWhile fun n => Line.isSpecifier n || n.isWhitespace
  return found

/-- A name and the assignment operator after it. -/
def assigned : Parser Unit := do
  expression Nest.isAssignOp
  skipWhitespace
  expect Nest.isAssignOp [.token .assignOp]
  skipWhitespace

/-- An assignment, or with `undefine` a name alone. -/
def assignment : Parser Unit := within .assignment do
  skipLeading
  let found ← specifiers
  refuse Nest.isAssignOp [.variableName]
  (if found.contains .undefine then pure () else assigned)
  expression Nest.isComment
  endOfLine

def functionLine : Parser Unit := within .functionLine do
  skipLeading
  expression Nest.isComment
  endOfLine

/-- The words of a directive up to the end of the line, if there are any. -/
def directiveWords : Parser Unit := do
  if ← atLineEnd then pure () else words fun _ => false

def exportLine : Parser Unit := within .exportLine do
  skipLeading
  advance
  skipWhitespace
  directiveWords
  endOfLine

def includeLine : Parser Unit := within .includeLine do
  skipLeading
  advance
  skipWhitespace
  refuse (fun _ => false) [.fileName]
  directiveWords
  endOfLine

/-- A command up to the end of the line: a comment in it is part of the command. -/
def command : Parser Unit := do
  advance
  skipWhitespace
  expression fun _ => false
  skipWhitespace
  advanceIf Nest.isLineBreak

/-- A line led by the recipe prefix. -/
def recipeLine : Parser Unit := within .recipe command

/-- The name that a conditional looks up. -/
def definedName : Parser Unit := do
  refuse (fun _ => false) [.variableName]
  expression Nest.isWhitespace

/-- The two sides of a comparison in parentheses, with a comma between them. -/
def parenthesized : Parser Unit := do
  advance
  skipWhitespace
  operand fun n => n.kind == .comma || n.isText [')']
  skipWhitespace
  expect (·.kind == .comma) [.token .comma]
  skipWhitespace
  operand (·.isText [')'])
  skipWhitespace
  expect (·.isText [')']) [.closeParen]

/-- The two sides of a comparison in quotes. -/
def quotedPair : Parser Unit := do
  quotedOperand
  skipWhitespace
  quotedOperand

/-- The test of a conditional, after its keyword. -/
def condition (keyword : TokenKind) : Parser Unit := within .condition do
  if keyword == .keyword (.conditional .ifdef) || keyword == .keyword (.conditional .ifndef) then
    definedName
  else if ← nextIs (·.isText ['(']) then parenthesized
  else if ← nextIs (·.kind == .stringLiteral) then quotedPair
  else fail [.openParen, .token .stringLiteral]

/-- The line that opens a conditional. -/
def conditionalHeader : Parser Unit := do
  skipLeading
  match ← kind? with
  | none => fail [.conditional]
  | some keyword =>
    advance
    skipWhitespace
    condition keyword
    endOfLine

/-- The bar and the semicolon end a list of prerequisites. -/
def endsPrerequisites (n : Nest) : Bool := n.isText ['|'] || n.isText [';']

/-- A list of prerequisites, unless it is empty. -/
def prerequisites (kind : NodeKind) : Parser Unit := do
  if ← endsOr endsPrerequisites then pure ()
  else
    within kind (words endsPrerequisites)
    skipWhitespace

/-- The prerequisites after a bar. -/
def orderOnly : Parser Unit := do
  if ← nextIs (·.isText ['|']) then
    advance
    skipWhitespace
    prerequisites .orderOnly
  else pure ()

/-- The end of a rule's first line: a command after a semicolon, or nothing. -/
def inlineRecipe : Parser Unit := do
  if ← nextIs (·.isText [';']) then within .recipe command else endOfLine

/-- The targets of a rule and its one or two colons. -/
def targets : Parser Unit := do
  skipLeading
  refuse Nest.isColon [.target]
  within .targets (words Nest.isColon)
  skipWhitespace
  expect Nest.isColon [.token .colon]
  advanceIf fun n => n.isColon && n.first.leading.isEmpty
  skipWhitespace

/-- The first line of a rule. An assignment after the colon takes the rest of the line, and then
(`false`) no recipe follows. -/
def ruleHeader : Parser Bool := do
  targets
  if Line.hasAssignOp ((← unread).takeWhile (!·.isText [';'])) then
    assignment
    return false
  else
    prerequisites .prerequisites
    orderOnly
    inlineRecipe
    return true

end Parser

end MakeTree
