import MakeTree.Grammar.Line

/-!
Statements, which may run over several lines. A parser of these is given the lines after the
current one and returns those it leaves, never more than it was given.
-/

namespace MakeTree

/-- What is left of `lines`. -/
abbrev Rest (lines : List Line) := { rest : List Line // rest.length ≤ lines.length }

def Rest.all (lines : List Line) : Rest lines := ⟨lines, Nat.le_refl _⟩

/-- What the branches of a conditional hold. -/
inductive Context where
  | statements
  | recipe
deriving DecidableEq, Repr

namespace Context

def node : Context → NodeKind
  | statements => .conditional
  | recipe => .recipeConditional

def branch : Context → NodeKind
  | statements => .branch
  | recipe => .recipeBranch

/-- The keyword of a line that ends a branch. In a recipe, a line led by the recipe prefix is a
command whatever it says. -/
def closing? (ctx : Context) (line : Line) : Option Keyword :=
  let kind := match ctx with
    | statements => (Line.afterLeading line).head?.map Nest.kind
    | recipe =>
      match LineKind.ofLine line with
      | .keyword k => some (.keyword k)
      | _ => none
  match kind with
  | some (.keyword .otherwise) => some .otherwise
  | some (.keyword .endif) => some .endif
  | _ => none

end Context

namespace Line

/-- How a line counts for the end of the definition around it. -/
inductive Nesting where
  | opens
  | closes
  | inside
deriving DecidableEq, Repr

/-- A line led by the recipe prefix neither opens nor closes a definition. -/
def nesting (line : Line) : Nesting :=
  if line.head?.any (·.kind == .recipePrefix) then .inside
  else
    match afterLeading line with
    | [] => .inside
    | n :: ns =>
      if n.kind == .keyword .endef && isDone ns then .closes
      else
        let first := (n :: ns).find? fun m => !isSpecifier m && !m.isWhitespace
        if first.any (·.kind == .keyword .define) then .opens else .inside

/-- The number of lines in front of the `endef` that closes a definition, of which `depth`
more are open inside. -/
def endef? (depth : Nat) : List Line → Option Nat
  | [] => none
  | line :: lines =>
    match nesting line with
    | .inside => (endef? depth lines).map (· + 1)
    | .opens => (endef? (depth + 1) lines).map (· + 1)
    | .closes => if depth = 0 then some 0 else (endef? (depth - 1) lines).map (· + 1)

end Line

namespace Parser

/-- The lines of a definition's body. The last line break belongs to the definition and not to
its body. -/
def body (lines : List Line) : Parser Unit := do
  let ns := lines.flatten
  within .expression do
    fragments true ns.dropLast.length ns.dropLast
    build (Nest.treesOf ns.dropLast)
  build (Nest.treesOf ns.getLast?.toList)

def definition (lines : List Line) : Parser (Rest lines) := within .definition do
  skipLeading
  let _ ← specifiers
  advance
  skipWhitespace
  refuse Nest.isAssignOp [.macroName]
  expression fun n => n.isWhitespace || n.isAssignOp
  skipWhitespace
  advanceIf Nest.isAssignOp
  endOfLine
  match Line.endef? 0 lines with
  | none => throw (.unexpectedEnd [.token (.keyword .endef)])
  | some count =>
    body (lines.take count)
    load (lines[count]?.getD [])
    skipLeading
    advance
    endOfLine
    return ⟨lines.drop (count + 1), by simp⟩

/-- A statement that takes no more than the current line. -/
def oneLine (lines : List Line) (p : Parser Unit) : Parser (Rest lines) := do
  p
  return .all lines

/-- What the specifiers `found` make of the line that goes on with `after`. -/
def specifiedLine (found : List Specifier) (after : Line) : Parser Unit :=
  if found.contains .undefine || Line.hasAssignOp after then assignment
  else if found == [.exported] || found == [.unexported] then exportLine
  else if after.head?.all fun n => n.isLineBreak || n.isComment then
    failAt after [.variableName]
  else failAt ((Nest.flattenAll after).dropWhile (!·.isLineBreak)) [.token .assignOp]

/-- A statement led by specifiers or by `define`; `line` starts with the first of them. -/
def specified (line : Line) (lines : List Line) : Parser (Rest lines) := do
  let (found, after) ← specifiersOf [] line
  if after.head?.any (·.kind == .keyword .define) then definition lines
  else oneLine lines (specifiedLine found after)

def endif (ctx : Context) : Parser Unit := do
  let line ← unread
  if ctx.closing? line = some .endif then
    skipLeading
    advance
    endOfLine
  else failAt (Line.afterLeading line) [.token (.keyword .endif)]

mutual

def statement (lines : List Line) : Parser (Rest lines) := do
  match Line.afterLeading (← unread) with
  | [] => oneLine lines skipLeading
  | n :: ns =>
    record [.statement n.kind]
    match n.kind with
    | .lineBreak => oneLine lines blankLine
    | .comment => oneLine lines commentLine
    | .keyword (.conditional _) => conditional .statements lines
    | .keyword (.specifier _) => specified (n :: ns) lines
    | .keyword .define => specified (n :: ns) lines
    | .keyword .includeFile => oneLine lines includeLine
    | .keyword _ => failAt (n :: ns) [.statement]
    | _ =>
      match Line.separator? (n :: ns) with
      | some .colon => within .rule do
        if ← ruleHeader then recipes lines else return .all lines
      | some _ => oneLine lines assignment
      | none =>
        if Line.startsExpansion n then oneLine lines functionLine
        else failAt (n :: ns) [.token .colon, .token .assignOp]
termination_by (lines.length, 3)

def conditional (ctx : Context) (lines : List Line) : Parser (Rest lines) := within ctx.node do
  conditionalHeader
  let ⟨afterThen, hThen⟩ ← within ctx.branch (branch ctx lines)
  if ctx.closing? (← unread) = some .otherwise then
    let ⟨chained, afterElse, hElse⟩ ← within .elseBranch (otherwise ctx afterThen)
    (if chained then pure () else endif ctx)
    return ⟨afterElse, by omega⟩
  else
    endif ctx
    return ⟨afterThen, by omega⟩
termination_by (lines.length, 1)

/-- What follows on the current line of an `else`: a conditional, which owns the `endif`
(`true`), or nothing, and then the branch on the lines after it. -/
def otherwise (ctx : Context) (lines : List Line) : Parser (Bool × Rest lines) := do
  skipLeading
  advance
  skipWhitespace
  if (← kind?).any TokenKind.isConditional then
    let rest ← conditional ctx lines
    return (true, rest)
  else
    endOfLine
    let ⟨rest, h⟩ ← within ctx.branch (branch ctx lines)
    return (false, ⟨rest, by omega⟩)
termination_by (lines.length, 2)

def recipeItem (line : Line) (lines : List Line) : Parser (Rest lines) := do
  match LineKind.ofLine line with
  | .recipe => oneLine lines recipeLine
  | .blank => oneLine lines blankLine
  | .comment => oneLine lines commentLine
  | .keyword (.conditional _) => conditional .recipe lines
  | _ =>
    failAt (Line.afterLeading line)
      [.token .recipePrefix, .token (.keyword .otherwise), .token (.keyword .endif)]
termination_by (lines.length, 3)

/-- The lines of a branch. The line that ends it becomes the current line. -/
def branch (ctx : Context) :
    (lines : List Line) → Parser { rest : List Line // rest.length < lines.length }
  | [] => throw (.unexpectedEnd [.token (.keyword .otherwise), .token (.keyword .endif)])
  | line :: lines => do
    load line
    if (ctx.closing? line).isSome then return ⟨lines, by simp⟩
    else
      let ⟨rest, h⟩ ← (match ctx with
        | .statements => statement lines
        | .recipe => recipeItem line lines)
      let ⟨after, h'⟩ ← branch ctx rest
      return ⟨after, by simp only [List.length_cons]; omega⟩
termination_by lines => (lines.length, 0)

def recipes : (lines : List Line) → Parser (Rest lines)
  | [] => return .all []
  | line :: lines => do
    if Line.continuesRecipe (line :: lines) then
      load line
      let ⟨rest, h⟩ ← recipeItem line lines
      let ⟨after, h'⟩ ← recipes rest
      return ⟨after, by simp only [List.length_cons]; omega⟩
    else return .all (line :: lines)
termination_by lines => (lines.length, 0)

end

def statements : List Line → Parser Unit
  | [] => return ()
  | line :: lines => do
    load line
    let ⟨rest, _⟩ ← statement lines
    statements rest
termination_by lines => lines.length

end Parser

end MakeTree
