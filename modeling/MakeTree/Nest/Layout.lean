import MakeTree.Nest.Basic

/-!
The trees of nests. An expansion is laid out as its opener, a name, blanks, arguments separated
by commas, and its closer; blanks and commas within literal parentheses separate nothing.
-/

namespace MakeTree

/-- What a nest means to the expansion around it. -/
inductive Mark where
  | blank
  | comma
  | opens
  | closes
  | other
deriving DecidableEq, Repr

def Mark.ofToken (t : Token) : Mark :=
  if t.kind = .whitespace then blank
  else if t.kind = .comma then comma
  else if t.isText ['('] then opens
  else if t.isText [')'] || t.isText ['}'] then closes
  else other

/-- The number of literal parentheses open after the mark. -/
def Mark.depth : Mark → Nat → Nat
  | opens, depth => depth + 1
  | closes, depth => depth - 1
  | _, depth => depth

/-- The trees of one nest, marked. -/
structure Part where
  mark : Mark
  trees : List Tree

namespace Part

def treesOf (ps : List Part) : List Tree := ps.flatMap trees

/-- The name, which ends at the first blank outside literal parentheses, and what follows it. -/
def splitName (depth : Nat) : List Part → List Part × List Part
  | [] => ([], [])
  | p :: ps =>
    if p.mark = .blank ∧ depth = 0 then ([], p :: ps)
    else
      let (name, rest) := splitName (p.mark.depth depth) ps
      (p :: name, rest)

/-- Arguments and the commas between them; `argument` holds what the first one has so far. -/
def arguments (depth : Nat) (argument : List Tree) : List Part → List Tree
  | [] => [.node .expression argument]
  | p :: ps =>
    if p.mark = .comma ∧ depth = 0 then
      .node .expression argument :: (p.trees ++ arguments 0 [] ps)
    else arguments (p.mark.depth depth) (argument ++ p.trees) ps

/-- What stands between the brackets of an expansion. -/
def layout (ps : List Part) : List Tree :=
  let (name, rest) := splitName 0 ps
  let blanks := rest.takeWhile (·.mark == .blank)
  let args := rest.drop blanks.length
  .node .expression (treesOf name) ::
    (treesOf blanks ++ if args.isEmpty then [] else arguments 0 [] args)

end Part

namespace Lexeme

/-- The opening quote of a literal, after what leads it. -/
def openQuote (x : Lexeme) : List Tree :=
  x.leading.map Trivia.tree ++ [.leaf .quote (x.token.text.take 1)]

def closeQuote (x : Lexeme) : Tree :=
  .leaf .quote (x.token.text.drop (x.token.text.length - 1))

end Lexeme

namespace Nest

mutual

def trees : Nest → List Tree
  | leaf x => x.trees
  | quoted x inside trailing =>
    x.openQuote ++ Part.treesOf (parts inside) ++ trailing.map Trivia.tree ++ [x.closeQuote]
  | raw x => x.leaves
  | expansion opener body closer =>
    [.node .expansion (opener.leaves ++ Part.layout (parts body) ++ closer.leaves)]

def parts : List Nest → List Part
  | [] => []
  | n :: ns => ⟨.ofToken n.token, n.trees⟩ :: parts ns

end

/-- The trees of nests in a row. -/
def treesOf (ns : List Nest) : List Tree := Part.treesOf (parts ns)

end Nest

end MakeTree
