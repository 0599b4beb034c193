import MakeTree.Proofs.Grammar.Rows
import MakeTree.Proofs.StatementLocality
import MakeTree.Proofs.TokenFidelity

/-!
Which lines of a text a statement takes up. The rows of a text are its lines, cut at every line
break, also within expansions; together they are the tokens (`Lexer.tokens_rows`). A statement takes
up some of them from where it stands, and its leaves spell their tokens (`Lexer.Occupies`).
-/

namespace MakeTree

namespace Nest

theorem textOf_flattenAll {start : Nat} {ns : List Nest} (h : Seated start ns) :
    textOf (flattenAll ns) = textOf ns := by
  obtain ⟨xs, hx, -⟩ := h
  rw [textOf, textOf, flattenAll_eq_self fun n hn => ?_]
  obtain ⟨x, -, rfl⟩ := List.mem_map.1 (hx ▸ hn)
  exact (isFlat_ofLexeme x).flatten

end Nest

theorem Reading.accounts_flattenAll {P : NodeKind → Prop} {k : NodeKind} {ns : List Nest}
    {ts : List Tree} (h : Reading P k (Nest.flattenAll ns) ts) {start : Nat}
    (hs : Nest.Seated start ns) : Accounts k start ts ((Nest.flattenAll ns).map Nest.token) := by
  obtain ⟨xs, hx, hxs⟩ := hs
  rw [← hx, Nest.map_token_ofLexeme]
  exact h.accounts hx.symm hxs

namespace Lexer

def rows (lx : Lexer) : List Line := Line.rows lx.lines

theorem tokens_rows (lx : Lexer) : lx.rows.flatten.map Nest.token = lx.tokens := by
  rw [rows, Line.flatten_rows, flatten_lines,
    (lexemes_of_nests (Prod.ext rfl rfl : lx.nests = (lx.nests.1, lx.nests.2))).1,
    Nest.map_token_ofLexeme, tokens, ← Piece.lexemes_token []]
  rfl

theorem lexed_lines {text : Text} {c : Char} (h : (start text c).unclosed? = none) :
    Line.Lexed (start text c).lines where
  cut := cut_lines _
  sound := flatten_lines (start text c) ▸ soundAll_nests h rfl
  plain := flatten_lines (start text c) ▸ plain_start h
  comments := flatten_lines (start text c) ▸ Nest.commentsEnd_nests _

/-- The tree at a place takes up the rows `taken` of the text: it starts where they do and has their
text, and it spells their tokens. -/
structure Occupies (lx : Lexer) (p : Placed) (before taken after : List Line) : Prop where
  rows : lx.rows = before ++ (taken ++ after)
  start : p.start = (Nest.textOf before.flatten).byteSize
  text : p.tree.text = Nest.textOf taken.flatten
  spells : Spells (taken.flatten.map Nest.token)
    ((p.tree.spots .root p.start).filter Spot.ofToken)

theorem occupies {text : Text} {c : Char} (hu : (Lexer.start text c).unclosed? = none) {p : Placed}
    {before mine after : List Line}
    (hl : (Lexer.start text c).lines = before ++ (mine ++ after)) (hne : mine ≠ [])
    (hs : Nest.Seated p.start (mine ++ after).flatten) (hp : Parser.Spans mine.flatten [p.tree]) :
    (Lexer.start text c).Occupies p (Line.rows before) (Line.rows mine) (Line.rows after) := by
  have hlexed := lexed_lines hu
  have hseat := seated_lines text c
  rw [hl] at hlexed hseat
  have hread := hp .root (by decide)
  rw [List.flatten_append] at hs hseat
  have hseat' := hseat.split.2
  rw [List.flatten_append] at hseat'
  have hmine : mine.flatten ≠ [] := (hlexed.right.left).cut.flatten_ne_nil hne
  have hstart := hs.unique hseat' (by simp [hmine])
  constructor
  · rw [rows, hl, Line.rows_append hlexed.cut hlexed.left.closed,
      Line.rows_append hlexed.right.cut hlexed.right.left.closed]
  · rw [Line.flatten_rows, Nest.textOf_flattenAll hseat.split.1, hstart, Nat.zero_add]
  · rw [Line.flatten_rows, Nest.textOf_flattenAll hs.split.1, ← hread.textOf hs.split.1,
      Tree.textOf, Tree.textOf, List.append_nil]
  · have hspots : Tree.spotsOf .root p.start [p.tree] = p.tree.spots .root p.start :=
      List.append_nil _
    rw [Line.flatten_rows, ← hspots]
    exact (hread.accounts_flattenAll hs.split.1).spells

/-- A statement takes up the rows of its lines. -/
theorem occupies_statement {text : Text} {c : Char} (hu : (Lexer.start text c).unclosed? = none)
    {p : Placed} {line : Line} {before ls rest : List Line}
    (hl : (Lexer.start text c).lines = before ++ line :: ls)
    (hs : Nest.Seated p.start (line :: ls).flatten)
    (h : Parser.Parses (.statement line) ls [p.tree] rest) : ∃ used, ls = used ++ rest ∧
      (Lexer.start text c).Occupies p (Line.rows before) (Line.rows (line :: used))
        (Line.rows rest) := by
  obtain ⟨used, rfl, hspan⟩ := h.extent
  rw [← List.cons_append] at hl hs
  exact ⟨used, rfl, occupies hu hl (by simp) hs hspan⟩

end Lexer

end MakeTree
