import Mathlib
import MakeTree.Proofs.DefinitionBody
import MakeTree.Proofs.Grammar.DefinitionHead
import MakeTree.Proofs.Reached

/-!
How far a definition goes (`parse_definition_extent`). The row that ends it is the first of the form
of an `endef` in front of which as many rows open a definition as have that form. The tokens between
its first row and that are its body, but for the last line break.
-/

namespace MakeTree

theorem Nest.accounts_dropLast {start : Nat} {ns : List Nest} (h : Seated start ns)
    (hs : SoundAll ns) (hl : EndLine ns) : Accounts .expression start (treesOf ns.dropLast)
      ((flattenAll ns).dropLast.map token) := by
  rcases List.eq_nil_or_concat' ns with rfl | ⟨ms, n, rfl⟩
  · exact .nil
  · have hn := flatten_of_isLineBreak (soundAll_iff.1 hs n (by simp)) (hl n (by simp))
    have hflat : flattenAll (ms ++ [n]) = flattenAll ms ++ [n] := by
      rw [flattenAll_append, flattenAll, hn]
      rfl
    have hread : Reading (fun _ => True) .expression (flattenAll ms) (treesOf ms) :=
      reading_treesOf trivial trivial ms (by decide)
    rw [List.dropLast_concat, hflat, List.dropLast_concat]
    exact hread.accounts_flattenAll h.split.1

/-- The rows of a definition: its first line, those of its body and the one that closes it. -/
theorem Line.rows_definition {line closing : Line} {ls used rest : List Line} {count : Nat}
    (hl : Lexed (line :: ls)) (hs : ∀ n ∈ line, Parser.Solid n) (hu : ls = used ++ rest)
    (hr : rows ls = rows (ls.take count) ++ closing :: rows rest) :
    rows (line :: used) = Nest.flattenAll line :: (rows (ls.take count) ++ [closing]) := by
  have hl : Lexed ((line :: used) ++ rest) := by rwa [List.cons_append, ← hu]
  have happend : rows used ++ rows rest = (rows (ls.take count) ++ [closing]) ++ rows rest := by
    rw [← rows_append hl.tail.cut hl.left.tail.closed, ← hu, hr, List.append_assoc,
      List.singleton_append]
  rw [rows_cons_solid hl.left.cut hl.left.closed_head hs,
    List.append_cancel_right happend]

namespace Lexer

variable {text : Text} {c : Char} {strict : Bool}

theorem led_rows (lx : Lexer) : ∀ row ∈ lx.rows, row.Led := by
  refine Line.led_of_mem (Line.cut_split _) ?_
  show (Line.rows lx.lines).flatten.IsChain _
  rw [Line.flatten_rows, flatten_lines]
  exact Nest.prefixesLead_nests lx

theorem led_rows_suffix (hu : (start text c).unclosed? = none) {lines : List Line}
    (hs : lines <:+ (start text c).lines) : ∀ row ∈ Line.rows lines, row.Led := by
  obtain ⟨before, hb⟩ := hs
  have hlexed := lexed_lines hu
  rw [← hb] at hlexed
  intro row hrow
  refine led_rows (start text c) row ?_
  rw [rows, ← hb, Line.rows_append hlexed.cut hlexed.left.closed]
  exact List.mem_append_right _ hrow

/-- A definition of a text is its first row, those of its body and the row that closes them. -/
theorem result_definition_extent {t : Tree} (h : (start text c).result strict = .ok t) {p : Placed}
    (hp : p ∈ t.subtrees) {d : Definition} (hd : p.tree = d.tree) :
    ∃ before head body closing after,
      (start text c).Occupies p before (head :: (body ++ [closing])) after ∧
      Line.ClosedBy 0 body closing ∧ ∃ b : Expression, d.body? = some b ∧
        Accounts .expression (p.start + (Nest.textOf head).byteSize) b.children
          (body.flatten.dropLast.map Nest.token) := by
  have hk : p.tree.kind = .node .definition := by rw [hd]; rfl
  have hu := (refusal_eq_none.1 (result_ok h).1).2
  obtain ⟨line, ls, rest, ⟨before, hb⟩, hseat, hparses⟩ := statementAt_of_kind h hp hk (.inr rfl)
  have hsheet := sheet_lines hu
  have hlexed := lexed_lines hu
  have hled := led_rows_suffix hu ((List.suffix_cons line ls).trans ⟨before, hb⟩)
  rw [← hb] at hsheet hlexed
  have hls : Line.Lexed (line :: ls) := hlexed.right
  have hline := hls.good_head
  obtain ⟨used, hused, hocc⟩ := occupies_statement hu hb.symm hseat hparses
  obtain ⟨us⟩ := d
  rw [hd] at hparses
  obtain ⟨hhead, hdr, te, count, rfl, ht, he, rfl⟩ := hparses.definition_extent hline
  obtain ⟨name, hname⟩ := hhead.name (hsheet.below line (by simp)) ht
  obtain ⟨closing, hrows, hclosed⟩ := Line.closedBy_of_endef? hls.tail hled he
  rw [Line.rows_definition hls (hhead.solid hline) hused hrows] at hocc
  refine ⟨_, _, _, _, _, hocc, hclosed, _, Node.body?_eq _ hname, ?_⟩
  -- the body starts where the first line ends
  have hflat : (line :: ls).flatten =
      line ++ ((ls.take count).flatten ++ (ls.drop count).flatten) := by
    rw [List.flatten_cons, ← List.flatten_append, List.take_append_drop]
  have hsound := hsheet.sound
  rw [List.flatten_append, hflat] at hsound
  rw [hflat] at hseat
  rw [Line.flatten_rows, Nest.textOf_flattenAll hseat.split.1]
  refine Nest.accounts_dropLast hseat.split.2.split.1 (Nest.soundAll_iff.2 fun n hn => ?_)
    (Parser.ended_take hls.tail.cut (Line.endef?_lt he))
  exact Nest.soundAll_iff.1 hsound n (by simp only [List.mem_append]; exact .inr (.inr (.inl hn)))

end Lexer

/-- A definition ends with the first row that has the form of an `endef`, on which nothing but a
comment stands behind that, where as many of the rows between open a definition as have that form.
Where the parser comes to the first line of a definition, it goes up to that row, or, if there is
none, refuses the text at its end. In a text that is parsed, a definition is its first row, those up
to that one and that one; its body holds the tokens in between, but for the last line break. -/
theorem parse_definition_extent (text : Text) (options : Options) :
    ((Lexer.start text options.recipePrefix).refusal options.strict = none → ∀ line lines,
      (Lexer.start text options.recipePrefix).Reaches (.statement line) lines →
      Parser.DefinitionHead line →
        (∀ body closing after, Line.rows lines = body ++ closing :: after →
          Line.ClosedBy 0 body closing → ∃ us rest,
            Parser.TakesRest (Parser.statement lines) line rest [] [.node .definition us] ∧
            Line.rows rest = after) ∧
        ((∀ body closing after, Line.rows lines = body ++ closing :: after →
          ¬ Line.ClosedBy 0 body closing) →
            (parse text options).result =
              .error (.parse (.unexpectedEnd [.token (.keyword .endef)])))) ∧
    ∀ t, (parse text options).result = .ok t → ∀ p ∈ t.subtrees, ∀ d : Definition,
      p.tree = d.tree → ∃ before head body closing after,
        (Lexer.start text options.recipePrefix).Occupies p before (head :: (body ++ [closing]))
          after ∧
        Line.ClosedBy 0 body closing ∧ ∃ b : Expression, d.body? = some b ∧
          Accounts .expression (p.start + (Nest.textOf head).byteSize) b.children
            (body.flatten.dropLast.map Nest.token) := by
  constructor
  · intro hr line lines hreach hhead
    have hu := (Lexer.refusal_eq_none.1 hr).2
    have hbelow : line :: lines <:+ (Lexer.start text options.recipePrefix).lines := hreach.on
    have hsuffix := (List.suffix_cons line lines).trans hbelow
    have hlexed := (Lexer.lexed_lines hu).suffix hsuffix
    have hled := Lexer.led_rows_suffix hu hsuffix
    constructor
    · intro body closing after hs hb
      exact hhead.takes hlexed hled hs hb
    · intro hno
      rw [parse_result_start]
      exact hreach.result hr (hhead.fails hlexed hled hno)
  · intro t h p hp d hd
    rw [parse_result_start] at h
    exact Lexer.result_definition_extent h hp hd

/-- With a definition that no row closes, and with one inside another. -/
theorem parse_definition_extent_nested :
    (parse "define A\n".toList {}).result =
      .error (.parse (.unexpectedEnd [.token (.keyword .endef)])) ∧
    ∃ (t : Tree) (p : Placed) (d : Definition),
      (parse "define A\ndefine B\nendef\nendef\n".toList {}).result = .ok t ∧ p ∈ t.subtrees ∧
      p.tree = d.tree ∧ ∃ before head body closing after,
        (Lexer.start "define A\ndefine B\nendef\nendef\n".toList '\t').Occupies p before
          (head :: (body ++ [closing])) after ∧
        Line.ClosedBy 0 body closing ∧ ∃ b : Expression, d.body? = some b ∧
          Accounts .expression (p.start + (Nest.textOf head).byteSize) b.children
            (body.flatten.dropLast.map Nest.token) := by
  constructor
  · let piece (kind : TokenKind) (s : Text) (p : Position) : Nest := .leaf ⟨[], ⟨kind, s, p⟩⟩
    let line : Line := [piece (.keyword .define) "define".toList ⟨1, 1, 0⟩,
      piece .whitespace [' '] ⟨1, 7, 6⟩, piece .plainText ['A'] ⟨1, 8, 7⟩,
      piece .lineBreak ['\n'] ⟨1, 9, 8⟩]
    have hr : (Lexer.start "define A\n".toList '\t').refusal false = none := by cbv
    have hl : (Lexer.start "define A\n".toList '\t').lines = [line] := by cbv
    have hreach : (Lexer.start "define A\n".toList '\t').Reaches (.statement line) [] := by
      rw [Lexer.Reaches, hl]
      exact .tail .refl .statement
    have hok : Parser.definitionHeader ⟨line, [], []⟩ = .ok () ⟨[],
        [.leaf (.token (.keyword .define)) "define".toList, .leaf (.token .whitespace) [' '],
          .node .expression [.leaf (.token .plainText) ['A']],
          .leaf (.token .lineBreak) ['\n']], []⟩ := by cbv
    obtain ⟨hd, -, ht⟩ := Parser.takes_of_ok Parser.uniform_definitionHeader hok
    have hhead : Parser.DefinitionHead line := ⟨⟨_, _, rfl, rfl⟩, hd, ht⟩
    have hrows : Line.rows [] = [] := rfl
    refine ((parse_definition_extent _ {}).1 hr line [] hreach hhead).2 ?_
    intro body closing after hs
    rw [hrows] at hs
    exact absurd hs.symm (by simp)
  · let d : Definition := ⟨[.leaf (.token (.keyword .define)) "define".toList,
      .leaf (.token .whitespace) [' '], .node .expression [.leaf (.token .plainText) ['A']],
      .leaf (.token .lineBreak) ['\n'],
      .node .expression [.leaf (.token (.keyword .define)) "define".toList,
        .leaf (.token .whitespace) [' '], .leaf (.token .plainText) ['B'],
        .leaf (.token .lineBreak) ['\n'], .leaf (.token (.keyword .endef)) "endef".toList],
      .leaf (.token .lineBreak) ['\n'], .leaf (.token (.keyword .endef)) "endef".toList,
      .leaf (.token .lineBreak) ['\n']]⟩
    have h : (parse "define A\ndefine B\nendef\nendef\n".toList {}).result =
      .ok (.node .root [d.tree]) := by cbv
    have hp : (⟨1, 0, d.tree⟩ : Placed) ∈ (Tree.node .root [d.tree]).subtrees :=
      List.mem_cons_of_mem _ List.mem_cons_self
    exact ⟨_, _, d, h, hp, rfl, (parse_definition_extent _ {}).2 _ h _ hp d rfl⟩

end MakeTree
