import Mathlib
import MakeTree.Proofs.Grammar.Landmarks
import MakeTree.Proofs.Reached
import MakeTree.Proofs.TreeGrammar

/-!
What tells a statement. Unless it starts with a comment or a keyword, a statement is what the first
colon or assignment operator on its line says, and that is also the one its parser comes to
(`parse_dispatch`). So a colon or an operator that was looked for is never missing.
-/

namespace MakeTree

open MakeTree.Tree

/-- The first child of the kind, with its place. -/
def Placed.first? (p : Placed) (k : Kind) : Option Placed := p.parts.find? (·.tree.kind == k)

namespace Parser

/-- What a statement is whose line starts with neither a comment nor a keyword. -/
inductive Parted (line : Line) : NodeKind → List Tree → Prop
  | rule {continues : Bool} {hd : List Tree} (ts : List Tree)
      (hs : Line.separator? line = some .colon) (h : Takes ruleHeader line continues [] hd) :
      Parted line .rule (hd ++ ts)
  | assignment {t : TokenKind} {us : List Tree} (hs : Line.separator? line = some t)
      (ht : t ≠ .colon) (h : Takes assignment line () [] [.node .assignment us]) :
      Parted line .assignment us
  | functionLine {us : List Tree} (hs : Line.separator? line = none)
      (h : Takes functionLine line () [] [.node .functionLine us]) : Parted line .functionLine us

section Parted

variable {line ns : Line} {n : Nest} {lines rest : List Line} {k : NodeKind} {us : List Tree}

theorem statement_eq_separated (ha : Line.afterLeading line = n :: ns) (h₁ : n.kind ≠ .lineBreak)
    (h₂ : n.kind ≠ .comment) (h₃ : ∀ w, n.kind ≠ .keyword w) {outer : List Tree}
    {es : List Event} : statement lines ⟨line, outer, es⟩ = (match Line.separator? (n :: ns) with
      | some .colon => Parser.rule lines
      | some _ => oneLine lines assignment
      | none =>
        if Line.startsExpansion n then oneLine lines functionLine
        else failAt (n :: ns) [.token .colon, .token .assignOp])
      ⟨line, outer, es ++ [Event.statement n.kind]⟩ := by
  rw [statement_eq_of_cons lines ha]
  cases hk : n.kind with
  | lineBreak => exact absurd hk h₁
  | comment => exact absurd hk h₂
  | keyword w => exact absurd hk (h₃ w)
  | _ => rfl

theorem takes_of_oneLine {p : Parser Unit} {r : Rest lines} {es : List Event} {s : Cursor}
    (hu : Uniform p)
    (hc : ∀ k, k ≠ .condition → Consumes (HeldBy k) p line (fun _ ms => ms = []))
    (hn : Nest.ClosedAll line) (h : oneLine lines p ⟨line, [], es⟩ = .ok r s) :
    Takes p line () [] s.built := by
  obtain ⟨_, s', h', hr⟩ := bind_ok h
  cases hr
  obtain ⟨ts, -, hb, ht, -⟩ := line_ok hu hc hn h'
  rwa [hb]

/-- A statement is told by what parts its line. -/
theorem Parses.parted (hl : line.Good) (hg : GoodLines lines)
    (ha : Line.afterLeading line = n :: ns) (h₁ : n.kind ≠ .lineBreak) (h₂ : n.kind ≠ .comment)
    (h₃ : ∀ w, n.kind ≠ .keyword w) (h : Parses (.statement line) lines [.node k us] rest) :
    Parted line k us := by
  have hsep : Line.separator? (n :: ns) = Line.separator? line := by
    rw [← ha, Line.separator?_afterLeading hl.closed]
  obtain ⟨r, -, hrun⟩ : TakesRest (statement lines) line rest [] [.node k us] := h.runs
  obtain ⟨es, hrun⟩ := hrun [] []
  rw [statement_eq_separated ha h₁ h₂ h₃, hsep] at hrun
  cases hs : Line.separator? line with
  | none =>
    rw [hs] at hrun
    simp only at hrun
    split at hrun
    · obtain rfl := kind_of_oneLine hrun rfl
      exact .functionLine hs (takes_of_oneLine sim_functionLine
        (fun _ _ => consumes_functionLine reads_held hl.single) hl.closed hrun)
    · cases hrun
  | some t =>
    rw [hs] at hrun
    have assigned (ht : t ≠ .colon)
        (hrun : oneLine lines assignment ⟨line, [], [] ++ [Event.statement n.kind]⟩ =
          .ok r ⟨[], [] ++ [.node k us], es⟩) : Parted line k us := by
      obtain rfl := kind_of_oneLine hrun rfl
      exact .assignment hs ht (takes_of_oneLine sim_assignment
        (fun _ _ => consumes_assignment reads_held hl.single) hl.closed hrun)
    cases t with
    | colon =>
      obtain rfl := kind_of_within hrun rfl
      obtain ⟨-, continues, hd, ts, rfl, ht, -⟩ := h.rule_parts hl hg
      exact .rule ts hs ht
    | _ => exact assigned (by simp) hrun

theorem Parted.solid (h : Parted line k us) (hl : line.Good) : ∀ m ∈ line, Solid m := by
  cases h with
  | rule ts hs h =>
    exact solid_of_line (consumes_ruleHeader reads_solid hl.single (k := .root)) hl.closed h
  | assignment hs ht h =>
    exact solid_of_line (consumes_assignment reads_solid hl.single (k := .root)) hl.closed h
  | functionLine hs h =>
    exact solid_of_line (consumes_functionLine reads_solid hl.single (k := .root)) hl.closed h

theorem Parted.separator?_eq (h : Parted line k us) (hl : line.Good) {t : TokenKind} :
    Line.separator? line = some t ↔
      ∃ vs n, Line.SeparatedBy (Nest.flattenAll line) vs n ∧ n.kind = t := by
  rw [Line.separator?_eq_some hl.single (h.solid hl)]
  constructor
  · rintro ⟨ms, n, hp, rfl⟩
    exact ⟨_, n, (Line.separatedBy_flattenAll hl.closed).2 ⟨ms, rfl, hp⟩, rfl⟩
  · rintro ⟨vs, n, hs, rfl⟩
    obtain ⟨ms, -, hp⟩ := (Line.separatedBy_flattenAll hl.closed).1 hs
    exact ⟨ms, n, hp, rfl⟩

/-- A statement is a rule where a colon parts its line, an assignment where an operator does, and
else a call. -/
theorem Parted.kind_iff (h : Parted line k us) (hl : line.Good) :
    (k = .rule ↔ ∃ vs n, Line.SeparatedBy (Nest.flattenAll line) vs n ∧ n.kind = .colon) ∧
      (k = .assignment ↔
        ∃ vs n, Line.SeparatedBy (Nest.flattenAll line) vs n ∧ n.kind = .assignOp) ∧
      (k = .functionLine ↔ ¬ ∃ vs n, Line.SeparatedBy (Nest.flattenAll line) vs n) := by
  have hsep {t : TokenKind} := h.separator?_eq hl (t := t)
  have hany : (∃ vs n, Line.SeparatedBy (Nest.flattenAll line) vs n) ↔
      (Line.separator? line).isSome = true := by
    rw [Option.isSome_iff_exists]
    constructor
    · rintro ⟨vs, n, hs⟩
      exact ⟨n.kind, hsep.2 ⟨vs, n, hs, rfl⟩⟩
    · rintro ⟨t, ht⟩
      obtain ⟨vs, n, hs, -⟩ := hsep.1 ht
      exact ⟨vs, n, hs⟩
  rw [← hsep, ← hsep, hany]
  cases h with
  | rule ts hs h => simp [hs]
  | assignment hs ht h =>
    obtain ⟨vs, n, hn, rfl⟩ := hsep.1 hs
    have hk := (Nest.kind_of_isSeparator hn.separator).resolve_left ht
    simp [hs, hk]
  | functionLine hs h => simp [hs]

theorem Parted.reveals (h : Parted line k us) (hl : Line.Sound line) (hc : Nest.ClosedAll line)
    (hi : ∀ m ∈ (Line.afterLeading line).head?, isIntro m = false) {ms : Line}
    (hp : line.PartedBy ms n) : Reveals k ms n us := by
  have hu := clear_of_partedBy hp hl.single
  have hsep := (Line.separator?_eq_some hl.single (h.solid ⟨hl.single, hc⟩)).2 ⟨ms, n, hp, rfl⟩
  obtain ⟨ls, rfl⟩ := hp.split
  cases h with
  | @rule continues hd ts hs h =>
    have hn : n.isColon = true := by
      rw [hsep, Option.some.injEq] at hs
      simp [Nest.isColon, hs]
    obtain ⟨es, h⟩ := h [] []
    obtain ⟨vs, ws, hns, hb, pre, post, rfl, hlaid, hm⟩ := shows_ruleHeader hu hn hl _ _ _ _ h
    obtain rfl := List.append_cancel_right hns
    obtain rfl : hd = _ := hb
    refine ⟨pre, post ++ ts, ?_, hlaid, hm⟩
    simp only [List.nil_append, List.append_assoc]
  | @assignment t us hs ht h =>
    have hn : n.isAssignOp = true := by
      rw [hsep, Option.some.injEq] at hs
      have hk := (Nest.kind_of_isSeparator hp.separator).resolve_left (hs ▸ ht)
      simp [Nest.isAssignOp, hk]
    obtain ⟨es, h⟩ := h [] []
    obtain ⟨ts, hb, hts⟩ := assignment_shows hl hu hn hi h
    obtain ⟨-, rfl⟩ := Tree.node.inj (List.cons.inj hb).1
    exact hts
  | functionLine hs h =>
    rw [hsep] at hs
    cases hs

end Parted

end Parser

theorem Placed.first?_of_reveals {p : Placed} {j k : NodeKind} {ts : List Tree} {us ls : List Nest}
    {n : Nest} (ht : p.tree = .node j ts) (hs : Nest.Seated p.start (us ++ n :: ls))
    (hn : n.flatten = [n]) (h : Parser.Reveals k us n ts) : p.first? (.leaf (.token n.kind)) =
      some ⟨p.depth + 1, n.token.position.offset, .leaf (.token n.kind) n.token.text⟩ := by
  obtain ⟨pre, post, rfl, hlaid, hm⟩ := h
  have hpre : (textOf pre).byteSize = (Nest.textOf us).byteSize := by
    rw [hlaid.reading.textOf hs.split.1]
  have hoffset : n.token.position.offset =
      p.start + (Nest.textOf us).byteSize + (Trivia.textOf n.first.leading).byteSize := by
    obtain ⟨xs, hx, hseat⟩ := hs.split.2
    rw [Nest.flattenAll, hn, List.singleton_append] at hx
    obtain ⟨x, xs, rfl, rfl, -⟩ := List.map_eq_cons_iff.1 hx
    rw [Nest.token, Nest.first_ofLexeme]
    exact hseat.1.offset
  have behind {q : Placed} {us : List Tree} {depth start : Nat}
      (hq : q ∈ seats depth start us) : q.tree ∈ us := by
    rw [← map_tree_seats depth start us]
    exact List.mem_map_of_mem hq
  rw [first?, parts, ht, children, seats_append, List.find?_append, List.find?_eq_none.2,
    Option.none_or, Lexeme.leaves, List.append_assoc, seats_append, List.find?_append,
    List.find?_eq_none.2, Option.none_or, List.singleton_append, seats, List.find?_cons_of_pos]
  · rw [hpre, Lexeme.textOf_trivia, hoffset]
    rfl
  · exact beq_self_eq_true _
  · intro q hq hk
    obtain ⟨v, -, hv⟩ := List.mem_map.1 (behind hq)
    rw [← hv] at hk
    cases v <;> cases hk
  · intro q hq hk
    have hmem := behind hq
    generalize q.tree = u at hk hmem
    cases u with
    | leaf l s =>
      have hl : l = .token n.kind := by simpa [kind] using hk
      subst hl
      exact hm s (List.mem_filterMap.2 ⟨_, hmem, rfl⟩)
    | node => cases hk

namespace Line

/-- The line starts with neither a comment nor a keyword. -/
def Plain (line : Line) : Prop :=
  ∀ n ∈ (afterLeading line).head?, n.kind ≠ .comment ∧ ∀ w, n.kind ≠ .keyword w

/-- The node `p` of kind `k` is what the first separator of the row tells, which is its first child
of that kind. -/
structure Tells (row : Line) (k : NodeKind) (p : Placed) : Prop where
  rule : k = .rule ↔ ∃ us n, row.SeparatedBy us n ∧ n.kind = .colon
  assignment : k = .assignment ↔ ∃ us n, row.SeparatedBy us n ∧ n.kind = .assignOp
  functionLine : k = .functionLine ↔ ¬ ∃ us n, row.SeparatedBy us n
  child : ∀ us n, row.SeparatedBy us n → p.first? (.leaf (.token n.kind)) =
    some ⟨p.depth + 1, n.token.position.offset, .leaf (.token n.kind) n.token.text⟩

theorem head?_afterLeading_split {ns : List Nest} {line : Line} {lines : List Line}
    (h : split ns = line :: lines) : (afterLeading line).head? = (afterLeading ns).head? := by
  rcases split_cases h with ⟨hl, ms, rfl, -⟩ | ⟨-, -, rfl⟩
  · have hne := LineKind.afterLeading_ne_nil hl
    rw [afterLeading_append hne, List.head?_append_of_ne_nil _ hne]
  · rfl

theorem plain_congr {line line' : Line} (h : (afterLeading line).head?.map Nest.kind =
    (afterLeading line').head?.map Nest.kind) (hp : line.Plain) : line'.Plain := by
  intro n hn
  rw [Option.mem_def.1 hn, Option.map_some] at h
  obtain ⟨m, hm, hk⟩ := Option.map_eq_some_iff.1 h
  exact hk ▸ hp m hm

theorem plain_of_row {line row : Line} {rest : List Line} (hc : Nest.ClosedAll line)
    (h : rows [line] = row :: rest) (hp : row.Plain) : line.Plain := by
  rw [rows, List.flatten_singleton] at h
  refine plain_congr ?_ hp
  rw [head?_afterLeading_split h, afterLeading, afterLeading,
    Nest.dropWhile_flattenAll (p := TokenKind.isLeading) rfl hc, Nest.head_flattenAll]

end Line

namespace Parser

/-- A statement of a text, on a line that starts with neither a comment nor a keyword, is what the
first separator of the line tells. -/
theorem Parses.tells {line : Line} {lines rest : List Line} {k : NodeKind} {us : List Tree}
    {p : Placed} (hs : Line.Sound line) (hg : GoodLines (line :: lines))
    (hk : k ∈ NodeKind.statements) (hp : line.Plain) (ht : p.tree = .node k us)
    (hseat : Nest.Seated p.start line) (h : Parses (.statement line) lines [.node k us] rest) :
    (∀ n ∈ line, Solid n) ∧ Line.Tells (Nest.flattenAll line) k p := by
  have hl := hg line List.mem_cons_self
  have hkinds := h.mem_statementKinds hl
  cases ha : Line.afterLeading line with
  | nil =>
    rw [Line.statementKinds, ha] at hkinds
    cases hkinds
  | cons n ns =>
    have hlead : n.kind.isLeading = false := head_dropWhile rfl ha
    obtain ⟨hcomment, hword⟩ := hp n (by simp [ha])
    have hbreak : n.kind ≠ .lineBreak := by
      intro hb
      rw [Line.statementKinds, ha] at hkinds
      simp only [hb, List.mem_singleton] at hkinds
      subst hkinds
      revert hk
      decide
    have hparted := h.parted hl (hg.suffix (List.suffix_cons _ _)) ha hbreak hcomment hword
    have hintro : ∀ m ∈ (Line.afterLeading line).head?, isIntro m = false := by
      intro m hm
      rw [ha, List.head?_cons, Option.mem_some_iff] at hm
      subst hm
      have hw := not_isWhitespace_of_not_isLeading hlead
      cases hsp : n.kind.specifier? with
      | none => simp [isIntro, Line.isSpecifier, hsp, hw]
      | some t =>
        unfold TokenKind.specifier? at hsp
        split at hsp
        · next hk' => exact absurd hk' (hword _)
        · cases hsp
    obtain ⟨hrule, hassign, hcall⟩ := hparted.kind_iff hl
    refine ⟨hparted.solid hl, hrule, hassign, hcall, fun vs m hsep => ?_⟩
    obtain ⟨ms, -, hpart⟩ := (Line.separatedBy_flattenAll hl.closed).1 hsep
    have hreveals := hparted.reveals hs hl.closed hintro hpart
    obtain ⟨ls, rfl⟩ := hpart.split
    refine Placed.first?_of_reveals ht hseat ?_ hreveals
    exact Nest.flatten_of_endsSearch (Nest.closedAll_append.1 hl.closed).2.1
      (Nest.endsSearch_of_isSeparator hpart.separator)

end Parser

namespace Lexer

/-- Where the parser of a text comes to an assignment: on a line with an operator, behind specifiers
that need none or have one behind them, and behind the colon of a rule. -/
inductive ReachesAssignment (lx : Lexer) : Line → Prop
  | line {line ns : Line} {lines : List Line} {n : Nest} {t : TokenKind}
      (h : lx.Reaches (.statement line) lines) (ha : Line.afterLeading line = n :: ns)
      (hp : line.Plain) (hs : Line.separator? (n :: ns) = some t) (ht : t ≠ .colon) :
      ReachesAssignment lx line
  | specified {line : Line} {lines : List Line} (h : lx.Reaches (.statement line) lines)
      (hs : line.IsSpecified)
      (hc : .undefine ∈ Parser.specifiersIn ((Line.afterLeading line).takeWhile Parser.isIntro) ∨
        Line.hasAssignOp ((Line.afterLeading line).dropWhile Parser.isIntro) = true) :
      ReachesAssignment lx line
  | target {line ns : Line} {lines : List Line} {ts : List Tree}
      (h : lx.Reaches (.statement line) lines) (hr : line.IsRule)
      (ht : Parser.Takes Parser.targets line () ns ts)
      (ha : Line.hasAssignOp (ns.takeWhile (!·.isText [';'])) = true) : ReachesAssignment lx ns

open MakeTree.Parser in
theorem ReachesAssignment.tries {lx : Lexer} {ns : Line} (h : lx.ReachesAssignment ns) :
    Tries ParseError.Unforeseen assignment ns fun _ _ => True := by
  have hv (ms : List Nest) : ParseError.Unforeseen (.refusal ms [.variableName]) :=
    ParseError.unforeseen_refusal (by decide) ms
  refine tries_assignment ParseError.tolerates_unforeseen hv ?_
  cases h with
  | line _ ha _ hs ht =>
    have h := Line.assigns_of_hasAssignOp (Line.hasAssignOp_of_separator? hs ht)
    rw [ha]
    exact .inr (h.dropWhile fun n => Line.not_isAssignOp_of_isIntro)
  | specified _ _ hc => exact hc.imp_right Line.assigns_of_hasAssignOp
  | target _ _ _ ha => exact .inr (Line.assigns_of_target ha).behind

/-- A statement of a text takes up rows, and if it starts with neither a comment nor a keyword, it is
what the first separator of the first of them tells. -/
theorem result_tells {text : Text} {c : Char} {strict : Bool} {t : Tree}
    (h : (start text c).result strict = .ok t) {q : Placed} (hq : q ∈ t.subtrees)
    (hk : q.tree.kind = .node .root ∨ q.tree.kind = .node .branch) {p : Placed} (hp : p ∈ q.parts)
    {k : NodeKind} (hs : k ∈ NodeKind.statements) (hpk : p.tree.kind = .node k) :
    ∃ before head more after, (start text c).Occupies p before (head :: more) after ∧
      (head.Plain → head.Tells k p) := by
  obtain ⟨hr, us, rfl, hparses⟩ := result_ok h
  have hu := (refusal_eq_none.1 hr).2
  have hlexed := lexed_lines hu
  obtain ⟨d, start', tree⟩ := p
  cases tree with
  | leaf => cases hpk
  | node j ts =>
    obtain rfl : j = k := Kind.node.inj hpk
    obtain ⟨line, ls, rest, ⟨before, hb⟩, hseat, hst⟩ :=
      statementAt hparses hq hk hp (by rintro ⟨_, _, hleaf⟩; cases hleaf)
    have hsound : Line.Sound line := (sheet_lines hu).below line (hb ▸ by simp)
    rw [← hb] at hlexed
    obtain ⟨used, rfl, hocc⟩ := occupies_statement hu hb.symm hseat hst
    have hmine : Line.Lexed ((line :: used) ++ rest) := hlexed.right
    have hclosed : Nest.ClosedAll line := by simpa using hmine.left.head.closed
    obtain ⟨row, more, hrow, -⟩ := Line.rows_line hmine.left.head
    rw [Line.rows_cons hmine.left.cut hclosed, hrow] at hocc
    refine ⟨_, row, _, _, hocc, fun hplain => ?_⟩
    rw [List.flatten_cons] at hseat
    obtain ⟨hsolid, htells⟩ := hst.tells hsound (hmine.cut.good hmine.closed) hs
      (Line.plain_of_row hclosed hrow hplain) rfl hseat.split.1
    rw [Line.rows_cons_solid hmine.left.head.cut hclosed hsolid] at hrow
    obtain ⟨rfl, -⟩ := List.cons.inj hrow
    exact htells

end Lexer

/-- A statement that starts with neither a comment nor a keyword is a rule if a colon is the first
separator on its line that is outside every expansion, an assignment if it is an operator, and else
a call. That separator is its first colon, or its operator. Where the parser comes to the targets of
a rule, no colon is missing, and where it comes to an assignment, no operator is; a text is refused
for the lack of an operator only on a line led by specifiers with none behind them. -/
theorem parse_dispatch (text : Text) (options : Options) :
    (∀ t, (parse text options).result = .ok t → ∀ q ∈ t.subtrees,
      q.tree.kind = .node .root ∨ q.tree.kind = .node .branch → ∀ p ∈ q.parts,
      ∀ k ∈ NodeKind.statements, p.tree.kind = .node k → ∃ before head more after,
        (Lexer.start text options.recipePrefix).Occupies p before (head :: more) after ∧
        (head.Plain → head.Tells k p)) ∧
    (∀ line lines, (Lexer.start text options.recipePrefix).Reaches (.statement line) lines →
      line.IsRule → ∀ outer es e s, Parser.targets ⟨line, outer, es⟩ = .error e s →
        e.expected ≠ [.token .colon]) ∧
    (∀ line, (Lexer.start text options.recipePrefix).ReachesAssignment line →
      ∀ outer es e s, Parser.assignment ⟨line, outer, es⟩ = .error e s →
        e.expected ≠ [.token .assignOp]) ∧
    ∀ e, (parse text options).result = .error (.parse e) → e.expected ≠ [.token .colon] ∧
      (e.expected = [.token .assignOp] → ∃ line lines,
        (Lexer.start text options.recipePrefix).Reaches (.statement line) lines ∧
        line.LacksOperator) := by
  refine ⟨fun t h q hq hk p hp k hs hpk => ?_, fun line lines _ hr outer es e s h => ?_,
    fun line hline outer es e s h => ?_, fun e he => ?_⟩
  · rw [parse_result_start] at h
    exact Lexer.result_tells h hq hk hp hs hpk
  · have htries := Parser.tries_targets hr (.inr ParseError.lenient_unforeseen) outer es
    rw [h] at htries
    exact fun he => htries (he ▸ by decide)
  · have htries := hline.tries (.inr ParseError.lenient_unforeseen) outer es
    rw [h] at htries
    exact fun he => htries (he ▸ by decide)
  · rw [parse_result_start] at he
    obtain hun | ⟨line, lines, hreach, heq, hlacks⟩ := Lexer.unforeseen_of_result he
    · exact ⟨fun heq => hun (heq ▸ by decide), fun heq => absurd (heq ▸ by decide) hun⟩
    · exact ⟨by rw [heq]; decide, fun _ => ⟨line, lines, hreach, hlacks⟩⟩

/-- A rule whose target is an expansion with a colon and an operator in it. -/
theorem parse_dispatch_expansion : ∃ (t : Tree) (q p : Placed),
    (parse "$(A:b=c): D\n".toList {}).result = .ok t ∧ q ∈ t.subtrees ∧
      q.tree.kind = .node .root ∧ p ∈ q.parts ∧ p.tree.kind = .node .rule ∧
      ∃ before head more after,
        (Lexer.start "$(A:b=c): D\n".toList '\t').Occupies p before (head :: more) after ∧
        head.Plain ∧ head.Tells .rule p := by
  let rule : Tree := .node .rule [.node .targets [.node .expression [.node .expansion [
      .leaf (.token .expansionPrefix) ['$', '('],
      .node .expression [.leaf (.token .plainText) ['A'], .leaf (.token .colon) [':'],
        .leaf (.token .plainText) ['b'], .leaf (.token .assignOp) ['='],
        .leaf (.token .plainText) ['c']],
      .leaf (.token .expansionSuffix) [')']]]],
    .leaf (.token .colon) [':'], .leaf (.token .whitespace) [' '],
    .node .prerequisites [.node .expression [.leaf (.token .plainText) ['D']]],
    .leaf (.token .lineBreak) ['\n']]
  have h : (parse "$(A:b=c): D\n".toList {}).result = .ok (.node .root [rule]) := by cbv
  have hq : (⟨0, 0, .node .root [rule]⟩ : Placed) ∈ (Tree.node .root [rule]).subtrees :=
    List.mem_cons_self
  have hp : (⟨1, 0, rule⟩ : Placed) ∈ (⟨0, 0, .node .root [rule]⟩ : Placed).parts :=
    List.mem_cons_self
  obtain ⟨before, head, more, after, hocc, htells⟩ := (parse_dispatch "$(A:b=c): D\n".toList {}).1
    _ h _ hq (.inl rfl) _ hp .rule (by decide) rfl
  -- the text is one row, which starts with the expansion
  have hrows : (Lexer.start "$(A:b=c): D\n".toList '\t').rows.map
      (fun row => (Line.afterLeading row).head?.map Nest.kind) = [some .expansionPrefix] := by cbv
  rw [hocc.rows, List.map_append, List.append_eq_singleton_iff] at hrows
  obtain ⟨-, hrow⟩ := hrows.resolve_right fun h => by simp at h
  have hplain : head.Plain := by
    intro n hn
    have hk : (Line.afterLeading head).head?.map Nest.kind = some .expansionPrefix :=
      (List.cons.inj hrow).1
    rw [Option.mem_def.1 hn, Option.map_some, Option.some.injEq] at hk
    simp [hk]
  exact ⟨_, _, _, h, hq, rfl, hp, rfl, before, head, more, after, hocc, hplain, htells hplain⟩

end MakeTree
