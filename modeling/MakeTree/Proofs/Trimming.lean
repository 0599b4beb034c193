import Mathlib
import MakeTree.Proofs.Comments
import MakeTree.Proofs.Grammar.RuleTokens
import MakeTree.Proofs.WordLists

/-!
Which blanks expressions leave out (`parse_trims`). The values of assignments, commands, words, names
and the sides of comparisons start and end with no blank. Each is a stretch of the text: the blanks
between two of its tokens are part of it, and those on either side are leaves outside of it.
-/

namespace MakeTree

/-- The nodes of which every expression is trimmed. -/
def NodeKind.trimming : List NodeKind :=
  [.assignment, .recipe, .functionLine, .includeLine, .exportLine, .targets, .prerequisites,
    .orderOnly]

namespace Placed

variable {e d : Placed}

/-- `e` is an expression in `d` that is trimmed. In a definition this is the name and not the body,
in a condition what is not in quotes. -/
inductive IsTermOf (e d : Placed) : Prop
  | part {k : NodeKind} (hk : k ∈ NodeKind.trimming) (hd : d.tree.kind = .node k) (he : e ∈ d.parts)
      (hx : e.tree.kind = .node .expression)
  | name (hd : d.tree.kind = .node .definition) (he : e.IsNameOf d)
  | operand {c : Condition} (hd : d.tree = c.tree) (hc : c.isQuoted = false) (he : e ∈ d.parts)
      (hx : e.tree.kind = .node .expression)

namespace IsTermOf

theorem mem_parts (h : e.IsTermOf d) : e ∈ d.parts := by
  cases h with
  | part _ _ he => exact he
  | name _ he => exact he.mem_parts
  | operand _ _ he => exact he

theorem isExpression (h : e.IsTermOf d) : e.tree.kind = .node .expression := by
  cases h with
  | part _ _ _ hx => exact hx
  | name _ he =>
    obtain ⟨_, _, _, _, -, -, -, rfl⟩ := he
    rfl
  | operand _ _ _ hx => exact hx

theorem kind (h : e.IsTermOf d) : ∃ k : NodeKind, d.tree.kind = .node k ∧
    k ∈ .definition :: .condition :: NodeKind.trimming := by
  cases h with
  | part hk hd => exact ⟨_, hd, List.mem_cons_of_mem _ (List.mem_cons_of_mem _ hk)⟩
  | name hd => exact ⟨_, hd, List.mem_cons_self⟩
  | operand hd => exact ⟨_, congrArg Tree.kind hd, List.mem_cons_of_mem _ List.mem_cons_self⟩

theorem unquoted (h : e.IsTermOf d) (hd : d.tree.kind = .node .condition) :
    ∀ u ∈ d.tree.children, u.kind ≠ .leaf .quote := by
  intro u hu hq
  cases h with
  | part hk hd' =>
    obtain rfl := Kind.node.inj (hd.symm.trans hd')
    exact absurd hk (by decide)
  | name hd' => exact absurd (hd.symm.trans hd') (by decide)
  | operand hd' hc =>
    rw [hd'] at hu
    exact List.any_eq_false.1 hc u hu (beq_iff_eq.2 hq)

theorem isNameOf (h : e.IsTermOf d) (hd : d.tree.kind = .node .definition) : e.IsNameOf d := by
  cases h with
  | part hk hd' =>
    obtain rfl := Kind.node.inj (hd.symm.trans hd')
    exact absurd hk (by decide)
  | name _ he => exact he
  | operand hd' =>
    rw [hd'] at hd
    cases hd

end IsTermOf

/-- The expression is made of some of the nests, the first of them at the offset, and has no blank at
either end. -/
def CutFrom (e : Placed) (start : Nat) (ns : List Nest) : Prop :=
  ∃ before mine after us, ns = before ++ (mine ++ after) ∧
    e.start = start + (Nest.textOf before).byteSize ∧ Nest.Trimmed mine ∧
    e.tree = .node .expression us ∧ Reading (fun _ => True) .expression (Nest.flattenAll mine) us

namespace CutFrom

variable {start : Nat} {ms ns : List Nest}

theorem left (h : e.CutFrom start ms) (ns : List Nest) : e.CutFrom start (ms ++ ns) := by
  obtain ⟨before, mine, after, us, rfl, h⟩ := h
  exact ⟨before, mine, after ++ ns, us, by simp, h⟩

theorem right (h : e.CutFrom (start + (Nest.textOf ms).byteSize) ns) :
    e.CutFrom start (ms ++ ns) := by
  obtain ⟨before, mine, after, us, rfl, hs, h⟩ := h
  refine ⟨ms ++ before, mine, after, us, by simp, ?_, h⟩
  rw [hs, Nest.textOf_append, Text.byteSize_append, Nat.add_assoc]

end CutFrom

end Placed

open MakeTree.Tree

theorem Reading.kind_of_placed {P : NodeKind → Prop} {j k : NodeKind} {ns : List Nest}
    {ts : List Tree} (h : Reading P k ns ts) {depth start : Nat} {d : Placed}
    (hd : d ∈ placedOf depth start ts) (hj : d.tree.kind = .node j) : P j := by
  by_contra hn
  exact (EveryAt.of_every (h.every hn _) : EveryAt j (fun _ => False) depth start ts) d hd hj

theorem Placed.IsTermOf.not_mem {e d : Placed} (he : e.IsTermOf d) {k : NodeKind} {ns : List Nest}
    {ts : List Tree} (h : Reading (· ∈ [.expression, .expansion]) k ns ts) {depth start : Nat} :
    d ∉ placedOf depth start ts := by
  intro hd
  obtain ⟨j, hj, hm⟩ := he.kind
  have hin := h.kind_of_placed hd hj
  clear hj
  revert hm hin
  cases j <;> decide

theorem Nest.inner_treesOf (ns : List Nest) :
    Reading (· ∈ [NodeKind.expression, .expansion]) .expression (flattenAll ns) (treesOf ns) :=
  reading_treesOf (by decide) (by decide) ns (by decide)

theorem Nest.inner_expression (k : NodeKind) (ns : List Nest) :
    Reading (· ∈ [NodeKind.expression, .expansion]) k (flattenAll ns)
      [.node .expression (treesOf ns)] := .node (by decide) (inner_treesOf ns)

namespace Laid

variable {k : NodeKind} {ns : List Nest} {ts : List Tree} {depth start : Nat} {e d : Placed}

theorem cutFrom_seat (h : Laid k ns ts) (hk : k ≠ .expression) (hs : Nest.Seated start ns)
    (he : e ∈ seats depth start ts) (hx : e.tree.kind = .node .expression) :
    e.CutFrom start ns ∨ k = .condition ∧ ∃ u ∈ ts, u.kind = .leaf .quote := by
  induction h generalizing start with
  | nil => cases he
  | @append k ms ns ts us h _ ih ih' =>
    rw [seats_append, h.reading.textOf hs.split.1] at he
    rcases List.mem_append.1 he with he | he
    · refine (ih hk hs.split.1 he).imp (·.left ns) ?_
      rintro ⟨hk, u, hu, hq⟩
      exact ⟨hk, u, List.mem_append_left _ hu, hq⟩
    · refine (ih' hk hs.split.2 he).imp (·.right) ?_
      rintro ⟨hk, u, hu, hq⟩
      exact ⟨hk, u, List.mem_append_right _ hu, hq⟩
  | @node j k ns ts h _ hadmits =>
    obtain rfl := List.mem_singleton.1 he
    obtain rfl := Kind.node.inj hx
    exact .inl ⟨[], ns, [], ts, by simp, rfl, (hadmits rfl).2, rfl, h.reading⟩
  | @leaf k x =>
    obtain ⟨us, vs, hu, -⟩ := mem_seats.1 he
    have hm : e.tree ∈ x.leaves := by simp [hu]
    obtain ⟨j, s, hj⟩ := Lexeme.isLeaf_of_mem_leaves hm
    rw [hj] at hx
    cases hx
  | contents => exact absurd rfl hk
  | lookup =>
    obtain rfl := List.mem_singleton.1 he
    cases hx
  | @quoted x => exact .inr ⟨rfl, x.closeQuote, by simp, rfl⟩
  | @raw x => exact .inr ⟨rfl, x.closeQuote, by simp, rfl⟩
  | definition =>
    obtain rfl := List.mem_singleton.1 he
    cases hx

theorem mem_seats_name {hd te name body : List Tree} (hn : nodesOf hd = [(.expression, name)])
    (he : e.IsNameOf ⟨depth, start, .node .definition (hd ++ .node .expression body :: te)⟩) :
    e ∈ seats (depth + 1) start hd := by
  obtain ⟨k, vs, us, ws, -, ht, hv, rfl⟩ := he
  have hk := kinds_of_one hn
  obtain ⟨as, rfl, -⟩ | ⟨bs, rfl, hbs⟩ := List.append_eq_append_iff.1 (Tree.node.inj ht).2
  · rw [kinds_append, hk] at hv
    cases hv
  · cases bs with
    | nil =>
      rw [List.append_nil, hv] at hk
      cases hk
    | cons b bs =>
      rw [List.cons_append, List.cons.injEq] at hbs
      exact mem_seats.2 ⟨vs, bs, by rw [hbs.1], rfl⟩

theorem cutFrom (h : Laid k ns ts) (hs : Nest.Seated start ns) (hd : d ∈ placedOf depth start ts)
    (he : e.IsTermOf d) : e.CutFrom start ns := by
  induction h generalizing depth start with
  | nil => cases hd
  | @append k ms ns ts us h _ ih ih' =>
    rw [placedOf_append, h.reading.textOf hs.split.1] at hd
    rcases List.mem_append.1 hd with hd | hd
    · exact (ih hs.split.1 hd).left ns
    · exact (ih' hs.split.2 hd).right
  | @node j k ns ts h _ _ ih =>
    rw [placedOf_node] at hd
    rcases List.mem_cons.1 hd with rfl | hd
    · have hj : j ≠ .expression := by
        obtain ⟨i, hi, hm⟩ := he.kind
        obtain rfl := Kind.node.inj hi
        rintro rfl
        exact absurd hm (by decide)
      refine (h.cutFrom_seat hj hs he.mem_parts he.isExpression).resolve_right ?_
      rintro ⟨rfl, u, hu, hq⟩
      exact he.unquoted rfl u hu hq
    · exact ih hs hd
  | leaf x => exact absurd hd (he.not_mem (.leaf .root x))
  | @contents ns => exact absurd hd (he.not_mem (Nest.inner_treesOf ns))
  | @lookup k ns _ _ ht =>
    rw [placedOf_node] at hd
    rcases List.mem_cons.1 hd with rfl | hd
    · obtain rfl := List.mem_singleton.1 he.mem_parts
      exact ⟨[], ns, [], _, by simp, rfl, ht, rfl,
        Nest.reading_treesOf trivial trivial ns (by decide)⟩
    · exact absurd hd (he.not_mem (Nest.inner_expression .condition ns))
  | @quoted x inside trailing =>
    exact absurd hd (he.not_mem (.quoted x trailing (Nest.inner_expression .condition inside)))
  | @raw x => exact absurd hd (he.not_mem (.operand x (by decide)))
  | @definition k us ns ms hd' te name h hn _ _ _ ih ih' =>
    -- the name stands in front of the body, which is not trimmed
    have hbody := Nest.inner_expression .definition ns
    rw [placedOf_node, placedOf_append, h.reading.textOf hs.split.1] at hd
    rcases List.mem_cons.1 hd with rfl | hd
    · have hseat := mem_seats_name hn (he.isNameOf rfl)
      refine Placed.CutFrom.left ?_ (ns ++ ms)
      refine (h.cutFrom_seat (by decide) hs.split.1 hseat he.isExpression).resolve_right ?_
      rintro ⟨hk, -⟩
      cases hk
    rcases List.mem_append.1 hd with hd | hd
    · exact (ih hs.split.1 hd).left (ns ++ ms)
    change d ∈ placedOf _ _ ([_] ++ te) at hd
    rw [placedOf_append, hbody.textOf hs.split.2.split.1] at hd
    rcases List.mem_append.1 hd with hd | hd
    · exact absurd hd (he.not_mem hbody)
    · exact .right (.right (ih' hs.split.2.split.2 hd))

end Laid

theorem Nest.Seated.within {start : Nat} {ns : List Nest} (h : Seated start ns) {x : Token}
    (hx : x ∈ tokensOf ns) :
    start ≤ x.position.offset ∧ x.stop ≤ start + (Nest.textOf ns).byteSize := by
  obtain ⟨xs, hxs, hseat⟩ := h
  rw [tokensOf, ← hxs, map_token_ofLexeme] at hx
  obtain ⟨y, hy, rfl⟩ := List.mem_map.1 hx
  obtain ⟨us, vs, rfl⟩ := List.append_of_mem hy
  have hat := (Lexeme.seated_append.1 hseat).2.1.offset
  have htext : Nest.textOf ns = Lexeme.textOf us ++ (y.text ++ Lexeme.textOf vs) := by
    rw [Nest.textOf, ← hxs, map_first_ofLexeme, Lexeme.textOf_append]
    rfl
  rw [htext, Text.byteSize_append, Text.byteSize_append, Lexeme.text, Text.byteSize_append,
    Token.stop]
  omega

theorem Placed.CutFrom.stretch {e : Placed} {start : Nat} {ns : List Nest} (h : e.CutFrom start ns)
    (hs : Nest.Seated start ns) : ∃ us mine vs, ns = us ++ (mine ++ vs) ∧ Nest.Trimmed mine ∧
      e.Spells (Nest.tokensOf mine) ∧ (∀ x ∈ Nest.tokensOf us, x.stop ≤ e.start) ∧
      ∀ x ∈ Nest.tokensOf vs, e.stop ≤ x.position.offset := by
  obtain ⟨us, mine, vs, ts, rfl, hstart, hmine, htree, hread⟩ := h
  obtain ⟨hus, hrest⟩ := hs.split
  rw [← hstart] at hrest
  obtain ⟨hspan, hvs⟩ := hrest.split
  have hstop : e.stop = e.start + (Nest.textOf mine).byteSize := by
    rw [Placed.stop, htree, Tree.text, hread.textOf hspan]
  refine ⟨us, mine, vs, rfl, hmine, ?_, fun x hx => ?_, fun x hx => ?_⟩
  · rw [Placed.Spells, htree]
    exact (hread.accounts_flattenAll hspan).spells
  · rw [hstart]
    exact (hus.within hx).2
  · rw [hstop]
    exact (hvs.within hx).1

namespace Nest.Trimmed

variable {ns : List Nest}

theorem head?_tokensOf (h : Trimmed ns) : ∀ x ∈ (tokensOf ns).head?, x.kind ≠ .whitespace := by
  intro x hx
  rw [Nest.head?_tokensOf] at hx
  obtain ⟨n, hn, rfl⟩ := Option.map_eq_some_iff.1 hx
  exact beq_eq_false_iff_ne.1 (h.first n hn)

theorem getLast?_tokensOf (h : Trimmed ns) (hs : SoundAll ns) :
    ∀ x ∈ (tokensOf ns).getLast?, x.kind ≠ .whitespace := by
  intro x hx
  obtain ⟨hne, rfl⟩ := List.mem_getLast?_eq_getLast hx
  exact beq_eq_false_iff_ne.1 (getLast_tokensOf hs h.last hne)

end Nest.Trimmed

theorem Placed.Spells.exists_isLeafOf {p : Placed} {ts : List Token} (h : p.Spells ts) {x : Token}
    (hx : x ∈ ts) (hk : x.kind ≠ .stringLiteral) : ∃ q ∈ p.subtrees, q.IsLeafOf x := by
  obtain ⟨parent, hs⟩ := Spells.mem h hx hk
  exact placed_of_spots (List.mem_of_mem_filter hs) p.depth

theorem Placed.IsLeafOf.not_mem {e q : Placed} {x : Token} (h : q.IsLeafOf x) (hx : x.text ≠ [])
    (ho : x.stop ≤ e.start ∨ e.stop ≤ x.position.offset) : q ∉ e.subtrees := by
  intro hq
  obtain ⟨-, hstart, hstop⟩ := placed_within hq
  have hpos := Text.byteSize_pos hx
  rw [Placed.stop, h.1, h.2, Tree.text] at hstop
  rw [h.1] at hstart
  rw [Token.stop, Placed.stop] at ho
  omega

namespace Token

theorem exists_lead (ts : List Token) : ∃ before lead, ts = before ++ lead ∧
    (∀ x ∈ lead, x.kind = .whitespace) ∧ ∀ x ∈ before.getLast?, x.kind ≠ .whitespace := by
  refine ⟨ts.rdropWhile isBlank, ts.rtakeWhile isBlank,
    (List.rdropWhile_append_rtakeWhile ..).symm, fun x hx => ?_, fun x hx => ?_⟩
  · simpa [isBlank] using List.mem_rtakeWhile_imp hx
  · obtain ⟨hne, rfl⟩ := List.mem_getLast?_eq_getLast hx
    simpa [isBlank] using List.rdropWhile_last_not isBlank ts hne

theorem exists_tail (ts : List Token) : ∃ tail after, ts = tail ++ after ∧
    (∀ x ∈ tail, x.kind = .whitespace) ∧ ∀ x ∈ after.head?, x.kind ≠ .whitespace := by
  refine ⟨ts.takeWhile isBlank, ts.dropWhile isBlank, List.takeWhile_append_dropWhile.symm,
    fun x hx => ?_, fun x hx => ?_⟩
  · simpa [isBlank] using List.mem_takeWhile_imp hx
  · have hno := List.head?_dropWhile_not isBlank ts
    rw [Option.mem_def.1 hx] at hno
    exact beq_eq_false_iff_ne.1 hno

end Token

/-- The expression at the place has the tokens `span` of the text, which start and end with no
blank. The blanks on either side, `lead` and `tail`, have their leaves outside of it. -/
structure Lexer.Trims (lx : Lexer) (t : Tree) (e : Placed) (before lead span tail after : List Token) :
    Prop where
  tokens : lx.tokens = before ++ (lead ++ (span ++ (tail ++ after)))
  spells : e.Spells span
  first : ∀ x ∈ span.head?, x.kind ≠ .whitespace
  last : ∀ x ∈ span.getLast?, x.kind ≠ .whitespace
  kept : ∀ x ∈ span, x.kind = .whitespace → ∃ q ∈ e.subtrees, q.IsLeafOf x
  blanks : ∀ x ∈ lead ++ tail, x.kind = .whitespace
  front : ∀ x ∈ before.getLast?, x.kind ≠ .whitespace
  back : ∀ x ∈ after.head?, x.kind ≠ .whitespace
  start : ∀ x ∈ before ++ lead, x.stop ≤ e.start
  stop : ∀ x ∈ tail ++ after, e.stop ≤ x.position.offset
  outside : ∀ x ∈ lead ++ tail, ∃ q ∈ t.subtrees, q.IsLeafOf x ∧ q ∉ e.subtrees

namespace Lexer

variable {text : Text} {c : Char} {strict : Bool} {t : Tree} {d e : Placed}

theorem cutFrom (h : (start text c).result strict = .ok t) (hd : d ∈ t.subtrees)
    (he : e.IsTermOf d) : e.CutFrom 0 (start text c).lines.flatten := by
  rw [flatten_lines]
  obtain ⟨ts, rfl, hl, -⟩ := result_laid h
  obtain ⟨k, hk, hm⟩ := he.kind
  rw [Tree.subtrees, placed, placedOf_append] at hd
  rcases List.mem_cons.1 hd with rfl | hd
  · obtain rfl := Kind.node.inj hk
    exact absurd hm (by decide)
  rcases List.mem_append.1 hd with hd | hd
  · exact hl.cutFrom (Nest.seated_nests (start text c)) hd he
  · have hno : Every k (fun _ => False) ((start text c).nests.2.map Trivia.tree) :=
      .of_leaves fun _ => Lexeme.isLeaf_of_mem_leading
    exact ((EveryAt.of_every hno : EveryAt k (fun _ => False) _ _ _) d hd hk).elim

theorem spells_tokens (h : (start text c).result strict = .ok t) :
    (⟨0, 0, t⟩ : Placed).Spells (start text c).tokens := by
  obtain ⟨us, rfl, ha⟩ := result_accounts h
  exact ha.spells

/-- What is trimmed is a stretch of the text between blanks. -/
theorem trims (h : (start text c).result strict = .ok t) (hd : d ∈ t.subtrees)
    (he : e.IsTermOf d) : ∃ before lead span tail after,
      (start text c).Trims t e before lead span tail after := by
  obtain ⟨us, mine, vs, hlines, hmine, hspells, hus, hvs⟩ :=
    (cutFrom h hd he).stretch (seated_lines text c)
  have hsound := soundAll_lines h
  rw [hlines] at hsound
  have hmineSound := (Nest.soundAll_append.1 (Nest.soundAll_append.1 hsound).2).1
  have htokens := tokens_lines text c
  obtain ⟨before, lead, hfront, hlead, hbefore⟩ := Token.exists_lead (Nest.tokensOf us)
  obtain ⟨tail, after, hback, htail, hafter⟩ := Token.exists_tail (Nest.tokensOf vs)
  rw [hfront] at hus
  rw [hback] at hvs
  rw [hlines, Nest.tokensOf_append, Nest.tokensOf_append, hfront, hback, List.append_assoc]
    at htokens
  have hblank : ∀ x ∈ lead ++ tail, x.kind = .whitespace := List.forall_mem_append.2 ⟨hlead, htail⟩
  refine ⟨before, lead, Nest.tokensOf mine, tail, after, htokens, hspells, hmine.head?_tokensOf,
    hmine.getLast?_tokensOf hmineSound, fun x hx hk => ?_, hblank, hbefore, hafter, hus, hvs,
    fun x hx => ?_⟩
  · exact hspells.exists_isLeafOf hx (by simp [hk])
  · have hm : x ∈ (start text c).tokens := by
      rw [htokens]
      simp only [List.mem_append] at hx ⊢
      tauto
    obtain ⟨q, hq, hleaf⟩ := (spells_tokens h).exists_isLeafOf hm (by simp [hblank x hx])
    refine ⟨q, hq, hleaf, hleaf.not_mem (text_ne_nil_of_mem_tokens hm) ?_⟩
    rcases List.mem_append.1 hx with hx | hx
    · exact .inl (hus x (List.mem_append_right _ hx))
    · exact .inr (hvs x (List.mem_append_left _ hx))

end Lexer

/-- An expression that is the value of an assignment, a command, a word, a name or a side of a
comparison has no blank at either end, and all those between its tokens. The ones around it have
their leaves elsewhere in the tree. -/
theorem parse_trims {text : Text} {options : Options} {t : Tree}
    (h : (parse text options).result = .ok t) {d e : Placed} (hd : d ∈ t.subtrees)
    (he : e.IsTermOf d) : ∃ before lead span tail after,
      (Lexer.start text options.recipePrefix).Trims t e before lead span tail after := by
  rw [parse_result_start] at h
  exact Lexer.trims h hd he

/-- With a value that has blanks on both sides, the last of them behind the end of a line. -/
theorem parse_trims_continuation : ∃ (t : Tree) (d e : Placed),
    (parse "A = b c \\\n \n".toList {}).result = .ok t ∧ d ∈ t.subtrees ∧ e.IsTermOf d ∧
      e.tree.text = "b c".toList ∧ ∃ before lead span tail after,
        (Lexer.start "A = b c \\\n \n".toList '\t').Trims t e before lead span tail after := by
  let plain (c : Char) : Tree := .leaf (.token .plainText) [c]
  let blank : Tree := .leaf (.token .whitespace) [' ']
  let value : Tree := .node .expression [plain 'b', blank, plain 'c']
  let front : List Tree :=
    [.node .expression [plain 'A'], blank, .leaf (.token .assignOp) ['='], blank]
  let back : List Tree :=
    [blank, .leaf .continuation ['\\', '\n'], blank, .leaf (.token .lineBreak) ['\n']]
  let a : Tree := .node .assignment (front ++ value :: back)
  have h : (parse "A = b c \\\n \n".toList {}).result = .ok (.node .root [a]) := by cbv
  have hd : (⟨1, 0, a⟩ : Placed) ∈ (Tree.node .root [a]).subtrees :=
    List.mem_cons_of_mem _ List.mem_cons_self
  have he : (⟨2, 4, value⟩ : Placed) ∈ (⟨1, 0, a⟩ : Placed).parts :=
    mem_seats.2 ⟨front, back, rfl, rfl⟩
  have hterm : (⟨2, 4, value⟩ : Placed).IsTermOf ⟨1, 0, a⟩ := .part (by decide) rfl he rfl
  exact ⟨_, _, _, h, hd, hterm, rfl, parse_trims h hd hterm⟩

end MakeTree
