import MakeTree.Proofs.Grammar.Definition
import MakeTree.Proofs.Grammar.LineBuilds

/-!
What the first lines of conditionals, rules and definitions build, and the lines that close them.
-/

namespace MakeTree

namespace Tree

/-- The first keyword of a conditional among the trees. -/
def conditional? (ts : List Tree) : Option ConditionalKind :=
  Node.conditionalKind? (k := .root) ⟨ts⟩

theorem conditional?_append (ts us : List Tree) :
    conditional? (ts ++ us) = (conditional? ts).or (conditional? us) := by
  unfold conditional? Node.conditionalKind?
  rw [Node.tokens_eq, Node.tokens_eq, Node.tokens_eq, marks_append, List.findSome?_append]

theorem Margin.conditional? {ts : List Tree} (h : Margin ts) : conditional? ts = none := by
  refine List.findSome?_eq_none_iff.2 fun m hm => ?_
  rcases h.marks m hm with hk | hk | hk | hk <;> rw [hk]

theorem LeafOf.conditional? {n : Nest} {ts : List Tree} (h : LeafOf n ts) {c : ConditionalKind}
    (hk : n.kind = .keyword (.conditional c)) : conditional? ts = some c := by
  unfold Tree.conditional? Node.conditionalKind?
  rw [Node.tokens_eq, h.marks, hk]
  rfl

/-- The first line of a conditional: its keyword and a test with as many operands as that wants. -/
structure Tested (c : ConditionalKind) (ts : List Tree) : Prop where
  condition : ∃ us, nodesOf ts = [(.condition, us)] ∧
    kinds us = List.replicate c.operands .expression
  keyword : conditional? ts = some c
  endif : ∀ s, (.keyword .endif, s) ∉ marks ts

/-- The first line of a rule: targets, and behind these an assignment, or prerequisites and
(`continues`) the start of a recipe. -/
structure Headed (continues : Bool) (ts : List Tree) : Prop where
  targets : ∃ us vs, nodesOf ts = (.targets, us) :: vs ∧ WordsOf (nodesOf us) ∧ nodesOf us ≠ []
  kinds : continues = false ∧ kinds ts = [.targets, .assignment] ∨
    continues = true ∧ ∃ lists items, kinds ts = .targets :: (lists ++ items) ∧
      lists.Sublist [.prerequisites, .orderOnly] ∧ items ⊆ [.recipe]

theorem Headed.kinds_subset {continues : Bool} {ts : List Tree} (h : Headed continues ts) :
    Tree.kinds ts ⊆ [.targets, .assignment, .prerequisites, .orderOnly, .recipe] := by
  obtain ⟨-, hk⟩ | ⟨-, lists, items, hk, hl, hi⟩ := h.kinds
  · rw [hk]
    decide
  · rw [hk]
    refine List.cons_subset.2 ⟨by decide, List.append_subset.2 ⟨?_, ?_⟩⟩
    · exact List.Subset.trans hl.subset (by decide)
    · exact List.Subset.trans hi (by decide)

/-- No node but perhaps one command, which a semicolon leads. -/
def Inlined (ls : List (NodeKind × List Tree)) : Prop := ∃ header : Option (List Tree),
  ls = header.toList.map (Prod.mk .recipe) ∧ ∀ us ∈ header, LedBy (·.isText [';']) us

theorem Inlined.kinds {ts : List Tree} (h : Inlined (nodesOf ts)) : Tree.kinds ts ⊆ [.recipe] := by
  obtain ⟨header, hn, -⟩ := h
  rw [Tree.kinds, hn]
  cases header <;> simp

/-- On the first line of a rule only the last node may be one of a recipe. -/
def Introduced (ts : List Tree) : Prop := ∃ vs ls, nodesOf ts = vs ++ ls ∧
  (∀ v ∈ vs, v.1 ∉ NodeKind.recipeItems) ∧ Inlined ls

/-- The commands among the nodes are led by a recipe prefix. -/
def Prefixed (ls : List (NodeKind × List Tree)) : Prop :=
  ∀ us, (.recipe, us) ∈ ls → LedBy (·.kind == .recipePrefix) us

/-- The first line of a definition: its name. -/
structure Titled (ts : List Tree) : Prop where
  name : ∃ e, nodesOf ts = [(.expression, e)] ∧ textOf e ≠ []
  specifiers : Specifier.Compatible (specifiers ts)

end Tree

theorem Nest.not_isLineBreak_of_not_breaksLine (n : Nest) (h : n.breaksLine = false) :
    n.isLineBreak = false := by
  cases n with
  | expansion opener body closer =>
    rw [breaksLine, flatten, List.any_cons, Bool.or_eq_false_iff] at h
    exact h.1
  | _ => simpa [breaksLine, flatten] using h

namespace Parser

open MakeTree.Tree

variable {k : NodeKind} {ns : List Nest} {q : Nest → Bool}

theorem bare_of_isText {s : Text} {n : Nest} (h : n.isText s = true) : k.allows n.kind = true := by
  rw [Nest.kind_of_isText h]
  rfl

theorem bare_of_isColon {n : Nest} (h : n.isColon = true) : k.allows n.kind = true := by
  rw [show n.kind = .colon by simpa [Nest.isColon] using h]
  rfl

theorem bare_of_isAssignOp {n : Nest} (h : n.isAssignOp = true) : k.allows n.kind = true := by
  rw [show n.kind = .assignOp by simpa [Nest.isAssignOp] using h]
  rfl

section Conditional

/-- A test of one name. A comment right behind the name is part of it, as in a command. -/
theorem builds_definedName (hns : ∀ n ∈ ns.head?, n.isWhitespace = false) :
    Builds k (within .condition definedName) ns fun _ _ ts =>
      ∃ us, ts = [.node .condition us] ∧ kinds us = [.expression] := by
  have h : Builds .recipe definedName ns fun _ ms ts => ∃ us, us <+: ns ∧
      ms = ns.drop us.length ∧ ts = [.node .expression (Nest.treesOf us)] ∧
        (∀ n ∈ Nest.flattenAll us, n.isLineBreak = false) ∧ Nest.Trimmed us := by
    refine builds_bind (builds_refuse (by decide)) fun _ _ ms _ _ hm => ?_
    obtain ⟨hms, rfl, -⟩ := hm
    rw [hms]
    have hp := Nest.span_isPrefix Nest.isWhitespace ns
    have ht : Nest.Trimmed (Nest.span Nest.isWhitespace ns) := Nest.trimmed_span hns
    have hfirst := builds_first hp ht (fun n hn => (Nest.mem_span_imp hn).1) (.inr (.inl rfl))
    refine builds_unread_bind (hfirst.mono ?_)
    rintro _ _ _ ⟨rfl, rfl, -, hb⟩
    exact ⟨_, hp, rfl, rfl, hb, ht⟩
  refine builds_of_sound fun hl => builds_within_of h ?_
  rintro _ us _ _ hns - ⟨vs, hp, rfl, rfl, hb, ht⟩
  have hv := List.prefix_iff_eq_append.1 hp
  obtain rfl : vs = us := List.append_cancel_right (hv.trans hns)
  rw [← hv] at hl
  exact ⟨.lookup hl.left hb ht, _, rfl, rfl⟩

theorem builds_parenthesized (h : ns.head?.any (·.isText ['(']) = true) :
    Builds k parenthesized ns fun _ _ ts =>
      kinds ts = [.expression, .expression] := by
  obtain ⟨n, ms, rfl, hn⟩ : ∃ n ms, ns = n :: ms ∧ n.isText ['('] = true := by
    cases ns with
    | nil => cases h
    | cons n ms => exact ⟨n, ms, rfl, h⟩
  have hc (n : Nest) (h : (n.kind == .comma) = true) :
      n.isLineBreak = false ∧ k.allows n.kind = true := by
    have hk : n.kind = .comma := by simpa using h
    exact ⟨by simp [Nest.isLineBreak, hk], by rw [hk]; rfl⟩
  have hp (n : Nest) (h : n.isText [')'] = true) :
      n.isLineBreak = false ∧ k.allows n.kind = true := by
    have hk := Nest.kind_of_isText h
    exact ⟨by simp [Nest.isLineBreak, hk], by rw [hk]; rfl⟩
  refine builds_bind (builds_advance (bare_of_isText hn)) fun _ _ _ ts₁ _ h₁ => ?_
  refine builds_bind builds_skipWhitespace fun _ _ _ ts₂ _ h₂ => ?_
  refine builds_operand_bind (h₂.1 ▸ Nest.head?_dropWhile_blanks _) (fun e _ => ?_)
    fun _ h => builds_missing_bind hc (by decide) h
  refine builds_bind builds_skipWhitespace fun _ _ _ ts₄ _ h₄ => ?_
  refine builds_bind (builds_expect (fun n h => (hc n h).2) (by decide)) fun _ _ _ ts₅ _ h₅ => ?_
  obtain ⟨_, -, -, -, h₅⟩ := h₅
  refine builds_bind builds_skipWhitespace fun _ _ _ ts₆ _ h₆ => ?_
  refine builds_operand_bind (h₆.1 ▸ Nest.head?_dropWhile_blanks _) (fun e' _ => ?_)
    fun _ h => builds_missing hp (by decide) h
  refine builds_bind builds_skipWhitespace fun _ _ _ ts₈ _ h₈ => ?_
  refine (builds_expect (fun n h => (hp n h).2) (by decide)).mono ?_
  rintro _ _ ts₉ ⟨_, -, -, -, h₉⟩
  simp [h₁.2.kinds, h₂.2.kinds, h₄.2.kinds, h₅.kinds, h₆.2.kinds, h₈.2.kinds, h₉.kinds]

theorem builds_quotedPair : Builds .condition quotedPair ns fun _ _ ts =>
    kinds ts = [.expression, .expression] := by
  refine builds_bind builds_quotedOperand fun _ _ _ ts₁ _ h₁ => ?_
  refine builds_bind builds_skipWhitespace fun _ _ _ ts₂ _ h₂ => ?_
  refine builds_quotedOperand.mono fun _ _ ts₃ h₃ => ?_
  simp [h₁, h₂.2.kinds, h₃]

theorem builds_condition (hns : ∀ n ∈ ns.head?, n.isWhitespace = false) (c : ConditionalKind) :
    Builds k (condition (.keyword (.conditional c))) ns fun _ _ ts =>
      ∃ us, ts = [.node .condition us] ∧
        kinds us = List.replicate c.operands .expression := by
  unfold condition
  by_cases h : (TokenKind.keyword (.conditional c) == .keyword (.conditional .ifdef) ||
      TokenKind.keyword (.conditional c) == .keyword (.conditional .ifndef)) = true
  · have hc : c.operands = 1 := by
      cases c with
      | ifdef => rfl
      | ifndef => rfl
      | ifeq => cases h
      | ifneq => cases h
    rw [if_pos h, hc]
    exact builds_definedName hns
  · have hc : c.operands = 2 := by
      cases c with
      | ifdef => exact absurd rfl h
      | ifndef => exact absurd rfl h
      | ifeq => rfl
      | ifneq => rfl
    have hp : Builds .condition (do
        if ← nextIs (·.isText ['(']) then parenthesized
        else if ← nextIs (·.kind == .stringLiteral) then quotedPair
        else fail [.openParen, .token .stringLiteral]) ns fun _ _ ts =>
          kinds ts = [.expression, .expression] := by
      refine builds_nextIs_bind (builds_ite builds_parenthesized fun _ => ?_)
      exact builds_nextIs_bind (builds_ite (fun _ => builds_quotedPair)
        fun _ => builds_fail (by decide))
    rw [if_neg h]
    refine builds_within (by decide) (hp.mono fun _ _ ts hk => ⟨.inr hk, ts, rfl, ?_⟩)
    rw [hk, hc]
    rfl

theorem builds_conditionalHeader (hb : k.bearsComments = true) {n : Nest} {ls : List Nest}
    (hn : Line.afterLeading ns = n :: ls) {c : ConditionalKind}
    (hk : n.kind = .keyword (.conditional c)) :
    Builds k conditionalHeader ns fun _ ms ts => ms = [] ∧ Tested c ts := by
  refine builds_bind builds_skipLeading fun _ _ ms ts₁ _ h₁ => ?_
  obtain ⟨rfl, h₁⟩ := h₁
  refine builds_kind?_bind ?_
  rw [hn, List.head?_cons, Option.map_some, hk]
  refine builds_bind (builds_advance (by rw [hk]; rfl)) fun _ _ _ ts₂ _ h₂ => ?_
  refine builds_bind builds_skipWhitespace fun _ _ _ ts₃ _ h₃ => ?_
  have hns := h₃.1 ▸ Nest.head?_dropWhile_blanks _
  refine builds_bind (builds_condition hns c) fun _ _ _ _ _ h₄ => ?_
  obtain ⟨us, rfl, hus⟩ := h₄
  refine (builds_endOfLine hb).mono ?_
  rintro _ _ ts₅ ⟨rfl, h₅, -⟩
  refine ⟨rfl, ⟨us, ?_, hus⟩, ?_, fun s hs => ?_⟩
  · simp [h₁.nodes, h₂.2.nodes, h₃.2.nodes, h₅.nodes]
  · rw [conditional?_append, h₁.conditional?, conditional?_append, h₂.2.conditional? hk]
    rfl
  · simp only [marks_append, h₂.2.marks, hk, marks_node, marks_nil, List.mem_append,
      List.mem_singleton, List.nil_append] at hs
    rcases hs with hs | hs | hs | hs
    · exact h₁.not_mem (by decide) hs
    · cases hs
    · exact h₃.2.not_mem (by decide) hs
    · exact h₅.not_mem (by decide) hs

theorem head_of_closing? {ctx : Context} {line : Line} {w : Keyword}
    (h : ctx.closing? line = some w) :
    ∃ n ls, Line.afterLeading line = n :: ls ∧ n.kind = .keyword w := by
  obtain ⟨n, hn, hk⟩ := Option.map_eq_some_iff.1 (Context.kind_of_closing? h)
  obtain ⟨ls, hls⟩ := List.head?_eq_some_iff.1 hn
  exact ⟨n, ls, hls, hk⟩

theorem builds_endif (hb : k.bearsComments = true) (ctx : Context) :
    Builds k (endif ctx) ns fun _ ms ts =>
      ms = [] ∧ nodesOf ts = [] ∧ ∃ s, (.keyword .endif, s) ∈ marks ts := by
  refine builds_unread_bind (builds_ite (fun hc => ?_) fun _ => ?_)
  · obtain ⟨n, ls, hn, hk⟩ := head_of_closing? hc
    refine builds_bind builds_skipLeading fun _ _ _ ts₁ _ h₁ => ?_
    obtain ⟨rfl, h₁⟩ := h₁
    rw [hn]
    refine builds_bind (builds_advance (by rw [hk]; rfl)) fun _ _ _ ts₂ _ h₂ => ?_
    refine (builds_endOfLine hb).mono ?_
    rintro _ _ ts₃ ⟨rfl, h₃, -⟩
    refine ⟨rfl, by simp [h₁.nodes, h₂.2.nodes, h₃.nodes], n.token.text, ?_⟩
    simp [h₂.2.marks, hk]
  · exact builds_failAt (List.takeWhile_append_dropWhile).symm (by decide)

theorem builds_elseKeyword {ctx : Context} (hc : ctx.closing? ns = some .otherwise) :
    Builds k elseKeyword ns fun _ _ ts => nodesOf ts = [] := by
  obtain ⟨n, ls, hn, hk⟩ := head_of_closing? hc
  refine builds_bind builds_skipLeading fun _ _ _ ts₁ _ h₁ => ?_
  obtain ⟨rfl, h₁⟩ := h₁
  rw [hn]
  refine builds_bind (builds_advance (by rw [hk]; rfl)) fun _ _ _ ts₂ _ h₂ => ?_
  refine builds_skipWhitespace.mono ?_
  rintro _ _ ts₃ ⟨-, h₃⟩
  simp [h₁.nodes, h₂.2.nodes, h₃.nodes]

end Conditional

section Rule

theorem builds_recipeLine (hp : ns.head?.any (·.kind == .recipePrefix) = true) :
    Builds k recipeLine ns fun a ms ts => Whole .recipe a ms ts ∧ Prefixed (nodesOf ts) := by
  obtain ⟨n, ms, rfl, hn⟩ : ∃ n ms, ns = n :: ms ∧ n.kind = .recipePrefix := by
    cases ns with
    | nil => cases hp
    | cons n ms => exact ⟨n, ms, rfl, by simpa using hp⟩
  have hc : Builds .recipe command (n :: ms) fun _ ls ts =>
      ls = [] ∧ kinds ts = [.expression] ∧ LedBy (·.kind == .recipePrefix) ts :=
    builds_command (by rw [hn]; rfl) (beq_iff_eq.2 hn)
  refine builds_within (by decide) (hc.mono ?_)
  rintro _ _ ts ⟨rfl, hk, hled⟩
  refine ⟨hk, ⟨rfl, ts, rfl⟩, fun us hus => ?_⟩
  obtain ⟨-, rfl⟩ := Prod.mk.inj (List.mem_singleton.1 hus)
  exact hled

theorem builds_prerequisites {j : NodeKind} (hj : j = .prerequisites ∨ j = .orderOnly)
    (hw : ns.head?.all (!·.isWhitespace) = true) :
    Builds k (prerequisites j) ns fun _ _ ts => (kinds ts).Sublist [j] := by
  refine builds_endsOr_bind (builds_ite (fun _ => builds_pure (List.nil_sublist _)) fun h => ?_)
  obtain ⟨n, ms, rfl⟩ : ∃ n ms, ns = n :: ms := by
    cases ns with
    | nil => exact absurd rfl h
    | cons n ms => exact ⟨n, ms, rfl⟩
  simp only [List.head?_cons, Option.all_some, Bool.or_eq_true, not_or, Bool.not_eq_true,
    Bool.not_eq_true'] at h hw
  have hb : Builds k (within j (words endsPrerequisites)) (n :: ms) fun _ _ ts =>
      ∃ us, ts = [.node j us] := by
    refine builds_within (by rcases hj with rfl | rfl <;> decide) (builds_words.mono ?_)
    rintro _ _ ts ⟨-, hwords, -, hne⟩
    refine ⟨?_, ts, rfl⟩
    have hp : Node.HoldsWords (k := j) ⟨ts⟩ ∧ Node.words (k := j) ⟨ts⟩ ≠ [] :=
      ⟨hwords.holds, hwords.ne_nil (hne n ms rfl hw h.1.1 h.1.2 h.2)⟩
    rcases hj with rfl | rfl <;> exact hp
  refine builds_bind hb fun _ _ _ _ _ hm => ?_
  obtain ⟨us, rfl⟩ := hm
  refine builds_skipWhitespace.mono ?_
  rintro _ _ vs ⟨-, hm⟩
  simp [hm.kinds]

theorem head_dropWhile_isWhitespace (ms : List Nest) :
    (ms.dropWhile Nest.isWhitespace).head?.all (!·.isWhitespace) = true := by
  have h := List.head?_dropWhile_not Nest.isWhitespace ms
  cases hd : (ms.dropWhile Nest.isWhitespace).head? with
  | none => rfl
  | some m =>
    rw [hd] at h
    simpa using h

theorem builds_orderOnly : Builds k orderOnly ns fun _ _ ts =>
    (kinds ts).Sublist [.orderOnly] := by
  refine builds_nextIs_bind ?_
  cases ns with
  | nil => exact builds_pure (List.nil_sublist _)
  | cons n ns =>
    refine builds_ite (fun h => ?_) fun _ => builds_pure (List.nil_sublist _)
    refine builds_bind (builds_advance (bare_of_isText h)) fun _ _ _ ts₁ _ h₁ => ?_
    refine builds_bind builds_skipWhitespace fun _ _ _ ts₂ _ h₂ => ?_
    obtain ⟨rfl, h₂⟩ := h₂
    refine (builds_prerequisites (.inr rfl) (head_dropWhile_isWhitespace _)).mono fun _ _ ts h => ?_
    simpa [h₁.2.kinds, h₂.kinds] using h

theorem builds_inlineRecipe (hb : k.bearsComments = true) :
    Builds k inlineRecipe ns fun _ ms ts => ms = [] ∧ Inlined (nodesOf ts) := by
  have he : Builds k endOfLine ns fun _ ms ts => ms = [] ∧ Inlined (nodesOf ts) := by
    refine (builds_endOfLine hb).mono ?_
    rintro _ _ ts ⟨rfl, hm, -⟩
    exact ⟨rfl, none, hm.nodes, nofun⟩
  refine builds_nextIs_bind ?_
  cases ns with
  | nil => exact he
  | cons n ns =>
    refine builds_ite (fun h => ?_) fun _ => he
    have hc : Builds .recipe command (n :: ns) fun _ ls ts =>
        ls = [] ∧ kinds ts = [.expression] ∧ LedBy (·.isText [';']) ts :=
      builds_command (bare_of_isText h) h
    refine builds_within (by decide) (hc.mono ?_)
    rintro _ _ ts ⟨rfl, hk, hled⟩
    exact ⟨hk, rfl, some ts, rfl, fun us hus => Option.some.inj hus ▸ hled⟩

/-- The first separator of a rule's line is a colon, and it is what ends the targets. -/
theorem colon_of_separator? {ls : List Nest} (hs : Line.separator? ls = some .colon) :
    ∃ m ms, ls.dropWhile (fun n => !n.isLineBreak && !(n.isComment || n.isColon)) = m :: ms ∧
      m.isColon = true := by
  induction ls with
  | nil => cases hs
  | cons n ls ih =>
    rw [Line.separator?, Line.header] at hs
    rw [List.takeWhile_cons] at hs
    split at hs
    · next he =>
      simp only [Bool.and_eq_true, Bool.not_eq_true'] at he
      have hl : n.isLineBreak = false := n.not_isLineBreak_of_not_breaksLine he.1
      cases hc : n.isColon with
      | true => exact ⟨n, ls, by rw [List.dropWhile_cons_of_neg (by simp [hc])], hc⟩
      | false =>
        rw [List.dropWhile_cons_of_pos (by simp [hl, he.2, hc])]
        cases ha : n.isAssignOp with
        | true =>
          have hk : n.kind = .assignOp := by simpa [Nest.isAssignOp] using ha
          rw [List.find?_cons_of_pos (by simp [ha]), Option.map_some, hk] at hs
          cases hs
        | false =>
          rw [List.find?_cons_of_neg (by simp [hc, ha])] at hs
          exact ih hs
    · cases hs

theorem builds_targetWords {n : Nest} {ls : List Nest} (hw : n.isWhitespace = false)
    (hl : n.isLineBreak = false) (hc : n.isComment = false) (hs : n.isColon = false) :
    Builds k (within .targets (words Nest.isColon)) (n :: ls) fun _ ms ts =>
      ms = (n :: ls).drop (Nest.span (fun n => n.isComment || n.isColon) (n :: ls)).length ∧
        ∃ us, ts = [.node .targets us] ∧ WordsOf (nodesOf us) ∧ nodesOf us ≠ [] := by
  refine builds_within (by decide) (builds_words.mono ?_)
  rintro _ _ ts ⟨hms, hwords, -, hne⟩
  have hne := hne n ls rfl hw hl hc hs
  exact ⟨⟨hwords.holds, hwords.ne_nil hne⟩, hms, ts, rfl, hwords, hne⟩

theorem builds_targets (h : Line.IsRule ns) : Builds k targets ns fun _ ms ts =>
    (∃ us, nodesOf ts = [(.targets, us)] ∧ WordsOf (nodesOf us) ∧ nodesOf us ≠ []) ∧
      ms.head?.all (!·.isWhitespace) = true := by
  obtain ⟨n, ls, hn, hl, hc, -, -⟩ := h
  have hnw := not_isWhitespace_of_not_isLeading (head_dropWhile rfl hn)
  have hcolon (n : Nest) (h : (n.isColon && n.first.leading.isEmpty) = true) :
      k.allows n.kind = true := bare_of_isColon (Bool.and_eq_true_iff.1 h).1
  refine builds_bind builds_skipLeading fun _ _ _ ts₁ _ h₁ => ?_
  obtain ⟨rfl, h₁⟩ := h₁
  rw [hn]
  refine builds_bind (builds_refuse (by decide)) fun _ _ _ _ _ h₂ => ?_
  obtain ⟨rfl, rfl, _, _, he, hnl, hnc, hncolon⟩ := h₂
  obtain ⟨rfl, rfl⟩ := List.cons.inj he
  refine builds_bind (builds_targetWords hnw hnl hnc hncolon) fun _ _ _ _ _ h₃ => ?_
  obtain ⟨-, us, rfl, hus, hne⟩ := h₃
  refine builds_bind builds_skipWhitespace fun _ _ _ ts₄ _ h₄ => ?_
  obtain ⟨-, h₄⟩ := h₄
  refine builds_bind (builds_expect (fun _ => bare_of_isColon) (by decide))
    fun _ _ _ ts₅ _ h₅ => ?_
  obtain ⟨_, -, -, -, h₅⟩ := h₅
  refine builds_bind (builds_advanceIf hcolon) fun _ _ _ ts₆ _ h₆ => ?_
  have hi : nodesOf ts₆ = [] := by
    obtain ⟨_, -, -, h₆⟩ | ⟨-, -, rfl⟩ := h₆
    · exact h₆.nodes
    · rfl
  refine builds_skipWhitespace.mono ?_
  rintro _ _ ts₇ ⟨rfl, h₇⟩
  refine ⟨⟨us, ?_, hus, hne⟩, head_dropWhile_isWhitespace _⟩
  simp [h₁.nodes, h₄.nodes, h₅.nodes, hi, h₇.nodes]

theorem builds_ruleHeader (hb : k.bearsComments = true) (h : Line.IsRule ns) :
    Builds k ruleHeader ns fun b ms ts => ms = [] ∧ Headed b ts ∧ Introduced ts := by
  refine builds_bind (builds_targets h) fun _ _ _ ts₁ _ h₁ => ?_
  obtain ⟨⟨us, hi, hus, hne⟩, hw⟩ := h₁
  have hk : kinds ts₁ = [.targets] := kinds_of_one hi
  refine builds_unread_bind (builds_ite (fun _ => ?_) fun _ => ?_)
  · refine builds_bind builds_assignment fun _ _ _ _ _ h₂ => ?_
    obtain ⟨rfl, vs, rfl⟩ := h₂
    exact builds_pure ⟨rfl, ⟨⟨us, [(.assignment, vs)], by simp [hi], hus, hne⟩,
      .inl ⟨rfl, by simp [hk]⟩⟩, [(.targets, us), (.assignment, vs)], [], by simp [hi],
      by simp [NodeKind.recipeItems], none, rfl, nofun⟩
  · refine builds_bind (builds_prerequisites (.inl rfl) hw) fun _ _ _ ts₂ _ h₂ => ?_
    refine builds_bind builds_orderOnly fun _ _ _ ts₃ _ h₃ => ?_
    refine builds_bind (builds_inlineRecipe hb) fun _ _ _ ts₄ _ h₄ => ?_
    obtain ⟨rfl, hinlined⟩ := h₄
    have hlists : (kinds ts₂ ++ kinds ts₃).Sublist [.prerequisites, .orderOnly] := h₂.append h₃
    have hfront : ∀ v ∈ (.targets, us) :: (nodesOf ts₂ ++ nodesOf ts₃),
        v.1 ∉ NodeKind.recipeItems := by
      rintro v (_ | ⟨_, hv⟩)
      · simp [NodeKind.recipeItems]
      · have hm : v.1 ∈ kinds ts₂ ++ kinds ts₃ := by
          rw [kinds, kinds, ← List.map_append]
          exact List.mem_map_of_mem hv
        have hlist : v.1 = .prerequisites ∨ v.1 = .orderOnly := by simpa using hlists.subset hm
        rcases hlist with hv | hv <;> simp [hv, NodeKind.recipeItems]
    exact builds_pure ⟨rfl, ⟨⟨us, nodesOf ts₂ ++ (nodesOf ts₃ ++ nodesOf ts₄), by simp [hi], hus,
      hne⟩, .inr ⟨rfl, _, _, by simp [hk], hlists, hinlined.kinds⟩⟩, _, _, by simp [hi], hfront,
      hinlined⟩

end Rule

section Definition

theorem builds_definitionHeader {n : Nest} {ls : List Nest}
    (hn : (Line.afterLeading ns).dropWhile isIntro = n :: ls) (hk : n.kind = .keyword .define) :
    Builds .definition definitionHeader ns fun _ ms ts => ms = [] ∧ Titled ts := by
  refine builds_bind builds_skipLeading fun _ _ _ ts₁ _ h₁ => ?_
  obtain ⟨rfl, h₁⟩ := h₁
  refine builds_bind builds_specifiers fun found _ _ ts₂ _ h₂ => ?_
  obtain ⟨rfl, hi, hc, hf, -⟩ := h₂
  rw [hn]
  refine builds_bind (builds_advance (by rw [hk]; rfl)) fun _ _ ms ts₃ _ h₃ => ?_
  refine builds_bind builds_skipWhitespace fun _ _ _ ts₄ _ h₄ => ?_
  obtain ⟨rfl, h₄⟩ := h₄
  refine builds_bind (builds_refuse (by decide)) fun _ _ _ _ _ h₅ => ?_
  obtain ⟨rfl, rfl, m, ms', hms, hl, -, ha⟩ := h₅
  have hw := head_dropWhile rfl hms
  have hns := Nest.head?_dropWhile_blanks ms
  refine builds_bind (builds_expression hns (.inr (.inr rfl))) fun _ _ _ _ _ h₆ => ?_
  obtain ⟨-, e, rfl, he⟩ := h₆
  refine builds_bind builds_skipWhitespace fun _ _ _ ts₇ _ h₇ => ?_
  refine builds_bind (builds_advanceIf fun _ => bare_of_isAssignOp) fun _ _ _ ts₈ _ h₈ => ?_
  have h₈ : nodesOf ts₈ = [] ∧ Tree.specifiers ts₈ = [] := by
    obtain ⟨m, hm, -, h₈⟩ | ⟨-, -, rfl⟩ := h₈
    · have hk : m.kind = .assignOp := by simpa [Nest.isAssignOp] using hm
      exact ⟨h₈.nodes, by simp [h₈.specifiers, hk, TokenKind.specifier?]⟩
    · exact ⟨rfl, rfl⟩
  refine (builds_endOfLine rfl).mono ?_
  rintro _ _ ts₉ ⟨rfl, h₉, -⟩
  refine ⟨rfl, ⟨e, ?_, he m ms' hms hw hl (by simp [hw, ha])⟩, ?_⟩
  · simp [h₁.nodes, hi, h₃.2.nodes, h₄.nodes, h₇.2.nodes, h₈, h₉.nodes]
  · simpa [h₁.specifiers, hf, h₃.2.specifiers, hk, TokenKind.specifier?, h₄.specifiers,
      h₇.2.specifiers, h₈, h₉.specifiers] using hc

theorem builds_definitionEnd {n : Nest} {ls : List Nest} (hn : Line.afterLeading ns = n :: ls)
    (hk : n.kind = .keyword .endef) : Builds .definition definitionEnd ns fun _ ms ts =>
      ms = [] ∧ nodesOf ts = [] ∧ Tree.specifiers ts = [] := by
  refine builds_bind builds_skipLeading fun _ _ _ ts₁ _ h₁ => ?_
  obtain ⟨rfl, h₁⟩ := h₁
  rw [hn]
  refine builds_bind (builds_advance (by rw [hk]; rfl)) fun _ _ ms ts₂ _ h₂ => ?_
  refine (builds_endOfLine rfl).mono ?_
  rintro _ _ ts₃ ⟨rfl, h₃, -⟩
  refine ⟨rfl, by simp [h₁.nodes, h₂.2.nodes, h₃.nodes], ?_⟩
  simp [h₁.specifiers, h₂.2.specifiers, hk, TokenKind.specifier?, h₃.specifiers]

end Definition

end Parser

end MakeTree
