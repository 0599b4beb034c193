import Mathlib
import MakeTree.Proofs.Grammar.RuleTokens
import MakeTree.Proofs.WordLists

/-!
The first line of a rule (`parse_ruleHeader`). Its tokens tell what the parts of the rule are: the
targets in front of the first colon, whether the colon is double, an assignment for the targets, or
else the two lists of prerequisites and a command behind a semicolon.
-/

namespace MakeTree

open MakeTree.Tree

/-- The rule is what the tokens of its first line tell. -/
structure Placed.HasHeader (p : Placed) (r : Rule) (row : List Token) : Prop where
  colon : Token.onward Token.isColon row ≠ []
  targets : p.Lists r.targets (RuleTokens.targets row)
  double : r.isDoubleColon = RuleTokens.isDouble row
  assignment : RuleTokens.assigns (RuleTokens.rest row) = true → ∃ (a : Assignment), ∃ q ∈ p.parts,
    r.targetAssignment? = some a ∧ q.tree = a.tree ∧
      q.Spells ((RuleTokens.rest row).dropWhile Token.isBlank)
  lists : RuleTokens.assigns (RuleTokens.rest row) = false → r.targetAssignment? = none ∧
    p.Lists r.prerequisites (RuleTokens.prerequisites (RuleTokens.rest row)) ∧
    p.Lists r.orderOnly (RuleTokens.orderOnly (RuleTokens.rest row))
  command : RuleTokens.assigns (RuleTokens.rest row) = false →
    ∀ tokens ∈ RuleTokens.command? (RuleTokens.rest row), ∃ (e : Expression), ∃ q ∈ p.subtrees,
      r.recipeLines.head? = some (.command e) ∧ q.tree = e.tree ∧ q.Spells tokens

namespace Tree

/-- What stands between the parts of a rule: no nodes, and no colons. -/
structure Filler (ts : List Tree) : Prop where
  nodes : nodesOf ts = []
  colons : ∀ m ∈ marks ts, m.1 ≠ .colon

end Tree

namespace Nest

theorem filler_treesOf {ns : List Nest} (hs : SoundAll ns)
    (h : ∀ n ∈ ns, NodeKind.rule.allows n.kind = true ∧ n.kind ≠ .colon) :
    Filler (treesOf ns) := by
  obtain ⟨-, hn, hm⟩ := bares (k := .rule) hs fun n hn => (h n hn).1
  refine ⟨hn, fun m hm' => ?_⟩
  rw [hm] at hm'
  obtain ⟨n, hn, rfl⟩ := List.mem_map.1 hm'
  exact (h n hn).2

theorem filler_blanks {ns : List Nest} (hs : SoundAll ns) (hw : ∀ n ∈ ns, n.isWhitespace = true) :
    Filler (treesOf ns) := by
  refine filler_treesOf hs fun n hn => ?_
  rw [show n.kind = .whitespace from beq_iff_eq.1 (hw n hn)]
  exact ⟨rfl, by decide⟩

theorem kinds_listTrees (k : NodeKind) (us : List Nest) : kinds (listTrees k us) ⊆ [k] := by
  unfold listTrees
  split
  · exact List.nil_subset _
  · exact List.Subset.refl _

theorem marks_listTrees (k : NodeKind) (us : List Nest) : marks (listTrees k us) = [] := by
  unfold listTrees
  split <;> rfl

end Nest

theorem Node.nodes_eq_nil {k j : NodeKind} {n : Node k} (h : j ∉ n.nodeKinds) : n.nodes j = [] :=
  List.head?_eq_none_iff.1 (node?_eq_none h)

theorem Node.node?_append {k j : NodeKind} {n : Node k} {A B us : List Tree}
    (hc : n.children = A ++ (.node j us :: B)) (hA : j ∉ kinds A) : n.node? j = some ⟨us⟩ := by
  have hnil : A.filterMap (Tree.cast? j) = [] := nodes_eq_nil (n := (⟨A⟩ : Node k)) hA
  rw [node?, nodes, hc, List.filterMap_append, hnil, List.nil_append, List.filterMap_cons_some]
  · rfl
  · exact if_pos rfl

namespace Placed

variable {p q : Placed} {k j : NodeKind} {n : Node k} {A B : List Tree}

theorem mem_parts {u : Tree} (hn : p.tree = n.tree) (hc : n.children = A ++ (u :: B)) :
    (⟨p.depth + 1, p.start + (textOf A).byteSize, u⟩ : Placed) ∈ p.parts := by
  have hparts : p.parts = seats (p.depth + 1) p.start n.children := by
    rw [parts, hn]
    rfl
  rw [hparts, hc]
  exact mem_seats.2 ⟨A, B, rfl, rfl⟩

theorem Writes.of_mem {es : List Expression} {pieces : List (List Token)} (h : q.Writes es pieces)
    (hq : q ∈ p.subtrees) : p.Writes es pieces := by
  obtain ⟨qs, hs, hrest⟩ := h
  exact ⟨qs, List.Subset.trans hs (placed_trans hq), hrest⟩

theorem lists_part (hn : p.tree = n.tree) {L : List Tree} (hc : n.children = A ++ (L ++ B))
    {ms blanks us gap rest : List Nest}
    (hL : L = [.node j (Nest.wordTrees us)] ∨ us = [] ∧ L = [] ∧ j ∉ kinds B)
    (hA : j ∉ kinds A) (hheld : Parser.Held ms A)
    (hseat : Nest.Seated p.start (ms ++ (us ++ rest))) (hs : Nest.SoundAll (blanks ++ (us ++ gap)))
    (hb : ∀ m ∈ blanks, m.isWhitespace = true) (hg : ∀ m ∈ gap, m.isWhitespace = true) :
    p.Lists (((n.node? j).map Node.words).getD []) (Nest.tokensOf (blanks ++ (us ++ gap))) := by
  obtain ⟨hblanks, hs⟩ := Nest.soundAll_append.1 hs
  obtain ⟨hus, hgap⟩ := Nest.soundAll_append.1 hs
  have words {pieces : List (List Token)} (hw : Token.Words (Nest.tokensOf us) pieces) :
      Token.Words (Nest.tokensOf (blanks ++ (us ++ gap))) pieces := by
    rw [Nest.tokensOf_append, Nest.tokensOf_append]
    exact (hw.append_blanks (Nest.tokensOf_blanks hgap hg)).blanks_append
      (Nest.tokensOf_blanks hblanks hb)
  obtain rfl | ⟨rfl, rfl, hB⟩ := hL
  · rw [Node.node?_append hc hA]
    have hq := mem_parts hn hc
    obtain ⟨pieces, hw, hspell⟩ :=
      Nest.spell_wordTrees hus (hheld.seat hseat).split.1 (p.depth + 1 + 1)
    have hwrites := hspell.writes (p := ⟨p.depth + 1, p.start + (textOf A).byteSize, _⟩)
      (n := (⟨Nest.wordTrees us⟩ : Node j)) rfl
    exact (hwrites.of_mem (parts_subset p hq)).lists (words hw)
  · have hnone : n.node? j = none := by
      refine Node.node?_eq_none ?_
      rw [Node.nodeKinds, hc, List.nil_append, kinds_append]
      exact fun h => (List.mem_append.1 h).elim hA hB
    rw [hnone]
    have hw : Token.Words (Nest.tokensOf []) [] := .blanks nofun
    exact Writes.lists ⟨[], List.nil_subset _, rfl, .nil⟩ (words hw)

end Placed

section Parts

open MakeTree.Nest

theorem countP_marks_filler {ts : List Tree} (h : Filler ts) :
    (marks ts).countP (·.1 == .colon) = 0 :=
  List.countP_eq_zero.2 fun m hm => by simpa using h.colons m hm

theorem TargetRow.sound_parts {r : TargetRow} (hs : SoundAll r.nests) :
    SoundAll r.words ∧ SoundAll r.gap ∧ SoundAll r.blanks := by
  simp only [TargetRow.nests, TargetRow.separators, soundAll_append, SoundAll] at hs
  obtain ⟨-, hwords, hgap, -, -, hblanks⟩ := hs
  exact ⟨hwords, hgap, hblanks⟩

namespace TargetRow.Cut

variable {r : TargetRow} {ns : List Nest}

theorem filler_lead (h : r.Cut ns) (hs : SoundAll r.nests) : Filler (treesOf r.lead) := by
  refine filler_treesOf (soundAll_append.1 hs).1 fun n hn => ?_
  have hl := h.lead.all n hn
  refine ⟨NodeKind.allows_of_isLeading hl, fun hk => ?_⟩
  rw [hk] at hl
  cases hl

theorem separators (h : r.Cut ns) (hs : SoundAll r.nests) : nodesOf (treesOf r.separators) = [] ∧
    (marks (treesOf r.separators)).countP (·.1 == .colon) = 1 + r.second.toList.length := by
  have hsep := (soundAll_append.1 (soundAll_append.1 hs).2).2
  have colon {n : Nest} (hn : n.isColon = true) : n.kind = .colon := beq_iff_eq.1 hn
  have blank {n : Nest} (hn : n.isWhitespace = true) : n.kind = .whitespace := beq_iff_eq.1 hn
  have hkind : ∀ n ∈ r.separators, n.kind = .colon ∨ n.kind = .whitespace := by
    intro n hn
    rcases List.mem_append.1 hn with hn | hn
    · exact .inr (blank (h.gap n hn))
    · rcases List.mem_cons.1 hn with rfl | hn
      · exact .inl (colon h.colon)
      · rcases List.mem_append.1 hn with hn | hn
        · exact .inl (colon (h.second n (Option.mem_toList.1 hn)).1)
        · exact .inr (blank (h.blanks.all n hn))
  obtain ⟨-, hnodes, hmarks⟩ := bares (k := .rule) hsep fun n hn => by
    rcases hkind n hn with hk | hk <;> rw [hk] <;> rfl
  have none {us : List Nest} (hu : ∀ n ∈ us, n.isWhitespace = true) :
      us.countP (·.kind == .colon) = 0 :=
    List.countP_eq_zero.2 fun n hn => by simp [blank (hu n hn)]
  have hsecond : r.second.toList.countP (·.kind == .colon) = r.second.toList.length :=
    List.countP_eq_length.2 fun n hn => (h.second n (Option.mem_toList.1 hn)).1
  have hcolon : (r.colon :: (r.second.toList ++ r.blanks)).countP (·.kind == .colon) =
      (r.second.toList ++ r.blanks).countP (·.kind == .colon) + 1 :=
    List.countP_cons_of_pos h.colon
  refine ⟨hnodes, ?_⟩
  rw [hmarks, List.countP_map]
  show r.separators.countP (·.kind == .colon) = _
  rw [TargetRow.separators, List.countP_append, none h.gap, hcolon, List.countP_append, hsecond,
    none h.blanks.all]
  omega

theorem nodesOf (h : r.Cut ns) (hs : SoundAll r.nests) :
    Tree.nodesOf r.trees = [(.targets, wordTrees r.words)] := by
  rw [TargetRow.trees, nodesOf_append, nodesOf_node, (h.filler_lead hs).nodes,
    (h.separators hs).1]
  rfl

theorem kinds_trees (h : r.Cut ns) (hs : SoundAll r.nests) : kinds r.trees = [.targets] := by
  rw [kinds, h.nodesOf hs]
  rfl

theorem countP_marks (h : r.Cut ns) (hs : SoundAll r.nests) :
    (marks r.trees).countP (·.1 == .colon) = 1 + r.second.toList.length := by
  rw [TargetRow.trees, marks_append, marks_node, List.countP_append,
    countP_marks_filler (h.filler_lead hs), (h.separators hs).2, Nat.zero_add]

end TargetRow.Cut

theorem EndRow.parts {ns : List Nest} {ts : List Tree} (h : EndRow ns ts) (hs : SoundAll ns) :
    kinds ts ⊆ [.recipe] ∧ ∀ m ∈ marks ts, m.1 ≠ .colon := by
  cases h with
  | command => exact ⟨List.Subset.refl _, nofun⟩
  | plain _ hn =>
    have hf : Filler (treesOf ns) := by
      refine filler_treesOf hs fun n hm => ?_
      rw [← List.takeWhile_append_dropWhile (p := isWhitespace) (l := ns)] at hm
      rcases List.mem_append.1 hm with hm | hm
      · have hw : n.isWhitespace = true := List.mem_takeWhile_imp hm
        rw [show n.kind = .whitespace from beq_iff_eq.1 hw]
        exact ⟨rfl, by decide⟩
      · rcases hn n hm with hk | hk
        · rw [show n.kind = .comment from beq_iff_eq.1 hk]
          exact ⟨rfl, by decide⟩
        · rw [show n.kind = .lineBreak from beq_iff_eq.1 hk]
          exact ⟨rfl, by decide⟩
    rw [kinds_of_nodesOf hf.nodes]
    exact ⟨List.nil_subset _, hf.colons⟩

theorem CommandRow.Cut.head?_recipeLines {r : CommandRow} (h : r.Cut)
    (hl : r.lead.isSemicolon = true) (hs : SoundAll r.nests) {k : NodeKind} {n : Node k}
    {A B : List Tree} (hc : n.children = A ++ (.node .recipe r.trees :: B))
    (hA : .recipe ∉ kinds A) (hA' : .recipeConditional ∉ kinds A) :
    n.recipeLines.head? = some (.command ⟨treesOf r.command⟩) := by
  have hlead : nodesOf (treesOf (r.lead :: r.blanks)) = [] := by
    have hs : SoundAll ((r.lead :: r.blanks) ++ (r.command ++ r.tail)) := hs
    refine (bares (k := .rule) (soundAll_append.1 hs).1 fun m hm => ?_).2.1
    rcases List.mem_cons.1 hm with rfl | hm
    · rw [kind_of_isText hl]
      rfl
    · exact Parser.bare_of_isWhitespace (h.blanks.all m hm)
  have hexpression : (⟨r.trees⟩ : Node .recipe).node? .expression = some ⟨treesOf r.command⟩ := by
    refine Node.node?_append rfl ?_
    rw [kinds_of_nodesOf hlead]
    exact List.not_mem_nil
  have hnil : A.filterMap RecipeLine.ofTree? = [] :=
    Node.recipeLines_eq_nil (n := (⟨A⟩ : Node k)) hA hA'
  have hcommand : RecipeLine.ofTree? (.node .recipe r.trees) =
      some (.command ⟨treesOf r.command⟩) := by
    rw [RecipeLine.ofTree?, hexpression]
    rfl
  rw [Node.recipeLines, hc, List.filterMap_append, hnil, List.nil_append,
    List.filterMap_cons_some hcommand]
  rfl

theorem listTrees_cases {k : NodeKind} {us : List Nest} {B : List Tree} (hB : k ∉ kinds B) :
    listTrees k us = [.node k (wordTrees us)] ∨ us = [] ∧ listTrees k us = [] ∧ k ∉ kinds B := by
  unfold listTrees
  split
  · next hu => exact .inr ⟨hu, rfl, hB⟩
  · exact .inl rfl

theorem ListRow.parts {r : ListRow} (hs : SoundAll r.nests) (hg : ∀ n ∈ r.gap, n.isWhitespace = true)
    (k : NodeKind) : kinds (r.trees k) ⊆ [k] ∧ ∀ m ∈ marks (r.trees k), m.1 ≠ .colon := by
  have hgap := filler_blanks (soundAll_append.1 hs).2 hg
  rw [ListRow.trees, kinds_append, kinds_of_nodesOf hgap.nodes, List.append_nil, marks_append,
    marks_listTrees, List.nil_append]
  exact ⟨kinds_listTrees k r.words, hgap.colons⟩

theorem filler_front {ns : List Nest} (hs : SoundAll ns)
    (h : ∀ n ∈ ns, n.isBar = true ∨ n.isWhitespace = true) : Filler (treesOf ns) := by
  refine filler_treesOf hs fun n hn => ?_
  rcases h n hn with hb | hw
  · rw [kind_of_isText hb]
    exact ⟨rfl, by decide⟩
  · rw [show n.kind = .whitespace from beq_iff_eq.1 hw]
    exact ⟨rfl, by decide⟩

theorem OrderRow.parts {us rest : List Nest} {ts : List Tree} (h : OrderRow us rest ts)
    (hs : SoundAll us) : kinds ts ⊆ [.orderOnly] ∧ ∀ m ∈ marks ts, m.1 ≠ .colon := by
  cases h with
  | none => exact ⟨List.nil_subset _, nofun⟩
  | @list bar blanks _ r hb hsk hr =>
    have hs : SoundAll ((bar :: blanks) ++ r.nests) := hs
    obtain ⟨hfs, hos⟩ := soundAll_append.1 hs
    have hf : Filler (treesOf (bar :: blanks)) := by
      refine filler_front hfs fun n hn => ?_
      rcases List.mem_cons.1 hn with rfl | hn
      · exact .inl hb
      · exact .inr (hsk.all n hn)
    obtain ⟨hk, hm⟩ := ListRow.parts hos hr.gap .orderOnly
    rw [kinds_append, kinds_of_nodesOf hf.nodes, List.nil_append, marks_append]
    exact ⟨hk, List.forall_mem_append.2 ⟨hf.colons, hm⟩⟩

end Parts

theorem CommandRow.spells {r : CommandRow} {p : Placed} {k : NodeKind} {n : Node k} {A B : List Tree}
    (hn : p.tree = n.tree) (hc : n.children = A ++ (.node .recipe r.trees :: B))
    {ms rest : List Nest} (hheld : Parser.Held ms A)
    (hseat : Nest.Seated p.start (ms ++ (r.nests ++ rest))) : ∃ q ∈ p.subtrees,
      q.tree = (⟨Nest.treesOf r.command⟩ : Expression).tree ∧
        q.Spells (Nest.tokensOf r.command) := by
  have hseat : Nest.Seated (p.start + (textOf A).byteSize)
      ((r.lead :: r.blanks) ++ (r.command ++ (r.tail ++ rest))) := by
    simpa [CommandRow.nests] using hheld.seat hseat
  have hseat := ((Nest.held_treesOf (r.lead :: r.blanks)).seat hseat).split.1
  let recipe : Placed := ⟨p.depth + 1, p.start + (textOf A).byteSize, .node .recipe r.trees⟩
  have hrecipe : recipe ∈ p.parts := Placed.mem_parts hn hc
  have hcommand := Placed.mem_parts (p := recipe) (n := (⟨r.trees⟩ : Node .recipe)) rfl rfl
  exact ⟨_, placed_trans (parts_subset p hrecipe) (parts_subset recipe hcommand), rfl,
    (Nest.accounts_of_held (by decide) (Nest.held_treesOf r.command) hseat).spells_node _⟩

section Lists

open MakeTree.Nest MakeTree.Parser

/-- A rule whose first line has lists of prerequisites, and what that line and the rest make. -/
structure Rule.Rows (r : Rule) (row : TargetRow) (l : ListRow) (us tail : List Nest)
    (ts vs items : List Tree) : Prop where
  children : r.children = (row.trees ++ (l.trees .prerequisites ++ (ts ++ vs))) ++ items
  items : kinds items ⊆ NodeKind.recipeItems
  targets : row.Cut (l.nests ++ (us ++ tail))
  list : l.Cut (us ++ tail)
  order : OrderRow us tail ts
  ending : EndRow tail vs
  sound : SoundAll (row.nests ++ (l.nests ++ (us ++ tail)))

namespace Rule.Rows

variable {p : Placed} {r : Rule} {row : TargetRow} {l : ListRow} {us tail after : List Nest}
  {ts vs items : List Tree}

theorem sound_rows (h : r.Rows row l us tail ts vs items) :
    SoundAll row.nests ∧ SoundAll l.nests ∧ SoundAll us ∧ SoundAll tail := by
  obtain ⟨hrow, hrest⟩ := soundAll_append.1 h.sound
  obtain ⟨hl, hrest⟩ := soundAll_append.1 hrest
  exact ⟨hrow, hl, soundAll_append.1 hrest⟩

theorem sound_blanks (h : r.Rows row l us tail ts vs items) : SoundAll row.blanks :=
  (TargetRow.sound_parts h.sound_rows.1).2.2

theorem kinds_row (h : r.Rows row l us tail ts vs items) : kinds row.trees = [.targets] :=
  h.targets.kinds_trees h.sound_rows.1

theorem kinds_list (h : r.Rows row l us tail ts vs items) :
    kinds (l.trees .prerequisites) ⊆ [.prerequisites] :=
  (ListRow.parts h.sound_rows.2.1 h.list.gap _).1

theorem kinds_gap (h : r.Rows row l us tail ts vs items) : kinds (treesOf l.gap) = [] :=
  kinds_of_nodesOf (filler_blanks (soundAll_append.1 h.sound_rows.2.1).2 h.list.gap).nodes

theorem kinds_front (h : r.Rows row l us tail ts vs items) :
    kinds (row.trees ++ (l.trees .prerequisites ++ ts)) ⊆
      [.targets, .prerequisites, .orderOnly] := by
  have horder := (h.order.parts h.sound_rows.2.2.1).1
  rw [kinds_append, kinds_append, h.kinds_row]
  refine List.append_subset.2 ⟨by decide, List.append_subset.2 ⟨?_, ?_⟩⟩
  · exact List.Subset.trans h.kinds_list (by decide)
  · exact List.Subset.trans horder (by decide)

theorem kinds_behind (h : r.Rows row l us tail ts vs items) :
    kinds (vs ++ items) ⊆ NodeKind.recipeItems := by
  rw [kinds_append]
  refine List.append_subset.2 ⟨List.Subset.trans (h.ending.parts h.sound_rows.2.2.2).1 ?_, h.items⟩
  decide

theorem cut (h : r.Rows row l us tail ts vs items) :
    Token.before Token.endsList (tokensOf (row.blanks ++ (l.nests ++ (us ++ tail)))) =
        tokensOf (row.blanks ++ l.nests) ∧
      Token.onward Token.endsList (tokensOf (row.blanks ++ (l.nests ++ (us ++ tail)))) =
        tokensOf (us ++ tail) :=
  h.list.cut (soundAll_append.2 ⟨h.sound_blanks, (soundAll_append.1 h.sound).2⟩) h.targets.blanks.all

theorem held (h : r.Rows row l us tail ts vs items) :
    Held row.nests row.trees ∧ Held l.nests (l.trees .prerequisites) :=
  ⟨h.targets.listing.held, (h.list.listing (by decide)).held⟩

theorem prerequisites (h : r.Rows row l us tail ts vs items) (hr : p.tree = r.tree)
    (hseat : Seated p.start ((row.nests ++ (l.nests ++ (us ++ tail))) ++ after)) :
    p.Lists r.prerequisites
      (RuleTokens.prerequisites (tokensOf (row.blanks ++ (l.nests ++ (us ++ tail))))) := by
  rw [RuleTokens.prerequisites, h.cut.1]
  have hc : r.children = row.trees ++
      (listTrees .prerequisites l.words ++ (treesOf l.gap ++ (ts ++ (vs ++ items)))) := by
    simp [h.children, ListRow.trees]
  have hseat : Seated p.start (row.nests ++ (l.words ++ (l.gap ++ ((us ++ tail) ++ after)))) := by
    simpa [ListRow.nests] using hseat
  have horder : .prerequisites ∉ kinds ts := fun hm =>
    absurd ((h.order.parts h.sound_rows.2.2.1).1 hm) (by decide)
  have hbehind : .prerequisites ∉ kinds (vs ++ items) := fun hm =>
    absurd (h.kinds_behind hm) (by decide)
  refine Placed.lists_part hr hc (listTrees_cases ?_) ?_ h.held.1 hseat
    (soundAll_append.2 ⟨h.sound_blanks, h.sound_rows.2.1⟩) h.targets.blanks.all h.list.gap
  · rw [kinds_append, kinds_append, h.kinds_gap, List.nil_append, List.mem_append]
    exact fun hm => hm.elim horder hbehind
  · rw [h.kinds_row]
    decide

theorem orderOnly (h : r.Rows row l us tail ts vs items) (hr : p.tree = r.tree)
    (hseat : Seated p.start ((row.nests ++ (l.nests ++ (us ++ tail))) ++ after)) :
    p.Lists r.orderOnly
      (RuleTokens.orderOnly (tokensOf (row.blanks ++ (l.nests ++ (us ++ tail))))) := by
  obtain ⟨-, -, hus, htail⟩ := h.sound_rows
  obtain ⟨-, front, blanks, o, rfl, rfl, hfront, hsub, hblanks, hgap, horder⟩ :=
    h.order.cut h.ending (soundAll_append.2 ⟨hus, htail⟩) h.cut.2
  obtain ⟨hfs, hos⟩ := soundAll_append.1 hus
  have hbs : SoundAll blanks := soundAll_iff.2 fun n hn => soundAll_iff.1 hfs n (hsub hn)
  rw [horder]
  have hc : r.children = (row.trees ++ (l.trees .prerequisites ++ treesOf front)) ++
      (listTrees .orderOnly o.words ++ (treesOf o.gap ++ (vs ++ items))) := by
    simp [h.children, ListRow.trees]
  have hheld := h.held.1.append (h.held.2.append (held_treesOf front))
  have hseat : Seated p.start
      ((row.nests ++ (l.nests ++ front)) ++ (o.words ++ (o.gap ++ (tail ++ after)))) := by
    simpa [ListRow.nests] using hseat
  have hbehind : .orderOnly ∉ kinds (vs ++ items) := fun hm =>
    absurd (h.kinds_behind hm) (by decide)
  have hlist : .orderOnly ∉ kinds (l.trees .prerequisites) := fun hm =>
    absurd (h.kinds_list hm) (by decide)
  refine Placed.lists_part hr hc (listTrees_cases ?_) ?_ hheld hseat
    (soundAll_append.2 ⟨hbs, hos⟩) hblanks hgap
  · rw [kinds_append,
      kinds_of_nodesOf (filler_blanks (soundAll_append.1 hos).2 hgap).nodes]
    exact hbehind
  · rw [kinds_append, kinds_append, h.kinds_row,
      kinds_of_nodesOf (filler_front hfs hfront).nodes]
    simp [hlist]

theorem command (h : r.Rows row l us tail ts vs items) (hr : p.tree = r.tree)
    (hseat : Seated p.start ((row.nests ++ (l.nests ++ (us ++ tail))) ++ after)) :
    ∀ tokens ∈ RuleTokens.command? (tokensOf (row.blanks ++ (l.nests ++ (us ++ tail)))),
      ∃ (e : Expression), ∃ q ∈ p.subtrees, r.recipeLines.head? = some (.command e) ∧
        q.tree = e.tree ∧ q.Spells tokens := by
  intro tokens hm
  obtain ⟨-, -, hus, htail⟩ := h.sound_rows
  have hending := (h.order.cut h.ending (soundAll_append.2 ⟨hus, htail⟩) h.cut.2).1
  rw [RuleTokens.command?, hending] at hm
  have hc := h.children
  cases h.ending with
  | plain hsemi =>
    rw [inline?_plain hsemi] at hm
    cases hm
  | @command cr hlead hcr =>
    rw [hcr.inline?_eq hlead htail] at hm
    obtain rfl := Option.some.inj hm
    have hc : r.children = (row.trees ++ (l.trees .prerequisites ++ ts)) ++
        (.node .recipe cr.trees :: items) := by
      simp [hc]
    have hheld := h.held.1.append (h.held.2.append h.order.listing.held)
    have hseat : Seated p.start ((row.nests ++ (l.nests ++ us)) ++ (cr.nests ++ after)) := by
      simpa using hseat
    have hrecipe : .recipe ∉ kinds (row.trees ++ (l.trees .prerequisites ++ ts)) :=
      fun hm => absurd (h.kinds_front hm) (by decide)
    have hconditional :
        .recipeConditional ∉ kinds (row.trees ++ (l.trees .prerequisites ++ ts)) :=
      fun hm => absurd (h.kinds_front hm) (by decide)
    obtain ⟨q, hq, hqt, hspells⟩ := CommandRow.spells hr hc hheld hseat
    exact ⟨_, q, hq, hcr.head?_recipeLines hlead htail hc hrecipe hconditional, hqt, hspells⟩

end Rule.Rows

end Lists

section Header

open MakeTree.Nest MakeTree.Parser

variable {p : Placed} {r : Rule} {row : TargetRow} {ns after : List Nest} {continues : Bool}
  {ts vs items : List Tree}

theorem RestRow.no_colon (h : RestRow ns continues vs) (hs : SoundAll ns) :
    ∀ m ∈ marks vs, m.1 ≠ .colon := by
  cases h with
  | assigns => exact nofun
  | @lists l us tail ts vs _ hl ho he =>
    obtain ⟨hls, hrest⟩ := soundAll_append.1 hs
    obtain ⟨hus, htail⟩ := soundAll_append.1 hrest
    rw [marks_append, marks_append]
    exact List.forall_mem_append.2 ⟨(ListRow.parts hls hl.gap _).2,
      List.forall_mem_append.2 ⟨(ho.parts hus).2, (he.parts htail).2⟩⟩

theorem items_parts (h : ∀ u ∈ items, ∃ k ws, u = .node k ws ∧ k ∈ NodeKind.recipeItems) :
    kinds items ⊆ NodeKind.recipeItems ∧ marks items = [] := by
  constructor
  · intro k hk
    obtain ⟨⟨_, us⟩, hu, rfl⟩ := List.mem_map.1 hk
    obtain ⟨j, ws, he, hj⟩ := h _ (mem_nodesOf.1 hu)
    obtain ⟨rfl, -⟩ := Tree.node.inj he
    exact hj
  · refine List.filterMap_eq_nil_iff.2 fun u hu => ?_
    obtain ⟨j, ws, rfl, -⟩ := h u hu
    rfl

namespace TargetRow.Cut

theorem lists_targets (h : row.Cut ns) (hr : p.tree = r.tree) (hc : r.children = row.trees ++ ts)
    (hs : SoundAll (row.nests ++ ns)) (hseat : Seated p.start ((row.nests ++ ns) ++ after)) :
    p.Lists r.targets (RuleTokens.targets (tokensOf (row.nests ++ ns))) := by
  rw [h.targets_eq hs]
  have hrows := (soundAll_append.1 hs).1
  obtain ⟨hwords, hgap, -⟩ := TargetRow.sound_parts hrows
  have hspan : SoundAll ([] ++ (row.words ++ row.gap)) :=
    soundAll_append.2 ⟨trivial, soundAll_append.2 ⟨hwords, hgap⟩⟩
  have hct : r.children = treesOf row.lead ++ ([.node .targets (wordTrees row.words)] ++
      (treesOf row.separators ++ ts)) := by
    simp [hc, TargetRow.trees]
  have hseat : Seated p.start (row.lead ++ (row.words ++ ((row.separators ++ ns) ++ after))) := by
    simpa [TargetRow.nests] using hseat
  refine Placed.lists_part hr hct (.inl rfl) ?_ (held_treesOf row.lead) hseat hspan
    (List.forall_mem_nil _) h.gap
  rw [kinds_of_nodesOf (h.filler_lead hrows).nodes]
  exact List.not_mem_nil

theorem isDoubleColon_eq (h : row.Cut ns) (hc : r.children = row.trees ++ ts)
    (ht : ∀ m ∈ marks ts, m.1 ≠ .colon) (hs : SoundAll (row.nests ++ ns))
    (hseat : Seated p.start (row.nests ++ ns)) :
    r.isDoubleColon = RuleTokens.isDouble (tokensOf (row.nests ++ ns)) := by
  have hbehind : (marks ts).countP (·.1 == .colon) = 0 :=
    List.countP_eq_zero.2 fun m hm => by simpa using ht m hm
  have hcount : (marks r.children).countP (·.1 == .colon) = 1 + row.second.toList.length := by
    rw [hc, marks_append, List.countP_append, hbehind, h.countP_marks (soundAll_append.1 hs).1,
      Nat.add_zero]
  rw [h.isDouble_eq hs hseat, Node.isDoubleColon, Node.tokens_eq, hcount]
  cases row.second with
  | none => rfl
  | some n => rfl

theorem assignment (h : row.Cut ns) (hr : p.tree = r.tree) {us : List Tree}
    (hc : r.children = row.trees ++ (.node .assignment us :: ts))
    (hheld : Held ns [.node .assignment us]) (hs : SoundAll (row.nests ++ ns))
    (hseat : Seated p.start ((row.nests ++ ns) ++ after)) :
    ∃ (a : Assignment), ∃ q ∈ p.parts, r.targetAssignment? = some a ∧ q.tree = a.tree ∧
      q.Spells ((tokensOf (row.blanks ++ ns)).dropWhile Token.isBlank) := by
  obtain ⟨hrows, hns⟩ := soundAll_append.1 hs
  have hblanks := (TargetRow.sound_parts hrows).2.2
  have hdrop : (tokensOf (row.blanks ++ ns)).dropWhile Token.isBlank =
      tokensOf ((row.blanks ++ ns).dropWhile isWhitespace) :=
    dropWhile_tokensOf (q := (· == .whitespace)) rfl (soundAll_append.2 ⟨hblanks, hns⟩)
  have hfront : .assignment ∉ kinds row.trees := by
    rw [h.kinds_trees hrows]
    decide
  refine ⟨⟨us⟩, _, Placed.mem_parts hr hc, Node.node?_append hc hfront, rfl, ?_⟩
  rw [List.append_assoc] at hseat
  rw [hdrop, h.blanks.dropWhile]
  exact spells_of_held hheld (h.listing.held.seat hseat).split.1 _

end TargetRow.Cut

theorem Rule.Rows.targetAssignment?_eq {l : ListRow} {us tail : List Nest}
    (h : r.Rows row l us tail ts vs items) : r.targetAssignment? = none := by
  have hc : r.children = (row.trees ++ (l.trees .prerequisites ++ ts)) ++ (vs ++ items) := by
    simp [h.children]
  refine Node.node?_eq_none fun hm => ?_
  rw [Node.nodeKinds, hc, kinds_append] at hm
  rcases List.mem_append.1 hm with hm | hm
  · exact absurd (h.kinds_front hm) (by decide)
  · exact absurd (h.kinds_behind hm) (by decide)

/-- A rule is what the tokens of its first line tell. -/
theorem TargetRow.Cut.hasHeader (hr : p.tree = r.tree)
    (hc : r.children = (row.trees ++ vs) ++ items)
    (hitems : ∀ u ∈ items, ∃ k ws, u = .node k ws ∧ k ∈ NodeKind.recipeItems)
    (hrow : row.Cut ns) (hrest : RestRow ns continues vs) (hsolid : ∀ n ∈ ns, Solid n)
    (hs : SoundAll (row.nests ++ ns)) (hseat : Seated p.start ((row.nests ++ ns) ++ after)) :
    p.HasHeader r (tokensOf (row.nests ++ ns)) := by
  obtain ⟨hikinds, himarks⟩ := items_parts hitems
  obtain ⟨hrows, hns⟩ := soundAll_append.1 hs
  have hblanks := (TargetRow.sound_parts hrows).2.2
  have hassigns := assigns_tokensOf (soundAll_append.2 ⟨hblanks, hns⟩) hrow.blanks.all hsolid
  have hrest_eq := hrow.rest_eq hs hseat.split.1
  have hfront : r.children = row.trees ++ (vs ++ items) := by rw [hc, List.append_assoc]
  have hcolons : ∀ m ∈ marks (vs ++ items), m.1 ≠ .colon := by
    rw [marks_append, himarks, List.append_nil]
    exact hrest.no_colon hns
  have hcolon : Token.onward Token.isColon (tokensOf (row.nests ++ ns)) ≠ [] := by
    rw [hrow.onward_eq hs]
    exact List.cons_ne_nil _ _
  have htargets := hrow.lists_targets hr hfront hs hseat
  have hdouble := hrow.isDoubleColon_eq hfront hcolons hs hseat.split.1
  cases hrest with
  | assigns ha hheld =>
    have hyes := hassigns.trans ha
    rw [← hrest_eq] at hyes
    refine ⟨hcolon, htargets, hdouble, fun _ => ?_, ?_, ?_⟩
    · rw [hrest_eq]
      exact hrow.assignment hr hfront hheld hs hseat
    · exact fun hno => absurd (hno.symm.trans hyes) (by decide)
    · exact fun hno => absurd (hno.symm.trans hyes) (by decide)
  | lists ha hl ho he =>
    have hno := hassigns.trans ha
    rw [← hrest_eq] at hno
    have hrows : r.Rows .. := ⟨hc, hikinds, hrow, hl, ho, he, hs⟩
    refine ⟨hcolon, htargets, hdouble, ?_, fun _ => ?_, fun _ => ?_⟩
    · exact fun hyes => absurd (hno.symm.trans hyes) (by decide)
    · rw [hrest_eq]
      exact ⟨hrows.targetAssignment?_eq, hrows.prerequisites hr hseat, hrows.orderOnly hr hseat⟩
    · rw [hrest_eq]
      exact hrows.command hr hseat

end Header

/-- The targets of a rule, its colons, an assignment for the targets or the lists of prerequisites
and a command are told by the tokens of its first line. -/
theorem parse_ruleHeader {text : Text} {options : Options} {t : Tree}
    (h : (parse text options).result = .ok t) {p : Placed} (hp : p ∈ t.subtrees) {r : Rule}
    (hr : p.tree = r.tree) : ∃ before head recipe after,
      (Lexer.start text options.recipePrefix).Occupies p before (head :: recipe) after ∧
      Token.level 0 (before.flatten.map Nest.token) = 0 ∧ p.HasHeader r (head.map Nest.token) := by
  rw [parse_result_start] at h
  have hs := Lexer.soundAll_lines h
  have hlexed := Lexer.lexed_lines (Lexer.refusal_eq_none.1 (Lexer.result_ok h).1).2
  obtain ⟨before, _, used, after, hlines, hocc, hseat, hsolid, row, ns, continues, vs, ts, rfl, hc,
    hrow, hrest, hitems⟩ := Lexer.rule_line h hp hr
  rw [hlines] at hs hlexed
  have hmine : Line.Lexed (((row.nests ++ ns) :: used) ++ after) := hlexed.right
  rw [Line.rows_cons_solid hmine.left.cut (by simpa using hmine.left.head.closed) hsolid] at hocc
  simp only [List.flatten_append, List.flatten_cons, Nest.soundAll_append] at hs
  refine ⟨_, _, _, _, hocc, ?_, ?_⟩
  · rw [Line.flatten_rows]
    exact Nest.level_tokensOf (Nest.closedAll_of_soundAll hs.1) 0
  · exact hrow.hasHeader hr hc hitems hrest (fun n hn => hsolid n (List.mem_append_right _ hn))
      (Nest.soundAll_append.2 hs.2.1) hseat

/-- With a double colon, both lists and a command with a comment in it. -/
theorem parse_ruleHeader_lists : ∃ (t : Tree) (p : Placed) (r : Rule),
    (parse "a::b|c;d #e\n".toList {}).result = .ok t ∧ p ∈ t.subtrees ∧ p.tree = r.tree ∧
      r.isDoubleColon = true ∧ ∃ before head recipe after,
        (Lexer.start "a::b|c;d #e\n".toList '\t').Occupies p before (head :: recipe) after ∧
        Token.level 0 (before.flatten.map Nest.token) = 0 ∧
        p.HasHeader r (head.map Nest.token) := by
  let word (s : Text) : Tree := .node .expression [.leaf (.token .plainText) s]
  let r : Rule := ⟨[.node .targets [word ['a']],
    .leaf (.token .colon) [':'], .leaf (.token .colon) [':'],
    .node .prerequisites [word ['b']], .leaf (.token .plainText) ['|'],
    .node .orderOnly [word ['c']],
    .node .recipe [.leaf (.token .plainText) [';'],
      .node .expression [.leaf (.token .plainText) ['d'], .leaf (.token .whitespace) [' '],
        .leaf (.token .comment) ['#', 'e']],
      .leaf (.token .lineBreak) ['\n']]]⟩
  have h : (parse "a::b|c;d #e\n".toList {}).result = .ok (.node .root [r.tree]) := by cbv
  have hp : (⟨1, 0, r.tree⟩ : Placed) ∈ (Tree.node .root [r.tree]).subtrees :=
    List.mem_cons_of_mem _ List.mem_cons_self
  exact ⟨_, _, r, h, hp, rfl, rfl, parse_ruleHeader h hp rfl⟩

end MakeTree
