import MakeTree.Proofs.Grammar.RuleRow
import MakeTree.Proofs.Grammar.TestRow

/-!
Where conditionals come from. What stands directly in a part of a conditional was parsed as such a
part, on the text from where it stands (`Origin.part`), and so were the conditionals of a recipe
(`Occurs.recipe_part`) and those among statements (`Occurs.statement_conditional`).
-/

namespace MakeTree

namespace Tree

variable {p : Placed} {depth start : Nat} {ts us : List Tree} {k : NodeKind}

theorem mem_kinds_of_mem_seats (hp : p ∈ seats depth start ts) (hk : p.tree.kind = .node k) :
    k ∈ kinds ts := by
  have hm : p.tree ∈ ts := by
    rw [← map_tree_seats depth start ts]
    exact List.mem_map_of_mem hp
  obtain ⟨vs, ht⟩ := eq_node_of_kind hk
  rw [ht] at hm
  exact List.mem_map_of_mem (mem_nodesOf.2 hm)

theorem mem_seats_right (hp : p ∈ seats depth start (ts ++ us)) (hk : p.tree.kind = .node k)
    (hn : k ∉ kinds ts) : p ∈ seats depth (start + (textOf ts).byteSize) us := by
  rw [seats_append] at hp
  rcases List.mem_append.1 hp with hp | hp
  · exact absurd (mem_kinds_of_mem_seats hp hk) hn
  · exact hp

theorem mem_seats_left (hp : p ∈ seats depth start (ts ++ us)) (hk : p.tree.kind = .node k)
    (hn : k ∉ kinds us) : p ∈ seats depth start ts := by
  rw [seats_append] at hp
  rcases List.mem_append.1 hp with hp | hp
  · exact hp
  · exact absurd (mem_kinds_of_mem_seats hp hk) hn

end Tree

theorem Line.isConditional_of_mem_statementKinds {line : Line} (h : .conditional ∈ line.statementKinds) :
    line.IsConditional := by
  rw [statementKinds] at h
  cases ha : afterLeading line with
  | nil =>
    rw [ha] at h
    cases h
  | cons n ns =>
    simp only [ha] at h
    cases hk : n.kind with
    | keyword w =>
      cases w with
      | conditional c => exact ⟨c, by rw [ha, List.head?_cons, Option.map_some, hk]⟩
      | _ => simp [hk] at h
    | lineBreak => simp [hk] at h
    | comment => simp [hk] at h
    | _ =>
      simp only [hk] at h
      split at h <;> simp at h

namespace Parser

open MakeTree.Tree

section Closings

variable {ns : List Nest}

theorem gives_advance_treesOf : Gives advance ns fun _ _ ts => ∃ us, ts = Nest.treesOf us := by
  intro outer es a s h
  cases h
  exact ⟨_, rfl, _, rfl⟩

theorem gives_elseKeyword : Gives elseKeyword ns fun _ _ ts => ∃ us, ts = Nest.treesOf us := by
  refine gives_bind gives_moveWhile fun _ ms ts hm => ?_
  obtain ⟨us, -, rfl, -⟩ := hm
  refine gives_bind gives_advance_treesOf fun _ ms ts hm => ?_
  obtain ⟨vs, rfl⟩ := hm
  refine gives_moveWhile.mono ?_
  rintro _ ms ts ⟨ws, -, rfl, -⟩
  exact ⟨us ++ (vs ++ ws), by rw [Nest.treesOf_append, Nest.treesOf_append]⟩

theorem gives_endif (ctx : Context) :
    Gives (endif ctx) ns fun _ _ ts => ∃ us, ts = Nest.treesOf us := by
  refine gives_unread_bind (gives_ite (fun _ => ?_) fun _ => ?_)
  · refine gives_bind gives_moveWhile fun _ ms ts hm => ?_
    obtain ⟨us, -, rfl, -⟩ := hm
    refine gives_bind gives_advance_treesOf fun _ ms ts hm => ?_
    obtain ⟨vs, rfl⟩ := hm
    refine gives_endsLine.mono ?_
    rintro _ ms ts ⟨ws, -, rfl, -⟩
    exact ⟨us ++ (vs ++ ws), by rw [Nest.treesOf_append, Nest.treesOf_append]⟩
  · intro outer es a s h
    cases h

end Closings

/-- In the parse of a file the task builds the trees, which stand at the offset. -/
structure Occurs (file : List Nest) (task : Task) (lines : List Line) (start : Nat)
    (ts : List Tree) : Prop where
  suffix : task.line ++ lines.flatten <:+ file
  seated : Nest.Seated start (task.line ++ lines.flatten)
  parses : ∃ rest, Parses task lines ts rest

variable {file : List Nest} {ctx : Context} {line : Line} {lines : List Line} {start depth : Nat}
  {ts us : List Tree} {p q : Placed}

theorem Occurs.behind {task task' : Task} {lines' : List Line} {used : List Nest} {vs : List Tree}
    (h : Occurs file task lines start ts)
    (hs : task.line ++ lines.flatten = used ++ (task'.line ++ lines'.flatten)) (held : Spans used us)
    (hp : ∃ rest, Parses task' lines' vs rest) :
    Occurs file task' lines' (start + (textOf us).byteSize) vs where
  suffix := (List.suffix_append used _).trans (hs ▸ h.suffix)
  seated := held.seat (hs ▸ h.seated)
  parses := hp

theorem not_mem_kinds_treesOf {k : NodeKind} {ns : List Nest} (hk : k ≠ .expression)
    (hk' : k ≠ .expansion) : k ∉ kinds (Nest.treesOf ns) := fun h =>
  (Nest.kinds_treesOf h).elim hk hk'

theorem not_mem_kinds_header {hd : List Tree} (h : Takes conditionalHeader line () [] hd)
    {k : NodeKind} (hk : k ∉ [.condition, .expression, .expansion]) : k ∉ kinds hd := by
  obtain ⟨r, test, -, rfl, -⟩ := gives_conditionalHeader.of_takes h
  simp only [List.mem_cons, List.not_mem_nil, or_false, not_or] at hk
  rw [HeaderRow.trees, kinds_append, kinds_node]
  simp only [List.mem_append, List.mem_cons, not_or]
  exact ⟨not_mem_kinds_treesOf hk.2.1 hk.2.2, hk.1, not_mem_kinds_treesOf hk.2.1 hk.2.2⟩

theorem Occurs.conditional (h : Occurs file (.conditional ctx line) lines start [.node ctx.node us]) :
    ∃ hd br mid after cl, us = hd ++ .node ctx.branch br :: cl ∧
      Takes conditionalHeader line () [] hd ∧
      Occurs file (.branch ctx) lines (start + (textOf hd).byteSize) br ∧
      Occurs file (.closing ctx mid) after
        (start + (textOf hd).byteSize + (textOf br).byteSize) cl := by
  obtain ⟨rest, hp⟩ := h.parses
  generalize ht : [Tree.node ctx.node us] = ts at hp
  cases hp with
  | @conditional _ _ mid _ after _ hd br cl hh held solid hb hc =>
    obtain ⟨-, rfl⟩ := Tree.node.inj (List.cons.inj ht).1
    have hbranch : Occurs file (.branch ctx) lines (start + (textOf hd).byteSize) br :=
      h.behind rfl held.spans ⟨_, hb⟩
    obtain ⟨used, hu, hspan⟩ := hb.extent
    refine ⟨hd, br, mid, after, cl, rfl, hh, hbranch, hbranch.behind ?_ hspan ⟨_, hc⟩⟩
    rw [hu, List.flatten_append, List.flatten_cons]
    rfl

/-- What a node was parsed as. -/
inductive Origin (file : List Nest) (p : Placed) : NodeKind → Prop
  | conditional {ctx : Context} {line : Line} {lines : List Line}
      (h : Occurs file (.conditional ctx line) lines p.start [p.tree]) : Origin file p ctx.node
  | branch {ctx : Context} {lines : List Line}
      (h : Occurs file (.branch ctx) lines p.start p.tree.children) : Origin file p ctx.branch
  | otherwise {ctx : Context} {line : Line} {lines : List Line} {ts : List Tree}
      (h : Occurs file (.closing ctx line) lines p.start (p.tree :: ts)) : Origin file p .elseBranch

theorem Occurs.closing_part {k : NodeKind} (h : Occurs file (.closing ctx line) lines start ts)
    (hp : p ∈ seats depth start ts) (hk : p.tree.kind = .node k) (he : k ≠ .expression)
    (hx : k ≠ .expansion) : k = .elseBranch ∧ p.start = start ∧ ∃ us, ts = p.tree :: us := by
  have front {us vs : List Tree} (hp : p ∈ seats depth start (.node .elseBranch us :: vs))
      (hvs : k ∉ kinds vs) :
      k = .elseBranch ∧ p.start = start ∧ ∃ ws, .node .elseBranch us :: vs = p.tree :: ws := by
    have hp : p ∈ seats depth start ([.node .elseBranch us] ++ vs) := hp
    obtain rfl := List.mem_singleton.1 (mem_seats_left hp hk hvs)
    exact ⟨(Kind.node.inj hk).symm, rfl, vs, rfl⟩
  obtain ⟨rest, hparses⟩ := h.parses
  cases hparses with
  | closingEndif _ ht _ _ =>
    obtain ⟨us, rfl⟩ := (gives_endif ctx).of_takes ht
    exact absurd (mem_kinds_of_mem_seats hp hk) (not_mem_kinds_treesOf he hx)
  | closingChained => exact front hp (by simp)
  | closingOtherwise _ _ _ _ _ _ _ _ _ hm hc =>
    obtain ⟨-, ht⟩ := takes_endif_of_closing hm hc.runs
    obtain ⟨us, rfl⟩ := (gives_endif ctx).of_takes ht
    exact front hp (not_mem_kinds_treesOf he hx)

theorem Occurs.else_part {vs : List Tree}
    (h : Occurs file (.closing ctx line) lines start (.node .elseBranch us :: vs)) {k : NodeKind}
    (hp : p ∈ seats depth start us) (hk : p.tree.kind = .node k) (he : k ≠ .expression)
    (hx : k ≠ .expansion) : Origin file p k := by
  obtain ⟨rest, hparses⟩ := h.parses
  generalize ht : Tree.node .elseBranch us :: vs = ts at hparses
  cases hparses with
  | closingEndif _ hend _ _ =>
    obtain ⟨ns, rfl⟩ := (gives_endif ctx).of_takes hend
    have hm : NodeKind.elseBranch ∈ kinds (Nest.treesOf ns) := by
      rw [← ht]
      exact List.mem_cons_self
    exact absurd hm (not_mem_kinds_treesOf (by decide) (by decide))
  | @closingChained _ used line' _ _ hd ts _ helse held _ _ hc =>
    obtain ⟨-, rfl⟩ := Tree.node.inj (List.cons.inj ht).1
    obtain ⟨ns, rfl⟩ := gives_elseKeyword.of_takes helse
    have hp := mem_seats_right hp hk (not_mem_kinds_treesOf he hx)
    have hocc : Occurs file (.conditional ctx line') lines _ ts :=
      h.behind (List.append_assoc used line' lines.flatten) held.spans ⟨_, hc⟩
    cases hc with
    | conditional =>
      obtain rfl := List.mem_singleton.1 hp
      obtain rfl := Kind.node.inj hk
      exact .conditional hocc
  | @closingOtherwise _ used line' mid _ after _ hd el br ts _ helse held _ _ hend held' _ hb _ _ =>
    obtain ⟨-, rfl⟩ := Tree.node.inj (List.cons.inj ht).1
    obtain ⟨ns, rfl⟩ := gives_elseKeyword.of_takes helse
    obtain ⟨ms, -, rfl, -⟩ := gives_endsLine.of_takes hend
    have hp := mem_seats_right (mem_seats_right hp hk (not_mem_kinds_treesOf he hx)) hk
      (not_mem_kinds_treesOf he hx)
    obtain rfl := List.mem_singleton.1 hp
    obtain rfl := Kind.node.inj hk
    have hspans := held.spans.append held'.spans
    have hocc : Occurs file (.branch ctx) lines _ br := h.behind rfl hspans ⟨_, hb⟩
    rw [textOf_append, Text.byteSize_append, ← Nat.add_assoc] at hocc
    exact .branch hocc

theorem Occurs.conditional_part {k : NodeKind}
    (h : Occurs file (.conditional ctx line) lines start [.node ctx.node us])
    (hp : p ∈ seats depth start us) (hk : p.tree.kind = .node k)
    (hn : k ∉ [.condition, .expression, .expansion]) : Origin file p k := by
  obtain ⟨hd, br, mid, after, cl, rfl, hh, hb, hc⟩ := h.conditional
  have hp := mem_seats_right hp hk (not_mem_kinds_header hh hn)
  simp only [List.mem_cons, List.not_mem_nil, or_false, not_or] at hn
  rcases List.mem_cons.1 hp with rfl | hp
  · obtain rfl := Kind.node.inj hk
    exact .branch hb
  · have htext : (Tree.node ctx.branch br).text = textOf br := rfl
    rw [htext] at hp
    obtain ⟨rfl, hstart, ts, rfl⟩ := hc.closing_part hp hk hn.2.1 hn.2.2
    exact .otherwise (hstart ▸ hc)

theorem Occurs.items {task : Task} {mid rest : List Line}
    (h : Occurs file task (line :: lines) start (ts ++ us)) (ht : task.line = [])
    (hi : Parses (.item line) lines ts mid) (hr : Parses task mid us rest) :
    Occurs file (.item line) lines start ts ∧
      Occurs file task mid (start + (textOf ts).byteSize) us := by
  have hline : task.line ++ (line :: lines).flatten = line ++ lines.flatten := by
    rw [ht, List.nil_append, List.flatten_cons]
  obtain ⟨used, rfl, hspan⟩ := hi.extent
  refine ⟨⟨hline ▸ h.suffix, hline ▸ h.seated, _, hi⟩, h.behind ?_ hspan ⟨_, hr⟩⟩
  rw [hline, ht, List.flatten_append, ← List.append_assoc]
  rfl

theorem Occurs.condition_part
    (h : Occurs file (.conditional ctx line) lines start [.node ctx.node us])
    (hp : p ∈ seats depth start us) (hk : p.tree.kind = .node .condition) :
    ∃ (r : HeaderRow) (test : List Nest) (ts : List Tree), line = r.front ++ test ∧ r.Cut test [] ∧
      us = r.trees ++ ts ∧
      p = ⟨depth, start + (textOf (Nest.treesOf r.front)).byteSize, .node .condition r.test⟩ := by
  obtain ⟨hd, br, mid, after, cl, rfl, hh, -, hc⟩ := h.conditional
  obtain ⟨r, test, rfl, rfl, hr⟩ := gives_conditionalHeader.of_takes hh
  refine ⟨r, test, _, rfl, hr, rfl, ?_⟩
  have hnot (ns : List Nest) : .condition ∉ kinds (Nest.treesOf ns) :=
    not_mem_kinds_treesOf (by decide) (by decide)
  rw [seats_append] at hp
  rcases List.mem_append.1 hp with hp | hp
  · rcases List.mem_cons.1 (mem_seats_right hp hk (hnot r.front)) with hp | hp
    · exact hp
    · exact absurd (mem_kinds_of_mem_seats hp hk) (hnot r.ending)
  · rcases List.mem_cons.1 hp with rfl | hp
    · cases ctx <;> cases hk
    · have htext : (Tree.node ctx.branch br).text = textOf br := rfl
      rw [htext] at hp
      cases (hc.closing_part hp hk (by decide) (by decide)).1

theorem Occurs.recipe_part {task : Task} (h : Occurs file task lines start ts)
    (ht : task = .recipes ∨ task = .branch .recipe) (hp : p ∈ seats depth start ts)
    (hk : p.tree.kind = .node Context.recipe.node) : Origin file p Context.recipe.node := by
  obtain ⟨rest, hparses⟩ := h.parses
  have item {line : Line} {lines : List Line} {start : Nat} {ts : List Tree}
      (h : Occurs file (.item line) lines start ts) (hp : p ∈ seats depth start ts) :
      Origin file p Context.recipe.node := by
    obtain ⟨rest, hi⟩ := h.parses
    obtain ⟨k, us, rfl, hin⟩ | hc := hi.item_trees
    · obtain rfl := List.mem_singleton.1 hp
      obtain rfl := Kind.node.inj hk
      exact absurd hin (by decide)
    · have hocc : Occurs file (.conditional .recipe line) lines start ts :=
        ⟨h.suffix, h.seated, _, hc⟩
      cases hc with
      | conditional =>
        obtain rfl := List.mem_singleton.1 hp
        exact .conditional hocc
  induction hparses generalizing start with
  | recipesEnd => cases hp
  | branchEnd => cases hp
  | recipesItem _ hi hr _ ih =>
    obtain ⟨hfirst, hrest⟩ := h.items rfl hi hr
    rw [seats_append] at hp
    exact (List.mem_append.1 hp).elim (item hfirst) (ih hrest (.inl rfl))
  | @branchEntry ctx line lines mid rest ts us _ hi hb _ ih =>
    obtain rfl : ctx = .recipe := by simpa using ht
    obtain ⟨hfirst, hrest⟩ := h.items rfl hi hb
    rw [seats_append] at hp
    exact (List.mem_append.1 hp).elim (item hfirst) (ih hrest (.inr rfl))
  | _ =>
    rcases ht with ht | ht
    · cases ht
    · cases ht

/-- What stands directly in a node comes from what that was parsed as. -/
theorem Origin.part {j k : NodeKind} (h : Origin file q j) (hj : q.tree.kind = .node j)
    (hp : p ∈ q.parts) (hk : p.tree.kind = .node k) (hn : k ∉ [.condition, .expression, .expansion])
    (hb : j ≠ .branch) (hr : j = .recipeBranch → k = .recipeConditional) : Origin file p k := by
  obtain ⟨us, hq⟩ := eq_node_of_kind hj
  rw [Placed.parts, hq, Tree.children] at hp
  cases h with
  | conditional h =>
    rw [hq] at h
    exact h.conditional_part hp hk hn
  | otherwise h =>
    rw [hq] at h
    simp only [List.mem_cons, List.not_mem_nil, or_false, not_or] at hn
    exact h.else_part hp hk hn.2.1 hn.2.2
  | @branch ctx lines h =>
    rw [hq] at h
    cases ctx with
    | statements => exact absurd rfl hb
    | recipe =>
      obtain rfl := hr rfl
      exact h.recipe_part (.inr rfl) hp hk

theorem Origin.occurs {k : NodeKind} (h : Origin file p k)
    (hk : k = .conditional ∨ k = .recipeConditional) :
    ∃ ctx line lines, k = Context.node ctx ∧
      Occurs file (.conditional ctx line) lines p.start [p.tree] := by
  cases h with
  | conditional h => exact ⟨_, _, _, rfl, h⟩
  | @branch ctx => cases ctx <;> rcases hk with hk | hk <;> cases hk
  | otherwise => rcases hk with hk | hk <;> cases hk

theorem StatementAt.occurs {file : List Line} (h : StatementAt file p) : ∃ line lines,
    line :: lines <:+ file ∧ Occurs file.flatten (.statement line) lines p.start [p.tree] := by
  obtain ⟨line, lines, rest, ⟨before, rfl⟩, hseat, hp⟩ := h
  refine ⟨line, lines, List.suffix_append before _, ⟨before.flatten, ?_⟩, hseat, rest, hp⟩
  rw [List.flatten_append]
  rfl

section Statement

variable (hl : line.Good) (hg : GoodLines lines)

include hl hg

theorem Occurs.statement_conditional
    (h : Occurs file (.statement line) lines start [.node .conditional us]) :
    Occurs file (.conditional .statements line) lines start [.node .conditional us] := by
  obtain ⟨rest, hp⟩ := h.parses
  have hc := Line.isConditional_of_mem_statementKinds (hp.mem_statementKinds hl)
  obtain ⟨r, hr, hrun⟩ : TakesRest (statement lines) line rest [] [.node .conditional us] := hp.runs
  obtain ⟨es, hrun⟩ := hrun [] []
  obtain ⟨es', he⟩ := statement_of_isConditional hc lines [] []
  rw [he] at hrun
  obtain ⟨k, hk⟩ := hc
  obtain ⟨ts, -, hb, hp⟩ :=
    (soundBelow lines.length).conditional_of hl hg .statements hk _ _ _ _ hrun
  obtain rfl : [.node .conditional us] = ts := hb
  exact ⟨h.suffix, h.seated, _, hp⟩

theorem Occurs.rule_part (h : Occurs file (.statement line) lines start [.node .rule us])
    (hs : Line.Sound line) (hp : p ∈ seats depth start us)
    (hk : p.tree.kind = .node Context.recipe.node) : Origin file p Context.recipe.node := by
  obtain ⟨rest, hparses⟩ := h.parses
  obtain ⟨hr, continues, hd, ts, rfl, ht, hrec, hend⟩ := hparses.rule_parts hl hg
  have hheld : Held line hd :=
    held_of_consumes (fun k _ => consumes_ruleHeader reads_held hl.single) hl.closed ht
      (List.append_nil line).symm
  have hheaded : Headed continues hd := ((builds_ruleHeader (k := .rule) rfl hr).of_takes hs ht).2.1
  have hp := mem_seats_right hp hk fun hm => absurd (hheaded.kinds_subset hm) (by decide)
  cases continues with
  | true =>
    have hocc : Occurs file .recipes lines _ ts := h.behind rfl hheld.spans ⟨_, hrec rfl⟩
    exact hocc.recipe_part (.inl rfl) hp hk
  | false =>
    rw [(hend rfl).1] at hp
    cases hp

end Statement

end Parser

end MakeTree
