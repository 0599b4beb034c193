import MakeTree.Proofs.Grammar.StatementBuilds

/-!
What the rules build that call each other: conditionals, recipes and statements
(`builds_statements`), and how the commands of a rule begin (`Ruled`).
Each is proved from all rules on fewer lines (`BuildsBelow`).
-/

namespace MakeTree

namespace Context

/-- What a branch is made of. -/
def entries : Context → List NodeKind
  | statements => .blankLine :: NodeKind.statements
  | recipe => NodeKind.recipeItems

theorem bearsComments_node (ctx : Context) : ctx.node.bearsComments = true := by cases ctx <;> rfl

end Context

namespace Tree

/-- A conditional from the end of its first branch on: an `endif`, which an `else` with a branch may
come before, or an `else` with a conditional, which owns the `endif`. -/
inductive Finished (ctx : Context) (ts : List Tree) : Prop
  | plain (hi : nodesOf ts = []) (he : ∃ s, (.keyword .endif, s) ∈ marks ts)
  | branched {us : List Tree} (hi : nodesOf ts = [(.elseBranch, us)]) (hk : kinds us = [ctx.branch])
      (he : ∃ s, (.keyword .endif, s) ∈ marks ts)
  | chained {us : List Tree} (hi : nodesOf ts = [(.elseBranch, us)]) (hk : kinds us = [ctx.node])
      (he : ∀ s, (.keyword .endif, s) ∉ marks ts)

/-- A rule: at most one command on the first line, behind a semicolon, and on the lines after it
commands that a recipe prefix leads. -/
def Ruled (us : List Tree) : Prop := ∃ vs ls ms, nodesOf us = vs ++ (ls ++ ms) ∧
  (∀ v ∈ vs, v.1 ∉ NodeKind.recipeItems) ∧ Inlined ls ∧ Prefixed ms

theorem Introduced.ruled {hd ts : List Tree} (h : Introduced hd) (h' : Prefixed (nodesOf ts)) :
    Ruled (hd ++ ts) := by
  obtain ⟨vs, ls, hn, hvs, hinlined⟩ := h
  exact ⟨vs, ls, nodesOf ts, by rw [nodesOf_append, hn, List.append_assoc], hvs, hinlined, h'⟩

theorem Prefixed.append {ls ms : List (NodeKind × List Tree)} (h : Prefixed ls)
    (h' : Prefixed ms) : Prefixed (ls ++ ms) :=
  fun us hus => (List.mem_append.1 hus).elim (h us) (h' us)

end Tree

namespace Parser

open MakeTree.Tree

variable {k : NodeKind} {line : Line} {lines : List Line}

/-- Whole lines that are statements, from `line` on, with rules and definitions as they have to be.
-/
structure Stated (line : Line) (lines : List Line) (ms : Line) (ts : List Tree) : Prop where
  among : Among Context.statements.entries () ms ts
  rules : ∀ us, (.rule, us) ∈ nodesOf ts → Ruled us
  definitions : ∀ us, (.definition, us) ∈ nodesOf ts → Defined line lines us

/-- Whole lines of a recipe. -/
structure Itemized (ms : Line) (ts : List Tree) : Prop where
  among : Among Context.recipe.entries () ms ts
  prefixed : Prefixed (nodesOf ts)

section Whole

variable {α : Type} {j : NodeKind} {a : α} {ms : Line} {ts : List Tree}

theorem Whole.notMem {i : NodeKind} (h : Whole j a ms ts) (hi : i ≠ j) (us : List Tree) :
    (i, us) ∉ nodesOf ts := by
  obtain ⟨-, vs, rfl⟩ := h
  intro hm
  exact hi (Prod.mk.inj (List.mem_singleton.1 hm)).1

theorem Whole.stated (h : Whole j a ms ts)
    (hj : j ∈ Context.statements.entries ∧ .rule ≠ j ∧ .definition ≠ j) : Stated line lines ms ts :=
  ⟨h.among hj.1, fun us hus => absurd hus (h.notMem hj.2.1 us),
    fun us hus => absurd hus (h.notMem hj.2.2 us)⟩

theorem Whole.itemized (h : Whole j a ms ts) (hj : j ∈ Context.recipe.entries ∧ .recipe ≠ j) :
    Itemized ms ts :=
  ⟨h.among hj.1, fun us hus => absurd hus (h.notMem hj.2 us)⟩

theorem over_stated {p : Parser Unit} (h : Builds k p line (Whole j))
    (hj : j ∈ Context.statements.entries ∧ .rule ≠ j ∧ .definition ≠ j) :
    BuildsOver k (oneLine lines p) remaining line lines fun _ => Stated line lines :=
  over_oneLine (h.mono fun _ _ _ hm => hm.stated hj)

theorem over_itemized {p : Parser Unit} (h : Builds k p line (Whole j))
    (hj : j ∈ Context.recipe.entries ∧ .recipe ≠ j) :
    BuildsOver k (oneLine lines p) remaining line lines fun _ => Itemized :=
  over_oneLine (h.mono fun _ _ _ hm => hm.itemized hj)

end Whole

section Conforms

theorem conforms_branch (ctx : Context) {ts : List Tree} (h : kinds ts ⊆ ctx.entries) :
    Node.Conforms (k := ctx.branch) ⟨ts⟩ := by
  cases ctx <;> exact h

theorem length_expressions {us : List Tree} {count : Nat}
    (h : kinds us = List.replicate count .expression) :
    (Node.nodes (k := k) ⟨us⟩ .expression).length = count := by
  have hall : ∀ u ∈ nodesOf us, u.1 = .expression := fun u hu => by
    have hm : u.1 ∈ List.replicate count NodeKind.expression := h ▸ List.mem_map_of_mem hu
    exact (List.mem_replicate.1 hm).2
  have hlen : (nodesOf us).length = count := by
    rw [← List.length_map Prod.fst, ← kinds, h, List.length_replicate]
  rw [Node.nodes_eq, NodeKind.pick, List.length_filterMap_eq_countP, ← hlen]
  exact List.countP_eq_length.2 fun u hu => by simp [hall u hu]

theorem isConditional {c : ConditionalKind} {ctx : Context} {hd br cl : List Tree}
    (h : Tested c hd) (h' : Finished ctx cl) :
    Node.IsConditional (k := k) ctx ⟨hd ++ (.node ctx.branch br :: cl)⟩ := by
  obtain ⟨us, hi, hus⟩ := h.condition
  have hhd : kinds hd = [.condition] := kinds_of_one hi
  have hne (j : NodeKind) (hj : j = .condition ∨ j = .elseBranch) : ctx.branch ≠ j := by
    cases ctx <;> rcases hj with rfl | rfl <;> decide
  have hb : ctx.branch ≠ .condition := hne _ (.inl rfl)
  have hb' : ctx.branch ≠ .elseBranch := hne _ (.inr rfl)
  have htok (s : Text) : (.keyword .endif, s) ∈ marks (hd ++ (.node ctx.branch br :: cl)) ↔
      (.keyword .endif, s) ∈ marks cl := by
    simp [h.endif s]
  have hend : Node.hasEndif (k := k) ⟨hd ++ (.node ctx.branch br :: cl)⟩ = true ↔
      ∃ s, (.keyword .endif, s) ∈ marks cl := by
    rw [Node.hasEndif, Node.token?_isSome]
    exact exists_congr htok
  refine ⟨⟨c, ⟨us⟩, ?_, ?_, ?_⟩, ?_⟩
  · have hc : conditional? (hd ++ (.node ctx.branch br :: cl)) = some c := by
      rw [conditional?_append, h.keyword]
      rfl
    exact hc
  · simp [Node.condition?, Node.node?, Node.nodes_eq, hi, NodeKind.pick]
  · exact length_expressions hus
  · have helse {vs : List Tree} (hv : nodesOf cl = [(.elseBranch, vs)]) :
        Node.elseNode? (k := k) ⟨hd ++ (.node ctx.branch br :: cl)⟩ = some ⟨vs⟩ := by
      simp [Node.elseNode?, Node.node?, Node.nodes_eq, hi, hv, NodeKind.pick, hb']
    have hkinds {vs : List Tree} (hv : nodesOf cl = [(.elseBranch, vs)]) :
        kinds (hd ++ (.node ctx.branch br :: cl)) = [.condition, ctx.branch, .elseBranch] := by
      simp [hhd, kinds_of_one hv]
    cases h' with
    | plain hv he => exact .inl ⟨by simp [Node.nodeKinds, hhd, kinds_of_nodesOf hv], hend.2 he⟩
    | branched hv hk he => exact .inr ⟨hkinds hv, _, helse hv, .inl ⟨hend.2 he, hk⟩⟩
    | chained hv hk he =>
      refine .inr ⟨hkinds hv, _, helse hv, .inr ⟨?_, hk⟩⟩
      rw [← Bool.not_eq_true, hend, not_exists]
      exact he

theorem conforms_conditional {c : ConditionalKind} {ctx : Context} {hd br cl : List Tree}
    (h : Tested c hd) (h' : Finished ctx cl) :
    Node.Conforms (k := ctx.node) ⟨hd ++ (.node ctx.branch br :: cl)⟩ := by
  cases ctx
  · exact isConditional (k := .conditional) h h'
  · exact isConditional (k := .recipeConditional) h h'

theorem conforms_elseBranch (ctx : Context) {ts : List Tree}
    (h : kinds ts = [ctx.branch] ∨ kinds ts = [ctx.node]) :
    Node.Conforms (k := .elseBranch) ⟨ts⟩ := ⟨ctx, h⟩

theorem conforms_rule {continues : Bool} {hd ts : List Tree} (h : Headed continues hd)
    (hk : kinds ts ⊆ if continues then NodeKind.recipeItems else []) :
    Node.Conforms (k := .rule) ⟨hd ++ ts⟩ := by
  obtain ⟨us, vs, hi, hus, hne⟩ := h.targets
  have htargets : Node.targets ⟨hd ++ ts⟩ = Node.words (k := .targets) ⟨us⟩ := by
    simp [Node.targets, Node.node?, Node.nodes_eq, hi, NodeKind.pick]
  refine ⟨?_, ?_⟩
  · rw [htargets]
    exact ⟨hus.ne_nil hne, (hus.holds (k := .targets)).2⟩
  · have hkinds : Node.nodeKinds (k := .rule) ⟨hd ++ ts⟩ = kinds hd ++ kinds ts :=
      kinds_append hd ts
    rw [hkinds]
    rcases h.kinds with ⟨rfl, hh⟩ | ⟨rfl, lists, items, hh, hl, hit⟩
    · left
      rw [List.eq_nil_of_subset_nil hk, List.append_nil]
      exact hh
    · right
      refine ⟨lists, items ++ kinds ts, ?_, hl, List.append_subset.2 ⟨?_, hk⟩⟩
      · rw [show kinds hd = _ from hh]
        simp
      · exact List.Subset.trans hit (by decide)

end Conforms

/-- The rules that run over several lines, on fewer than `n` lines. -/
structure BuildsBelow (n : Nat) : Prop where
  statement : ∀ {k line lines}, lines.length < n →
    BuildsOver k (statement lines) remaining line lines fun _ => Stated line lines
  item : ∀ {k line lines}, lines.length < n →
    BuildsOver k (recipeItem line lines) remaining line lines fun _ => Itemized
  closing : ∀ {k ctx line lines}, k.bearsComments = true → lines.length < n →
    BuildsOver k (closing ctx lines) remaining line lines fun _ ms ts => ms = [] ∧ Finished ctx ts
  branch : ∀ {k ctx lines}, lines.length < n → BuildsOver k (branch ctx lines) remaining [] lines
    fun _ _ ts => kinds ts ⊆ ctx.entries
  recipes : ∀ {k lines}, lines.length < n →
    BuildsOver k (recipes lines) remaining [] lines fun _ => Itemized

theorem head_of_specifiersIn {n : Nest} {ls : List Nest} {s : Specifier}
    (hk : (∃ s, n.kind = .keyword (.specifier s)) ∨ n.kind = .keyword .define)
    (h : specifiersIn ((n :: ls).takeWhile isIntro) = [s]) : n.kind = .keyword (.specifier s) := by
  rcases hk with ⟨t, hk⟩ | hk
  · have hi : isIntro n = true := by simp [isIntro, Line.isSpecifier, hk, TokenKind.specifier?]
    rw [List.takeWhile_cons_of_pos hi, specifiersIn,
      List.filterMap_cons_some (b := t) (by rw [hk]; rfl)] at h
    obtain ⟨rfl, -⟩ := List.cons.inj h
    exact hk
  · have hi : ¬ isIntro n = true := by
      simp [isIntro, Line.isSpecifier, Nest.isWhitespace, hk, TokenKind.specifier?]
    rw [List.takeWhile_cons_of_neg hi] at h
    cases h

theorem builds_specifiedLine {n : Nest} {ls : List Nest} (hn : Line.afterLeading line = n :: ls)
    (hk : (∃ s, n.kind = .keyword (.specifier s)) ∨ n.kind = .keyword .define) :
    Builds k (specifiedLine (specifiersIn ((n :: ls).takeWhile isIntro))
      ((n :: ls).dropWhile isIntro)) line fun _ => Stated line lines := by
  have hline : line = (line.takeWhile (·.kind.isLeading) ++ (n :: ls).takeWhile isIntro) ++
      (n :: ls).dropWhile isIntro := by
    rw [List.append_assoc, List.takeWhile_append_dropWhile, ← hn]
    exact (List.takeWhile_append_dropWhile).symm
  refine builds_ite (fun _ => ?_) fun _ => builds_ite (fun hf => ?_) fun _ => builds_ite
    (fun _ => builds_failAt hline (by decide)) fun _ => ?_
  · exact builds_assignment.mono fun _ _ _ hm => hm.stated (by decide)
  · simp only [Bool.or_eq_true, beq_iff_eq] at hf
    rcases hf with hf | hf
    · exact (builds_exportLine hn (head_of_specifiersIn hk hf) (.inl rfl)).mono
        fun _ _ _ hm => hm.stated (by decide)
    · exact (builds_exportLine hn (head_of_specifiersIn hk hf) (.inr rfl)).mono
        fun _ _ _ hm => hm.stated (by decide)
  · intro hs outer es
    generalize (n :: ls).dropWhile isIntro = after at hline
    have hd := List.head?_dropWhile_not (fun n : Nest => !n.isLineBreak) (Nest.flattenAll after)
    cases he : (Nest.flattenAll after).dropWhile (!·.isLineBreak) with
    | nil => exact .atEnd (by decide) (by decide)
    | cons m ms =>
      rw [he] at hd
      have hm : m.kind = .lineBreak := by simpa [Nest.isLineBreak] using hd
      have hmem : m ∈ Nest.flattenAll after :=
        (List.dropWhile_suffix _).subset (he ▸ List.mem_cons_self)
      rw [hline]
      exact Blames.suffix (.token hmem (by simp [hm]) (fun _ => hm) (by decide))

theorem over_specified {n : Nest} {ls : List Nest} (hn : Line.afterLeading line = n :: ls)
    (hk : (∃ s, n.kind = .keyword (.specifier s)) ∨ n.kind = .keyword .define) :
    BuildsOver k (specified (n :: ls) lines) remaining line lines fun _ => Stated line lines := by
  unfold specified
  obtain ⟨-, h⟩ | ⟨us, vs, hms, h⟩ := specifiersOf_eq (n :: ls) compatible_nil
  · rw [h, pure_bind]
    refine over_ite (fun hd => ?_) fun _ => over_oneLine (builds_specifiedLine hn hk)
    cases ha : (n :: ls).dropWhile isIntro with
    | nil =>
      rw [ha] at hd
      cases hd
    | cons m ms =>
      rw [ha] at hd
      refine (over_definition (hn ▸ ha) (by simpa using hd)).mono ?_
      rintro _ _ _ ⟨rfl, us, rfl, hus⟩
      refine ⟨⟨rfl, by simp [Context.entries, NodeKind.statements]⟩, by simp, ?_⟩
      simpa using hus
  · rw [h]
    have hf : BuildsOver k (failAt vs [.variableName]) (fun _ => lines) line lines
        fun (_ : List Specifier × List Nest) _ _ => False := by
      have hline : line = (line.takeWhile (·.kind.isLeading) ++ us) ++ vs := by
        rw [List.append_assoc, ← hms, ← hn]
        exact (List.takeWhile_append_dropWhile).symm
      exact over_failAt hline (by decide)
    exact over_bind hf fun _ _ _ h => h.elim

namespace BuildsBelow

theorem branch_of (h : BuildsBelow lines.length) (ctx : Context) :
    BuildsOver k (Parser.branch ctx lines) remaining [] lines
      fun _ _ ts => kinds ts ⊆ ctx.entries := by
  cases lines with
  | nil =>
    unfold Parser.branch
    exact over_throw (by decide)
  | cons line lines =>
    unfold Parser.branch
    refine over_load_bind (over_ite (fun _ => over_pure rfl (List.nil_subset _)) fun _ => ?_)
    have hentry : BuildsOver k (match ctx with
        | .statements => Parser.statement lines
        | .recipe => Parser.recipeItem line lines) remaining line lines (Among ctx.entries) := by
      cases ctx
      · exact (h.statement (Nat.lt_succ_self _)).mono fun _ _ _ hm => hm.among
      · exact (h.item (Nat.lt_succ_self _)).mono fun _ _ _ hm => hm.among
    refine over_bind hentry ?_
    rintro ⟨rest, hle⟩ _ ts ⟨rfl, hts⟩
    refine over_bind (h.branch (Nat.lt_succ_of_le hle)) ?_
    rintro ⟨after, ha⟩ mid us hus
    refine over_pure rfl ?_
    simpa using ⟨hts, hus⟩

theorem branchNode (h : BuildsBelow lines.length) (ctx : Context) :
    BuildsOver k (within ctx.branch (Parser.branch ctx lines)) remaining [] lines
      fun _ _ ts => ∃ br, ts = [.node ctx.branch br] := by
  have hb := (h.branch_of (k := ctx.branch) ctx).mono fun _ _ _ => conforms_branch ctx
  exact over_within (by cases ctx <;> decide) (hb.mono fun _ _ ts hts => ⟨hts, ts, rfl⟩)

theorem recipes_of (h : BuildsBelow lines.length) : BuildsOver k (Parser.recipes lines) remaining []
    lines fun _ => Itemized := by
  have nil : Itemized [] [] := ⟨⟨rfl, List.nil_subset _⟩, nofun⟩
  cases lines with
  | nil =>
    rw [Parser.recipes]
    exact over_pure rfl nil
  | cons line lines =>
    rw [Parser.recipes]
    refine over_ite (fun _ => over_load_bind ?_) fun _ => over_pure rfl nil
    refine over_bind (h.item (Nat.lt_succ_self _)) ?_
    rintro ⟨rest, hle⟩ _ ts ⟨⟨rfl, hts⟩, hpts⟩
    refine over_bind (h.recipes (Nat.lt_succ_of_le hle)) ?_
    rintro ⟨after, ha⟩ _ us ⟨⟨rfl, hus⟩, hpus⟩
    refine over_pure rfl ⟨⟨rfl, by simpa using ⟨hts, hus⟩⟩, ?_⟩
    simpa using hpts.append hpus

theorem conditional_of (h : BuildsBelow lines.length) (ctx : Context) {n : Nest} {ls : List Nest}
    (hn : Line.afterLeading line = n :: ls) {c : ConditionalKind}
    (hk : n.kind = .keyword (.conditional c)) :
    BuildsOver k (Parser.conditional ctx lines) remaining line lines (Whole ctx.node) := by
  rw [conditional_eq]
  refine over_within (by cases ctx <;> decide) ?_
  refine over_bind (over_line (builds_conditionalHeader ctx.bearsComments_node hn hk)) ?_
  rintro _ _ hd ⟨rfl, hd'⟩
  refine over_bind (h.branchNode ctx) ?_
  rintro ⟨after, ha⟩ mid _ ⟨br, rfl⟩
  refine over_bind (h.closing ctx.bearsComments_node ha) ?_
  rintro ⟨rest, hle⟩ _ cl ⟨rfl, hcl⟩
  refine over_pure rfl ⟨?_, rfl, _, rfl⟩
  rw [List.append_nil]
  exact conforms_conditional hd' hcl

theorem otherwise_of (h : BuildsBelow lines.length) (hb : k.bearsComments = true) {ctx : Context}
    (hc : ctx.closing? line = some .otherwise) :
    BuildsOver k (otherwise ctx lines) (fun r => r.2.1) line lines fun r ms ts =>
      r.1 = true ∧ ms = [] ∧ kinds ts = [ctx.node] ∨ r.1 = false ∧ kinds ts = [ctx.branch] := by
  rw [otherwise_eq]
  refine over_bind (over_line (builds_elseKeyword hc)) fun _ ms ts hts => over_kind?_bind ?_
  have hts : kinds ts = [] := kinds_of_nodesOf hts
  refine over_ite (fun hk => ?_) fun _ => ?_
  · obtain ⟨c, hk⟩ := Line.conditional_of_head hk
    obtain ⟨n, hn, hk⟩ := Option.map_eq_some_iff.1 hk
    obtain ⟨ls, hls⟩ := List.head?_eq_some_iff.1 hn
    refine over_bind (h.conditional_of ctx hls hk) ?_
    rintro ⟨rest, hle⟩ _ _ ⟨rfl, us, rfl⟩
    exact over_pure rfl (.inl ⟨rfl, rfl, by simp [hts]⟩)
  · refine over_bind (over_line (builds_endOfLine hb)) ?_
    rintro _ _ us ⟨rfl, hus, -⟩
    have hus : kinds us = [] := hus.kinds
    refine over_bind (h.branchNode ctx) ?_
    rintro ⟨rest, hlt⟩ mid _ ⟨br, rfl⟩
    exact over_pure rfl (.inr ⟨rfl, by simp [hts, hus]⟩)

theorem closing_of (h : BuildsBelow lines.length) (hb : k.bearsComments = true) (ctx : Context) :
    BuildsOver k (Parser.closing ctx lines) remaining line lines
      fun _ ms ts => ms = [] ∧ Finished ctx ts := by
  refine over_unread_bind (over_ite (fun hc => ?_) fun _ => ?_)
  · have ho : BuildsOver k (within .elseBranch (otherwise ctx lines)) (fun r => r.2.1) line lines
        fun r ms ts => ∃ us, ts = [.node .elseBranch us] ∧
          (r.1 = true ∧ ms = [] ∧ kinds us = [ctx.node] ∨
            r.1 = false ∧ kinds us = [ctx.branch]) := by
      have ho := h.otherwise_of (k := .elseBranch) rfl hc
      refine over_within (by decide) (ho.mono fun r ms ts hts => ⟨?_, ts, rfl, hts⟩)
      exact conforms_elseBranch ctx (hts.symm.imp And.right fun hts => hts.2.2)
    refine over_bind ho ?_
    rintro ⟨chained, rest, hle⟩ ms _ ⟨us, rfl, hus⟩
    rcases hus with ⟨rfl, rfl, hus⟩ | ⟨rfl, hus⟩
    · have hp : BuildsOver k (pure ()) (fun _ => rest) [] rest
          fun (_ : Unit) ms ts => ms = [] ∧ ts = [] := over_pure rfl ⟨rfl, rfl⟩
      refine over_bind hp ?_
      rintro _ _ _ ⟨rfl, rfl⟩
      exact over_pure rfl ⟨rfl, .chained rfl hus fun s => by simp⟩
    · refine over_bind (over_line (builds_endif hb ctx)) ?_
      rintro _ _ ts ⟨rfl, hi, s, hs⟩
      exact over_pure rfl ⟨rfl, .branched (by simp [hi]) hus ⟨s, by simp [hs]⟩⟩
  · refine over_bind (over_line (builds_endif hb ctx)) ?_
    rintro _ _ ts ⟨rfl, hi, s, hs⟩
    exact over_pure rfl ⟨rfl, .plain (by simp [hi]) ⟨s, by simp [hs]⟩⟩

theorem item_of (h : BuildsBelow lines.length) : BuildsOver k (Parser.recipeItem line lines)
    remaining line lines fun _ => Itemized := by
  unfold Parser.recipeItem
  cases hk : LineKind.ofLine line with
  | recipe =>
    have hp : Builds k recipeLine line fun _ => Itemized :=
      (builds_recipeLine (LineKind.head_of_recipe hk)).mono fun _ _ _ hm =>
        ⟨hm.1.among (by decide), hm.2⟩
    exact over_oneLine hp
  | blank => exact over_itemized (builds_blankLine (LineKind.head_of_blank hk)) (by decide)
  | comment => exact over_itemized (builds_commentLine (LineKind.head_of_comment hk)) (by decide)
  | other => exact over_refused (by decide)
  | keyword w =>
    cases w with
    | conditional c =>
      obtain ⟨n, hn, hk⟩ := Option.map_eq_some_iff.1 (LineKind.kind_of_keyword hk)
      obtain ⟨ls, hls⟩ := List.head?_eq_some_iff.1 hn
      exact (h.conditional_of .recipe hls hk).mono fun _ _ _ hm => hm.itemized (by decide)
    | _ => exact over_refused (by decide)

theorem rule_of (h : BuildsBelow lines.length) (hl : Line.IsRule line) :
    BuildsOver k (rule lines) remaining line lines fun _ => Stated line lines := by
  have stated {us : List Tree} (hus : Ruled us) : Stated line lines [] [.node .rule us] := by
    refine ⟨⟨rfl, by simp [Context.entries, NodeKind.statements]⟩, fun vs hvs => ?_, by simp⟩
    obtain ⟨-, rfl⟩ := Prod.mk.inj (List.mem_singleton.1 hvs)
    exact hus
  refine over_within (by decide) (over_bind (over_line (builds_ruleHeader rfl hl)) ?_)
  rintro continues _ hd ⟨rfl, hd', hintro⟩
  refine over_ite (fun hc => ?_) fun hc => ?_
  · refine h.recipes_of.mono ?_
    rintro _ _ ts ⟨⟨rfl, hts⟩, hp⟩
    exact ⟨conforms_rule hd' (by rwa [if_pos hc]), stated (hintro.ruled hp)⟩
  · have hnil : Prefixed (nodesOf []) := fun _ hus => absurd hus List.not_mem_nil
    exact over_pure rfl ⟨conforms_rule hd' (List.nil_subset _), stated (hintro.ruled hnil)⟩

theorem separated_of (h : BuildsBelow lines.length) {n : Nest} {ls : List Nest}
    (ha : Line.afterLeading line = n :: ls) (h₁ : n.kind ≠ .lineBreak) (h₂ : n.kind ≠ .comment)
    (h₃ : ∀ w, n.kind ≠ .keyword w) :
    BuildsOver k (match Line.separator? (n :: ls) with
      | some .colon => rule lines
      | some _ => oneLine lines assignment
      | none =>
        if Line.startsExpansion n then oneLine lines functionLine
        else failAt (n :: ls) [.token .colon, .token .assignOp])
      remaining line lines fun _ => Stated line lines := by
  cases hs : Line.separator? (n :: ls) with
  | none =>
    refine over_ite (fun _ => ?_) fun _ => ha ▸ over_refused (by decide)
    refine over_stated (builds_functionLine ha ?_ ?_) (by decide)
    · simpa [Nest.isLineBreak] using h₁
    · simpa [Nest.isComment] using h₂
  | some t =>
    cases t with
    | colon =>
      exact h.rule_of ⟨n, ls, ha, h₁, h₂, h₃, hs⟩
    | _ => exact over_stated builds_assignment (by decide)

theorem statement_of (h : BuildsBelow lines.length) :
    BuildsOver k (Parser.statement lines) remaining line lines fun _ => Stated line lines := by
  cases ha : Line.afterLeading line with
  | nil =>
    have hp : Builds k skipLeading line fun _ => Stated line lines := by
      refine builds_skipLeading.mono ?_
      rintro _ _ ts ⟨rfl, hts⟩
      exact ⟨⟨ha, by simp [hts.kinds]⟩, by simp [hts.nodes], by simp [hts.nodes]⟩
    refine over_of_eq (over_oneLine hp) fun outer es => ⟨es, ?_⟩
    rw [Parser.statement, unread_bind_eq, ha]
  | cons n ls =>
    refine over_of_eq ?_ fun outer es => ⟨_, statement_eq_of_cons lines ha⟩
    cases hk : n.kind with
    | lineBreak =>
      exact over_stated (builds_blankLine (by simp [ha, Nest.isLineBreak, hk])) (by decide)
    | comment =>
      exact over_stated (builds_commentLine (by simp [ha, Nest.isComment, hk])) (by decide)
    | keyword w =>
      cases w with
      | conditional c =>
        exact (h.conditional_of .statements ha hk).mono fun _ _ _ hm => hm.stated (by decide)
      | specifier s => exact over_specified ha (.inl ⟨s, hk⟩)
      | define => exact over_specified ha (.inr hk)
      | includeFile => exact over_stated (builds_includeLine ha hk) (by decide)
      | _ => exact ha ▸ over_refused (by decide)
    | _ =>
      exact h.separated_of ha (by simp [hk]) (by simp [hk]) (by simp [hk])

end BuildsBelow

theorem buildsBelow (n : Nat) : BuildsBelow n := by
  induction n with
  | zero => exact ⟨nofun, nofun, nofun, nofun, nofun⟩
  | succ n ih =>
    have h {lines : List Line} (hl : lines.length < n + 1) : BuildsBelow lines.length := by
      have hle := Nat.le_of_lt_succ hl
      exact ⟨fun hs => ih.1 (by omega), fun hs => ih.2 (by omega), fun hb hs => ih.3 hb (by omega),
        fun hs => ih.4 (by omega), fun hs => ih.5 (by omega)⟩
    exact ⟨fun hl => (h hl).statement_of, fun hl => (h hl).item_of,
      fun hb hl => (h hl).closing_of hb _, fun hl => (h hl).branch_of _,
      fun hl => (h hl).recipes_of⟩

/-- What all statements of a text build. -/
theorem builds_statements (lines : List Line) :
    BuildsOver k (statements lines) (fun _ => []) [] lines (Among Context.statements.entries) := by
  induction hn : lines.length using Nat.strong_induction_on generalizing lines with
  | _ n ih =>
    cases lines with
    | nil =>
      rw [statements]
      exact over_pure rfl ⟨rfl, List.nil_subset _⟩
    | cons line lines =>
      rw [statements]
      refine over_load_bind (over_bind (buildsBelow lines.length).statement_of ?_)
      rintro ⟨rest, hle⟩ _ ts ⟨⟨rfl, hts⟩, -⟩
      rw [List.length_cons] at hn
      refine (ih rest.length (by omega) rest rfl).mono ?_
      rintro _ _ us ⟨rfl, hus⟩
      refine ⟨rfl, ?_⟩
      rw [kinds_append]
      exact List.append_subset.2 ⟨hts, hus⟩

end Parser

end MakeTree
