import MakeTree.Proofs.Grammar.Definition

/-!
Parsing as a relation. `Parses task lines ts rest` says that of the lines `lines` the task takes
those in front of `rest` and builds `ts`. A parser that succeeds does what the relation says
(`parses_of_ok`), and what the relation says the parser does (`Parses.runs`), so facts about parsed
lines are proved by induction on the relation.
-/

namespace MakeTree

namespace Parser

/-- What is being parsed; for a part of a statement with the line it starts on. -/
inductive Task where
  | statement (line : Line)
  /-- one item of a recipe -/
  | item (line : Line)
  | conditional (ctx : Context) (line : Line)
  /-- a conditional from the end of its first branch on -/
  | closing (ctx : Context) (line : Line)
  /-- up to the line that ends it, which is left -/
  | branch (ctx : Context)
  | recipes
  | file

/-- The lines that a branch is made of. -/
def Task.entry : Context → Line → Task
  | .statements => .statement
  | .recipe => .item

/-- Lines that make an item of a recipe by themselves. -/
def IsItem (k : LineKind) : Prop := k = .recipe ∨ k = .blank ∨ k = .comment

/-- An `else` and the blanks around it. -/
def elseKeyword : Parser Unit := do
  skipLeading
  advance
  skipWhitespace

/-- A conditional from the end of its first branch on. -/
def closing (ctx : Context) (lines : List Line) : Parser (Rest lines) := do
  if ctx.closing? (← unread) = some .otherwise then
    let (chained, rest) ← within .elseBranch (otherwise ctx lines)
    (if chained then pure () else endif ctx)
    return rest
  else
    endif ctx
    return .all lines

inductive Parses : Task → List Line → List Tree → List Line → Prop
  | alone {line : Line} {used rest : List Line} {ts : List Tree}
      (h : ∀ rest, TakesRest (statement (used ++ rest)) line rest [] ts)
      (held : Held (line ++ used.flatten) ts) (hs : Tree.Statement ts) :
      Parses (.statement line) (used ++ rest) ts rest
  | rule {line : Line} {lines rest : List Line} {hd ts : List Tree} (hl : line.IsRule)
      (h : Takes ruleHeader line true [] hd) (held : Held line hd)
      (hr : Parses .recipes lines ts rest) :
      Parses (.statement line) lines [.node .rule (hd ++ ts)] rest
  | statementConditional {line : Line} {lines rest : List Line} {ts : List Tree}
      (hl : line.IsConditional) (h : Parses (.conditional .statements line) lines ts rest) :
      Parses (.statement line) lines ts rest
  | item {line : Line} {lines : List Line} {ts : List Tree} (hk : IsItem (LineKind.ofLine line))
      (h : ∀ rest, TakesRest (recipeItem line rest) line rest [] ts) (held : Held line ts)
      (solid : ∀ n ∈ line, Solid n) : Parses (.item line) lines ts lines
  | itemConditional {line : Line} {lines rest : List Line} {ts : List Tree} {k : ConditionalKind}
      (hk : LineKind.ofLine line = .keyword (.conditional k))
      (h : Parses (.conditional .recipe line) lines ts rest) : Parses (.item line) lines ts rest
  | conditional {ctx : Context} {line mid : Line} {lines after rest : List Line}
      {hd br cl : List Tree} (h : Takes conditionalHeader line () [] hd) (held : Held line hd)
      (solid : ∀ n ∈ line, Solid n) (hb : Parses (.branch ctx) lines br (mid :: after))
      (hc : Parses (.closing ctx mid) after cl rest) : Parses (.conditional ctx line) lines
        [.node ctx.node (hd ++ .node ctx.branch br :: cl)] rest
  | closingEndif {ctx : Context} {line : Line} {lines : List Line} {ts : List Tree}
      (hl : ctx.closing? line = some .endif) (h : Takes (endif ctx) line () [] ts)
      (held : Held line ts) (solid : ∀ n ∈ line, Solid n) :
      Parses (.closing ctx line) lines ts lines
  | closingChained {ctx : Context} {us line : Line} {lines rest : List Line}
      {hd ts : List Tree} (hl : ctx.closing? (us ++ line) = some .otherwise)
      (h : Takes elseKeyword (us ++ line) () line hd) (held : Held us hd)
      (solid : ∀ n ∈ us, Solid n)
      (hk : (line.head?.map Nest.kind).any TokenKind.isConditional = true)
      (hc : Parses (.conditional ctx line) lines ts rest) :
      Parses (.closing ctx (us ++ line)) lines [.node .elseBranch (hd ++ ts)] rest
  | closingOtherwise {ctx : Context} {us line mid : Line} {lines after rest : List Line}
      {hd el br ts : List Tree} (hl : ctx.closing? (us ++ line) = some .otherwise)
      (h : Takes elseKeyword (us ++ line) () line hd) (held : Held us hd)
      (solid : ∀ n ∈ us, Solid n)
      (hk : (line.head?.map Nest.kind).any TokenKind.isConditional = false)
      (h' : Takes endOfLine line () [] el) (held' : Held line el) (solid' : ∀ n ∈ line, Solid n)
      (hb : Parses (.branch ctx) lines br (mid :: after)) (hm : ctx.closing? mid = some .endif)
      (hc : Parses (.closing ctx mid) after ts rest) : Parses (.closing ctx (us ++ line)) lines
        (.node .elseBranch (hd ++ (el ++ [.node ctx.branch br])) :: ts) rest
  | branchEnd {ctx : Context} {line : Line} {lines : List Line}
      (hl : (ctx.closing? line).isSome = true) :
      Parses (.branch ctx) (line :: lines) [] (line :: lines)
  | branchEntry {ctx : Context} {line : Line} {lines mid rest : List Line} {ts us : List Tree}
      (hl : ctx.closing? line = none) (h : Parses (.entry ctx line) lines ts mid)
      (hb : Parses (.branch ctx) mid us rest) :
      Parses (.branch ctx) (line :: lines) (ts ++ us) rest
  | recipesEnd {lines : List Line} (h : Line.continuesRecipe lines = false) :
      Parses .recipes lines [] lines
  | recipesItem {line : Line} {lines mid rest : List Line} {ts us : List Tree}
      (h : Line.continuesRecipe (line :: lines) = true) (hi : Parses (.item line) lines ts mid)
      (hr : Parses .recipes mid us rest) : Parses .recipes (line :: lines) (ts ++ us) rest
  | fileEnd {lines : List Line} : Parses .file lines [] lines
  | fileStatement {line : Line} {lines mid rest : List Line} {ts us : List Tree}
      (h : Parses (.statement line) lines ts mid) (hf : Parses .file mid us rest) :
      Parses .file (line :: lines) (ts ++ us) rest

namespace Parses

variable {task : Task} {lines rest : List Line} {ts : List Tree}

theorem single {line : Line} (h : ∀ rest, TakesRest (statement rest) line rest [] ts)
    (held : Held line ts) (hs : Tree.Statement ts) : Parses (.statement line) lines ts lines := by
  have hp : Parses (.statement line) ([] ++ lines) ts lines :=
    .alone h (by rwa [List.flatten_nil, List.append_nil]) hs
  exact hp

theorem suffix (h : Parses task lines ts rest) : rest <:+ lines := by
  induction h with
  | alone => exact List.suffix_append _ _
  | rule _ _ _ _ ih => exact ih
  | statementConditional _ _ ih => exact ih
  | item => exact List.suffix_refl _
  | itemConditional _ _ ih => exact ih
  | conditional _ _ _ _ _ ihb ihc =>
    exact ihc.trans ((List.suffix_cons _ _).trans ihb)
  | closingEndif => exact List.suffix_refl _
  | closingChained _ _ _ _ _ _ ih => exact ih
  | closingOtherwise _ _ _ _ _ _ _ _ _ _ _ ihb ihc =>
    exact ihc.trans ((List.suffix_cons _ _).trans ihb)
  | branchEnd => exact List.suffix_refl _
  | branchEntry _ _ _ ih ihb => exact (ihb.trans ih).trans (List.suffix_cons _ _)
  | recipesEnd => exact List.suffix_refl _
  | recipesItem _ _ _ ih ihr => exact (ihr.trans ih).trans (List.suffix_cons _ _)
  | fileEnd => exact List.suffix_refl _
  | fileStatement _ _ ih ihf => exact (ihf.trans ih).trans (List.suffix_cons _ _)

end Parses

/-- The parser of the task does what the relation says. -/
def Runs : Task → List Line → List Tree → List Line → Prop
  | .statement line, lines, ts, rest => TakesRest (statement lines) line rest [] ts
  | .item line, lines, ts, rest => TakesRest (recipeItem line lines) line rest [] ts
  | .conditional ctx line, lines, ts, rest => TakesRest (conditional ctx lines) line rest [] ts
  | .closing ctx line, lines, ts, rest => TakesRest (closing ctx lines) line rest [] ts
  | .branch ctx, lines, ts, mid :: rest => ∀ ns, TakesRest (branch ctx lines) ns rest mid ts
  | .branch _, _, _, [] => False
  | .recipes, lines, ts, rest => TakesRest (recipes lines) [] rest [] ts
  | .file, lines, ts, rest => ∀ outer es, ∃ es',
      statements lines ⟨[], outer, es⟩ = statements rest ⟨[], outer ++ ts, es'⟩

section Runs

variable {ctx : Context} {lines : List Line}

theorem conditional_eq (ctx : Context) (lines : List Line) : conditional ctx lines =
    within ctx.node (conditionalHeader >>= fun _ =>
      within ctx.branch (branch ctx lines) >>= fun r =>
        closing ctx r.1 >>= fun c => pure ⟨c.1, c.2.trans (Nat.le_of_lt r.2)⟩) := by
  rw [conditional]
  congr 2
  funext _
  congr 1
  funext r
  simp only [closing, bind_assoc]
  congr 1
  funext line
  split
  · simp only [bind_assoc]
    rfl
  · simp only [bind_assoc]
    rfl

theorem otherwise_eq (ctx : Context) (lines : List Line) : otherwise ctx lines =
    (elseKeyword >>= fun _ => kind? >>= fun k =>
      if k.any TokenKind.isConditional = true then
        conditional ctx lines >>= fun r => pure (true, r)
      else endOfLine >>= fun _ => within ctx.branch (branch ctx lines) >>= fun r =>
        pure (false, ⟨r.1, Nat.le_of_lt r.2⟩)) := by
  rw [otherwise]
  simp only [elseKeyword, bind_assoc]

theorem statement_of_isRule {line : Line} (hl : line.IsRule) (lines : List Line)
    (outer : List Tree) (es : List Event) :
    ∃ es', statement lines ⟨line, outer, es⟩ = rule lines ⟨line, outer, es'⟩ := by
  obtain ⟨n, ns, ha, h₁, h₂, h₃, hs⟩ := hl
  refine ⟨es ++ [Event.statement n.kind], ?_⟩
  rw [statement_eq_of_cons lines ha, hs]
  cases hk : n.kind with
  | lineBreak => exact absurd hk h₁
  | comment => exact absurd hk h₂
  | keyword k => exact absurd hk (h₃ k)
  | _ => rfl

theorem statement_of_isConditional {line : Line} (hl : line.IsConditional) (lines : List Line)
    (outer : List Tree) (es : List Event) : ∃ es',
      statement lines ⟨line, outer, es⟩ = conditional .statements lines ⟨line, outer, es'⟩ := by
  obtain ⟨k, hk⟩ := hl
  obtain ⟨n, hn, hk⟩ := Option.map_eq_some_iff.1 hk
  obtain ⟨ns, ha⟩ := List.head?_eq_some_iff.1 hn
  refine ⟨es ++ [Event.statement n.kind], ?_⟩
  rw [statement_eq_of_cons lines ha, hk]

theorem TakesRest.of_eq {P : List Line → Prop} {p q : Parser { rest // P rest }} {line : Line}
    {rest : List Line} {ms : List Nest} {ts : List Tree} (h : TakesRest q line rest ms ts)
    (he : ∀ outer es, ∃ es', p ⟨line, outer, es⟩ = q ⟨line, outer, es'⟩) :
    TakesRest p line rest ms ts := by
  obtain ⟨r, hr, h⟩ := h
  refine ⟨r, hr, ?_⟩
  intro outer es
  obtain ⟨es', he⟩ := he outer es
  obtain ⟨es₂, h⟩ := h outer es'
  exact ⟨es₂, he.trans h⟩

theorem Takes.map_value {α β : Type} {p : Parser α} {f : α → β} {ns ms : List Nest} {a : α}
    {ts : List Tree} (h : Takes p ns a ms ts) :
    Takes (p >>= fun x => pure (f x)) ns (f a) ms ts := by
  have h' : Takes (p >>= fun x => pure (f x)) ns (f a) ms (ts ++ []) := h.bind takes_pure
  rwa [List.append_nil] at h'

theorem takes_endif_of_closing {ctx : Context} {mid : Line} {after rest : List Line}
    {ts : List Tree} (hm : ctx.closing? mid = some .endif)
    (h : TakesRest (closing ctx after) mid rest [] ts) :
    after = rest ∧ Takes (endif ctx) mid () [] ts := by
  obtain ⟨r, hr, h⟩ := h
  have hc (outer : List Tree) (es : List Event) : closing ctx after ⟨mid, outer, es⟩ =
      (endif ctx >>= fun _ => pure (Rest.all after)) ⟨mid, outer, es⟩ := by
    rw [closing, unread_bind_eq, hm, if_neg (by decide)]
  have hi (outer : List Tree) (es : List Event) :
      ∃ es', endif ctx ⟨mid, outer, es⟩ = .ok () ⟨[], outer ++ ts, es'⟩ ∧ Rest.all after = r := by
    obtain ⟨es', h⟩ := h outer es
    obtain ⟨_, s, h₁, h₂⟩ := bind_ok ((hc outer es).symm.trans h)
    obtain ⟨rfl, rfl⟩ := EStateM.Result.ok.inj h₂
    exact ⟨es', h₁, rfl⟩
  obtain ⟨-, -, hv⟩ := hi [] []
  refine ⟨(congrArg Subtype.val hv).trans hr, fun outer es => ?_⟩
  obtain ⟨es', h, -⟩ := hi outer es
  exact ⟨es', h⟩

theorem takes_chained {us line : Line} {rest : List Line} {hd ts : List Tree}
    (hl : ctx.closing? (us ++ line) = some .otherwise)
    (h : Takes elseKeyword (us ++ line) () line hd)
    (hk : (line.head?.map Nest.kind).any TokenKind.isConditional = true)
    (hc : TakesRest (conditional ctx lines) line rest [] ts) :
    TakesRest (closing ctx lines) (us ++ line) rest [] [.node .elseBranch (hd ++ ts)] := by
  obtain ⟨r, hr, hc⟩ := hc
  have ho : Takes (otherwise ctx lines) (us ++ line) (true, r) [] (hd ++ ts) := by
    rw [otherwise_eq]
    refine h.bind (takes_kind?_bind ?_)
    rw [if_pos hk]
    exact hc.map_value
  refine ⟨r, hr, takes_unread_bind ?_⟩
  rw [hl, if_pos rfl]
  exact (ho.within .elseBranch).bind (takes_pure.then takes_pure)

theorem takes_otherwise {us line mid : Line} {after rest : List Line} {hd el br ts : List Tree}
    (hl : ctx.closing? (us ++ line) = some .otherwise)
    (h : Takes elseKeyword (us ++ line) () line hd)
    (hk : (line.head?.map Nest.kind).any TokenKind.isConditional = false)
    (h' : Takes endOfLine line () [] el) (hb : TakesRest (branch ctx lines) [] after mid br)
    (hm : ctx.closing? mid = some .endif) (hc : TakesRest (closing ctx after) mid rest [] ts) :
    TakesRest (closing ctx lines) (us ++ line) rest []
      (.node .elseBranch (hd ++ (el ++ [.node ctx.branch br])) :: ts) := by
  obtain ⟨⟨after', hlt⟩, hr, hb⟩ := hb
  subst hr
  have ho : Takes (otherwise ctx lines) (us ++ line) (false, ⟨after', Nat.le_of_lt hlt⟩) mid
      (hd ++ (el ++ [.node ctx.branch br])) := by
    rw [otherwise_eq]
    refine h.bind (takes_kind?_bind ?_)
    rw [if_neg (by simp [hk])]
    exact h'.bind (hb.within ctx.branch).map_value
  obtain ⟨rfl, he⟩ := takes_endif_of_closing hm hc
  refine ⟨⟨after', Nat.le_of_lt hlt⟩, rfl, takes_unread_bind ?_⟩
  rw [hl, if_pos rfl]
  exact (ho.within .elseBranch).bind he.map_value

theorem takes_branch {line last : Line} {mid rest : List Line} {ts us : List Tree}
    (hl : ctx.closing? line = none) (h : Runs (.entry ctx line) lines ts mid)
    (hb : TakesRest (branch ctx mid) [] rest last us) (ns : List Nest) :
    TakesRest (branch ctx (line :: lines)) ns rest last (ts ++ us) := by
  obtain ⟨⟨rest', hlt⟩, hr', hb⟩ := hb
  subst hr'
  cases ctx
  all_goals
    obtain ⟨⟨mid', hle⟩, hr, hs⟩ := h
    subst hr
    refine ⟨⟨rest', hlt.trans (Nat.lt_succ_of_le hle)⟩, rfl, ?_⟩
    unfold branch
    refine (takes_load line).then ?_
    rw [if_neg (by simp [hl])]
    exact hs.bind hb.map_value

/-- The parser does what the relation says. -/
theorem Parses.runs {task : Task} {rest : List Line} {ts : List Tree}
    (h : Parses task lines ts rest) : Runs task lines ts rest := by
  induction h with
  | alone h _ _ => exact h _
  | @rule line lines rest hd ts hl h _ _ ih =>
    obtain ⟨r, hr, ih⟩ := ih
    refine TakesRest.of_eq ⟨r, hr, ?_⟩ (statement_of_isRule hl lines)
    exact (h.bind ih).within .rule
  | @statementConditional line lines rest ts hl _ ih =>
    exact ih.of_eq (statement_of_isConditional hl lines)
  | item _ h _ _ => exact h _
  | @itemConditional line lines rest ts k hk _ ih =>
    refine ih.of_eq fun outer es => ⟨es, ?_⟩
    rw [Parser.recipeItem, hk]
  | @conditional ctx line mid lines after rest hd br cl h _ _ _ _ ihb ihc =>
    obtain ⟨⟨after', hlt⟩, hr, hb⟩ := ihb []
    obtain ⟨⟨rest', hle⟩, hr', hc⟩ := ihc
    subst hr hr'
    refine ⟨⟨rest', hle.trans (Nat.le_of_lt hlt)⟩, rfl, ?_⟩
    rw [conditional_eq]
    exact (h.bind ((hb.within ctx.branch).bind hc.map_value)).within ctx.node
  | @closingEndif ctx line lines ts hl h _ _ =>
    refine ⟨Rest.all lines, rfl, takes_unread_bind ?_⟩
    rw [hl, if_neg (by decide)]
    exact h.map_value
  | closingChained hl h _ _ hk _ ih => exact takes_chained hl h hk ih
  | closingOtherwise hl h _ _ hk h' _ _ _ hm _ ihb ihc =>
    exact takes_otherwise hl h hk h' (ihb []) hm ihc
  | @branchEnd ctx line lines hl =>
    intro ns
    refine ⟨⟨lines, Nat.lt_succ_self _⟩, rfl, ?_⟩
    unfold branch
    refine (takes_load line).then ?_
    rw [if_pos hl]
    exact takes_pure
  | @branchEntry ctx line lines mid rest ts us hl _ _ ih ihb =>
    cases rest with
    | nil => exact ihb
    | cons last rest => exact takes_branch hl ih (ihb [])
  | @recipesEnd lines h =>
    refine ⟨Rest.all lines, rfl, ?_⟩
    cases lines with
    | nil =>
      rw [Parser.recipes]
      exact takes_pure
    | cons line lines =>
      rw [Parser.recipes, if_neg (by simp [h])]
      exact takes_pure
  | @recipesItem line lines mid rest ts us h _ _ ih ihr =>
    obtain ⟨⟨mid', hle⟩, hr, hi⟩ := ih
    obtain ⟨⟨rest', hle'⟩, hr', hs⟩ := ihr
    subst hr hr'
    refine ⟨⟨rest', hle'.trans (hle.trans (Nat.le_succ _))⟩, rfl, ?_⟩
    rw [Parser.recipes, if_pos h]
    exact (takes_load line).then (hi.bind hs.map_value)
  | fileEnd => exact fun outer es => ⟨es, by rw [List.append_nil]⟩
  | @fileStatement line lines mid rest ts us _ _ ih ihf =>
    intro outer es
    obtain ⟨⟨mid', hle⟩, hr, hs⟩ := ih
    subst hr
    obtain ⟨es₁, h₁⟩ := hs outer es
    obtain ⟨es₂, h₂⟩ := ihf (outer ++ ts) es₁
    refine ⟨es₂, ?_⟩
    rw [statements, ← List.append_assoc, ← h₂]
    show EStateM.bind (Parser.statement lines) _ ⟨line, outer, es⟩ = _
    rw [EStateM.bind, h₁]

end Runs

end Parser

end MakeTree
