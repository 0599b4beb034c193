import MakeTree.Proofs.Grammar.Enclosed
import MakeTree.Proofs.Grammar.Extent
import MakeTree.Proofs.Grammar.Records
import MakeTree.Proofs.Tree.Entries

/-!
What is announced of statements. A statement is announced where it starts, before what it is made
of is parsed, so a run that succeeds announces the statements among the trees that it builds in
their order (`Tells`, `tells_statements`). Recipes and rules of one line announce nothing and build
neither roots nor branches (`Parses.blockless`).
-/

namespace MakeTree

namespace Event

/-- What is recorded for whoever looks for an error. -/
def debugs (es : List Event) : List Event := es.filter (·.level == .debug)

theorem debugs_append (es es' : List Event) : debugs (es ++ es') = debugs es ++ debugs es' :=
  List.filter_append es es'

theorem debugs_of_isFrame {es : List Event} (h : ∀ e ∈ es, e.IsFrame) : debugs es = [] := by
  refine List.filter_eq_nil_iff.2 fun e he hd => ?_
  rw [show e.level = .trace from h e he] at hd
  cases hd

/-- The record names what the tree starts with. -/
def Names (e : Event) (p : Placed) : Prop :=
  ∃ k, Tree.leadOf [p.tree] = some k ∧ e = .statement k

end Event

namespace Tree

/-- There is neither a root nor a branch in the trees. -/
def Blockless (ts : List Tree) : Prop :=
  ∀ t ∈ ts, ∀ k us, Subtree (.node k us) t → k.holdsStatements = false

namespace Blockless

variable {ts us : List Tree}

theorem nil : Blockless [] := fun _ ht => absurd ht List.not_mem_nil

theorem append (h : Blockless ts) (h' : Blockless us) : Blockless (ts ++ us) :=
  fun t ht => (List.mem_append.1 ht).elim (h t) (h' t)

theorem node {k : NodeKind} (h : Blockless ts) (hk : k.holdsStatements = false) :
    Blockless [.node k ts] := by
  intro t ht j us hs
  obtain rfl := List.mem_singleton.1 ht
  cases hs with
  | refl => exact hk
  | child ht hs => exact h _ ht j us hs

end Blockless

end Tree

open MakeTree.Tree

theorem GoodLines.closed {lines : List Line} (h : GoodLines lines) :
    Nest.ClosedAll lines.flatten := by
  induction lines with
  | nil => trivial
  | cons line lines ih =>
    have hrest := ih (h.suffix (List.suffix_cons line lines))
    exact Nest.closedAll_append.2 ⟨(h line List.mem_cons_self).closed, hrest⟩

theorem NodeKind.Inner.holdsStatements {k : NodeKind} (h : k.Inner) : k.holdsStatements = false := by
  simp [NodeKind.holdsStatements, h.1, h.2]

namespace Parser

theorem Held.blockless {ns : List Nest} {ts : List Tree} (h : Held ns ts) : Blockless ts := by
  intro t ht k us hs
  by_contra hk
  have hinner : ¬ k.Inner := fun hi => hk hi.holdsStatements
  exact (h .root (by decide)).every hinner (fun _ => False) t ht us hs

section Blockless

variable {lines rest : List Line} {ts : List Tree}

theorem Parses.blockless {task : Task} (h : Parses task lines ts rest)
    (hr : task.InRecipe ∨ task = .recipes) : Blockless ts := by
  induction h with
  | alone => exact hr.elim False.elim nofun
  | rule => exact hr.elim False.elim nofun
  | statementConditional => exact hr.elim False.elim nofun
  | item _ _ held _ => exact held.blockless
  | itemConditional _ _ ih => exact ih (.inl trivial)
  | @conditional ctx _ _ _ _ _ _ _ _ _ held _ _ _ ihb ihc =>
    cases ctx with
    | statements => exact hr.elim False.elim nofun
    | recipe =>
      have hbranch := (ihb (.inl trivial)).node (k := .recipeBranch) rfl
      exact (held.blockless.append (hbranch.append (ihc (.inl trivial)))).node rfl
  | closingEndif _ _ held _ => exact held.blockless
  | @closingChained ctx _ _ _ _ _ _ _ _ held _ _ _ ih =>
    cases ctx with
    | statements => exact hr.elim False.elim nofun
    | recipe => exact (held.blockless.append (ih (.inl trivial))).node rfl
  | @closingOtherwise ctx _ _ _ _ _ _ _ _ _ _ _ _ held _ _ _ held' _ _ _ _ ihb ihc =>
    cases ctx with
    | statements => exact hr.elim False.elim nofun
    | recipe =>
      have hbranch := (ihb (.inl trivial)).node (k := .recipeBranch) rfl
      have helse := (held.blockless.append (held'.blockless.append hbranch)).node
        (k := .elseBranch) rfl
      exact helse.append (ihc (.inl trivial))
  | branchEnd => exact .nil
  | @branchEntry ctx _ _ _ _ _ _ _ _ _ ih ihb =>
    cases ctx with
    | statements => exact hr.elim False.elim nofun
    | recipe => exact (ih (.inl trivial)).append (ihb hr)
  | recipesEnd => exact .nil
  | recipesItem _ _ _ ih ihr => exact (ih (.inl trivial)).append (ihr hr)
  | fileEnd => exact hr.elim False.elim nofun
  | fileStatement => exact hr.elim False.elim nofun

theorem Parses.blockless_statement {line : Line} (h : Parses (.statement line) lines ts rest)
    (hc : ¬ line.IsConditional) : Blockless ts := by
  generalize ht : Task.statement line = task at h
  cases h with
  | alone _ held _ => exact held.blockless
  | rule _ _ held hr => exact (held.blockless.append (hr.blockless (.inr rfl))).node rfl
  | statementConditional hl _ =>
    cases ht
    exact absurd hl hc
  | _ => cases ht

end Blockless

/-- The records name the statements among the trees one by one. -/
def Told (here : Bool) (es : List Event) (ts : List Tree) : Prop :=
  ∀ depth start, List.Forall₂ Event.Names (Event.debugs es) (entriesOf here depth start ts)

namespace Told

variable {here : Bool} {es es' : List Event} {ts us : List Tree}

theorem append (h : Told here es ts) (h' : Told here es' us) : Told here (es ++ es') (ts ++ us) := by
  intro depth start
  rw [Event.debugs_append, entriesOf_append]
  exact List.rel_append (h depth start) (h' depth _)

theorem of_blockless (he : ∀ e ∈ es, e.IsFrame) (ht : Blockless ts) : Told false es ts := by
  intro depth start
  rw [Event.debugs_of_isFrame he, entriesOf_eq_nil ht]
  exact .nil

theorem of_leaves (ht : ∀ t ∈ ts, t.IsLeaf) : Told here [] ts := by
  intro depth start
  rw [entriesOf_leaves ht]
  exact .nil

theorem node {k : NodeKind} (h : Told k.holdsStatements es ts) : Told false es [.node k ts] := by
  intro depth start
  rw [entriesOf_node]
  exact h (depth + 1) start

/-- A statement is named before those inside it. -/
theorem entry {k : NodeKind} {j : TokenKind} (h : Told false es [.node k ts])
    (hj : leadOf [.node k ts] = some j) : Told true (.statement j :: es) [.node k ts] := by
  intro depth start
  rw [entriesOf_entry]
  exact .cons ⟨j, hj, rfl⟩ (h depth start)

end Told

variable {α β : Type} {here : Bool} {ns : List Nest} {line : Line} {lines : List Line}

/-- A run that succeeds in front of `ns` records the statements that it builds. -/
def Tells (here : Bool) (p : Parser α) (ns : List Nest) : Prop :=
  ∀ outer es a s, p ⟨ns, outer, es⟩ = .ok a s →
    ∃ ts new, s.built = outer ++ ts ∧ s.events = es ++ new ∧ Told here new ts

section Combinators

variable {p : Parser α} {f : α → Parser β}

theorem tells_pure {a : α} : Tells here (pure a) ns := by
  intro outer es b s h
  cases h
  exact ⟨[], [], (List.append_nil _).symm, (List.append_nil _).symm, .of_leaves nofun⟩

theorem tells_bind (hp : Tells here p ns) (hf : ∀ outer es a s, p ⟨ns, outer, es⟩ = .ok a s →
    Tells here (f a) s.unread) : Tells here (p >>= f) ns := by
  intro outer es b s h
  obtain ⟨a, s₁, h₁, h₂⟩ := bind_ok h
  obtain ⟨ts, new, hb, he, ht⟩ := hp outer es a s₁ h₁
  obtain ⟨us, new', hb', he', ht'⟩ := hf outer es a s₁ h₁ s₁.built s₁.events b s h₂
  refine ⟨ts ++ us, new ++ new', ?_, ?_, ht.append ht'⟩
  · rw [hb', hb, List.append_assoc]
  · rw [he', he, List.append_assoc]

theorem tells_within {k : NodeKind} (h : Tells k.holdsStatements p ns) :
    Tells false (within k p) ns := by
  intro outer es a s hr
  rw [within_eq] at hr
  cases hp : p ⟨ns, [], es⟩ with
  | error e s₁ =>
    rw [hp] at hr
    cases hr
  | ok b s₁ =>
    rw [hp] at hr
    cases hr
    obtain ⟨ts, new, hb, he, ht⟩ := h [] es a s₁ hp
    rw [List.nil_append] at hb
    exact ⟨[.node k s₁.built], new, rfl, he, hb ▸ ht.node⟩

theorem Records.ok {P : Event → Prop} (h : Records P p) {c s : Cursor} {a : α}
    (hr : p c = .ok a s) : ∃ es, s.events = c.events ++ es ∧ ∀ e ∈ es, P e := by
  obtain ⟨es, he, hes⟩ := h c
  rw [hr] at he
  exact ⟨es, he, hes⟩

theorem tells_of_frames (h : RecordsFrames p) (hb : ∀ outer es a s, p ⟨ns, outer, es⟩ = .ok a s →
    ∃ ts, s.built = outer ++ ts ∧ Blockless ts) : Tells false p ns := by
  intro outer es a s hr
  obtain ⟨ts, hb, ht⟩ := hb outer es a s hr
  obtain ⟨new, he, hf⟩ := h.ok hr
  exact ⟨ts, new, hb, he, .of_blockless hf ht⟩

end Combinators

section Line

variable (hl : line.Good)

include hl

theorem tells_conditionalHeader {c : ConditionalKind}
    (hk : (Line.afterLeading line).head?.map Nest.kind = some (.keyword (.conditional c))) :
    Tells false conditionalHeader line := by
  refine tells_of_frames records_conditionalHeader fun outer es a s h => ?_
  obtain ⟨ts, -, hb, -, held⟩ := line_ok sim_conditionalHeader (fun _ _ =>
    consumes_conditionalHeader reads_held hl.single (movable_of_keyword hk)) hl.closed h
  exact ⟨ts, hb, held.blockless⟩

theorem tells_endOfLine : Tells false endOfLine line := by
  refine tells_of_frames records_endOfLine fun outer es a s h => ?_
  obtain ⟨ts, -, hb, -, held⟩ :=
    line_ok sim_endOfLine (fun _ _ => consumes_endOfLine reads_held hl.single) hl.closed h
  exact ⟨ts, hb, held.blockless⟩

theorem tells_endif (ctx : Context) : Tells false (endif ctx) line := by
  refine tells_of_frames (records_endif ctx) fun outer es a s h => ?_
  obtain ⟨ts, -, hb, -, held⟩ :=
    line_ok (sim_endif ctx) (fun _ _ => consumes_endif reads_held hl.single) hl.closed h
  exact ⟨ts, hb, held.blockless⟩

theorem elseKeyword_ok {k : Keyword}
    (hk : (Line.afterLeading line).head?.map Nest.kind = some (.keyword k)) {outer : List Tree}
    {es : List Event} {a : Unit} {s : Cursor} (h : elseKeyword ⟨line, outer, es⟩ = .ok a s) :
    ∃ us ts, line = us ++ s.unread ∧ s.built = outer ++ ts ∧ Held us ts := by
  obtain ⟨us, ts, hus, hb, -, held, -⟩ := stretch_ok uniform_elseKeyword
    (fun _ _ => consumes_elseKeyword reads_held hk) hl.closed h
  exact ⟨us, ts, hus, hb, held⟩

theorem tells_elseKeyword {k : Keyword}
    (hk : (Line.afterLeading line).head?.map Nest.kind = some (.keyword k)) :
    Tells false elseKeyword line := by
  have hframes : RecordsFrames elseKeyword :=
    records_then records_skipLeading (records_then records_advance records_skipWhitespace)
  refine tells_of_frames hframes fun outer es a s h => ?_
  obtain ⟨us, ts, -, hb, held⟩ := elseKeyword_ok hl hk h
  exact ⟨ts, hb, held.blockless⟩

end Line

/-- A rule that makes one node and records frames. -/
structure MakesNode (p : Parser α) : Prop where
  frames : RecordsFrames p
  node : ∀ ns outer es a s, p ⟨ns, outer, es⟩ = .ok a s → ∃ k us, s.built = outer ++ [.node k us]

namespace MakesNode

theorem of_within {k : NodeKind} {p : Parser α} (h : RecordsFrames (within k p)) :
    MakesNode (within k p) where
  frames := h
  node ns outer es a s hr := by
    obtain ⟨s₁, -, -, hb⟩ := within_ok hr
    exact ⟨k, s₁.built, hb⟩

theorem of_failAt (ms : List Nest) (expected : List Expected) :
    MakesNode (failAt ms expected : Parser α) where
  frames := records_failAt ms expected
  node ns outer es a s hr := by cases hr

theorem oneLine {p : Parser Unit} (h : MakesNode p) (lines : List Line) :
    MakesNode (oneLine lines p) where
  frames := records_oneLine lines h.frames
  node ns outer es a s hr := by
    obtain ⟨a', s₁, hp, hr⟩ := bind_ok hr
    cases hr
    exact h.node ns outer es a' s hp

theorem ite {c : Prop} [Decidable c] {p q : Parser α} (hp : MakesNode p) (hq : MakesNode q) :
    MakesNode (if c then p else q) := by
  split
  · exact hp
  · exact hq

theorem specifiedLine (found : List Specifier) (after : Line) :
    MakesNode (specifiedLine found after) :=
  ite (of_within records_assignment) <| ite (of_within records_exportLine) <|
    ite (of_failAt _ _) (of_failAt _ _)

theorem specified (line : Line) (lines : List Line) : MakesNode (specified line lines) where
  frames := records_specified line lines
  node ns outer es a s hr := by
    obtain ⟨⟨found, after⟩, s₁, h₁, hr⟩ := bind_ok hr
    have hbody : MakesNode (if after.head?.any (·.kind == .keyword .define) = true
        then definition lines else Parser.oneLine lines (Parser.specifiedLine found after)) :=
      ite (of_within (records_definition lines)) ((specifiedLine found after).oneLine lines)
    obtain ⟨r, h⟩ | ⟨ms, h⟩ := specifiersOf_cases [] line
    · rw [h] at h₁
      cases h₁
      exact hbody.node ns outer es a s hr
    · rw [h] at h₁
      cases h₁

theorem rule (lines : List Line) : MakesNode (rule lines) := by
  have hrecipes : RecordsFrames (recipes lines) :=
    (recordsBelow (lines.length + 1)).recipes lines (Nat.lt_succ_self _)
  exact of_within (records_within _ (records_bind records_ruleHeader fun _ =>
    records_ite hrecipes records_pure))

end MakesNode

theorem statement_ok {n : Nest} {ns : List Nest} (ha : Line.afterLeading line = n :: ns)
    (hc : ¬ line.IsConditional) {outer : List Tree} {es : List Event} {r : Rest lines}
    {s : Cursor} (hr : statement lines ⟨line, outer, es⟩ = .ok r s) :
    ∃ k us new, s.built = outer ++ [.node k us] ∧ s.events = es ++ .statement n.kind :: new ∧
      ∀ e ∈ new, e.IsFrame := by
  have of {p : Parser (Rest lines)} (hp : MakesNode p)
      (h : p ⟨line, outer, es ++ [Event.statement n.kind]⟩ = .ok r s) : ∃ k us new,
        s.built = outer ++ [.node k us] ∧ s.events = es ++ .statement n.kind :: new ∧
          ∀ e ∈ new, e.IsFrame := by
    obtain ⟨k, us, hb⟩ := hp.node _ _ _ _ _ h
    obtain ⟨new, he, hf⟩ := hp.frames.ok h
    exact ⟨k, us, new, hb, by rw [he, List.append_assoc]; rfl, hf⟩
  rw [statement_eq_of_cons lines ha] at hr
  refine of ?_ hr
  split
  · exact .oneLine (.of_within records_blankLine) lines
  · exact .oneLine (.of_within records_commentLine) lines
  · next c hk => exact absurd ⟨c, by rw [ha, List.head?_cons, Option.map_some, hk]⟩ hc
  · exact .specified _ lines
  · exact .specified _ lines
  · exact .oneLine (.of_within records_includeLine) lines
  · exact .of_failAt _ _
  · split
    · exact .rule lines
    · exact .oneLine (.of_within records_assignment) lines
    · exact .ite (.oneLine (.of_within records_functionLine) lines) (.of_failAt _ _)

/-- The rules of statements that run over several lines, on fewer than `n` good lines. -/
structure TellsBelow (n : Nat) : Prop where
  statement : ∀ line lines, lines.length < n → Line.Good line → GoodLines lines →
    Tells true (statement lines) line
  closing : ∀ line lines, lines.length < n → Line.Good line → GoodLines lines →
    Tells false (closing .statements lines) line
  branch : ∀ lines, lines.length < n → GoodLines lines → ∀ ns,
    Tells true (branch .statements lines) ns

namespace TellsBelow

theorem branch_of (h : TellsBelow lines.length) (hg : GoodLines lines) (ns : List Nest) :
    Tells true (Parser.branch .statements lines) ns := by
  cases lines with
  | nil =>
    unfold Parser.branch
    exact fun outer es a s hr => by cases hr
  | cons line lines =>
    have hl : Line.Good line := hg line List.mem_cons_self
    have hgs := hg.suffix (List.suffix_cons line lines)
    have hbody : Tells true (if (Context.statements.closing? line).isSome = true
        then pure ⟨lines, Nat.lt_succ_self _⟩
        else Parser.statement lines >>= fun mid => Parser.branch .statements mid.1 >>= fun after =>
          pure ⟨after.1, after.2.trans (Nat.lt_succ_of_le mid.2)⟩ :
        Parser { rest : List Line // rest.length < (line :: lines).length }) line := by
      split
      · exact tells_pure
      · refine tells_bind (h.statement line lines (Nat.lt_succ_self _) hl hgs) ?_
        intro outer es mid s hs
        obtain ⟨ts, -, -, hp⟩ :=
          (soundBelow _).statement line lines (Nat.lt_succ_self _) hl hgs _ _ _ _ hs
        exact tells_bind (h.branch mid.1 (Nat.lt_succ_of_le mid.2) (hgs.suffix hp.suffix) _)
          fun _ _ _ _ _ => tells_pure
    unfold Parser.branch
    exact fun outer es => hbody outer es

theorem conditional_of (h : TellsBelow lines.length) (hl : Line.Good line)
    (hg : GoodLines lines) {k : ConditionalKind}
    (hk : (Line.afterLeading line).head?.map Nest.kind = some (.keyword (.conditional k))) :
    Tells false (Parser.conditional .statements lines) line := by
  rw [conditional_eq]
  refine tells_within (tells_bind (tells_conditionalHeader hl hk) fun outer es a s₁ h₁ => ?_)
  refine tells_bind (tells_within (h.branch_of hg _)) fun outer es after s₂ h₂ => ?_
  obtain ⟨s₃, h₃, hu, -⟩ := within_ok h₂
  obtain ⟨br, -, hp⟩ :=
    (soundBelow _).branch .statements lines (Nat.lt_succ_self _) hg _ _ _ _ _ h₃
  -- the branch ends in front of a line of the text
  have hmid : (s₃.unread :: after.1) <:+ lines := hp.suffix
  rw [hu]
  exact tells_bind (h.closing _ after.1 after.2 (hg _ (hmid.subset List.mem_cons_self))
    (hg.suffix ((List.suffix_cons _ _).trans hmid))) fun _ _ _ _ _ => tells_pure

theorem otherwise_of (h : TellsBelow lines.length) (hl : Line.Good line) (hg : GoodLines lines)
    (hc : Context.statements.closing? line = some .otherwise) :
    Tells false (Parser.otherwise .statements lines) line := by
  have hk := Context.kind_of_closing? hc
  rw [otherwise_eq]
  refine tells_bind (tells_elseKeyword hl hk) fun outer es a s₁ h₁ => ?_
  obtain ⟨us, ts, hus, -, -⟩ := elseKeyword_ok hl hk h₁
  have hl' : Line.Good s₁.unread := (hus ▸ hl : Line.Good (us ++ s₁.unread)).suffix
  have hbody : Tells false (if (s₁.unread.head?.map Nest.kind).any TokenKind.isConditional = true
      then Parser.conditional .statements lines >>= fun r => pure (true, r)
      else endOfLine >>= fun _ => within .branch (Parser.branch .statements lines) >>= fun r =>
        pure (false, ⟨r.1, Nat.le_of_lt r.2⟩) : Parser (Bool × Rest lines)) s₁.unread := by
    split
    · next hcond =>
      obtain ⟨k, hk'⟩ := Line.conditional_of_head hcond
      exact tells_bind (h.conditional_of hl' hg hk') fun _ _ _ _ _ => tells_pure
    · refine tells_bind (tells_endOfLine hl') fun outer es a s₂ _ => ?_
      exact tells_bind (tells_within (h.branch_of hg _)) fun _ _ _ _ _ => tells_pure
  exact fun outer es => hbody outer es

theorem closing_of (h : TellsBelow lines.length) (hl : Line.Good line) (hg : GoodLines lines) :
    Tells false (Parser.closing .statements lines) line := by
  have hbody : Tells false (if Context.statements.closing? line = some .otherwise
      then within .elseBranch (Parser.otherwise .statements lines) >>= fun r =>
        (if r.1 = true then pure () else endif .statements) >>= fun _ => pure r.2
      else endif .statements >>= fun _ => pure (.all lines) : Parser (Rest lines)) line := by
    split
    · next hc =>
      refine tells_bind (tells_within (h.otherwise_of hl hg hc)) fun outer es r s₁ h₁ => ?_
      obtain ⟨s₂, h₂, hu, -⟩ := within_ok h₁
      refine tells_bind ?_ fun _ _ _ _ _ => tells_pure
      obtain ⟨hr, -⟩ | ⟨hr, hgood, -⟩ := (soundBelow lines.length).otherwise_of hl hg hc h₂
      · rw [hr]
        exact tells_pure
      · rw [hr, hu]
        exact tells_endif hgood .statements
    · exact tells_bind (tells_endif hl .statements) fun _ _ _ _ _ => tells_pure
  exact fun outer es => hbody outer es

theorem statement_of (h : TellsBelow lines.length) (hl : Line.Good line) (hg : GoodLines lines) :
    Tells true (Parser.statement lines) line := by
  intro outer es r s hr
  cases ha : Line.afterLeading line with
  | nil =>
    rw [Parser.statement, unread_bind_eq, ha] at hr
    obtain ⟨_, s₁, h₁, hr⟩ := bind_ok hr
    cases hr
    obtain ⟨ts, hb, hts⟩ := skipLeading_ok hl h₁
    cases h₁
    exact ⟨ts, [], hb, (List.append_nil _).symm, .of_leaves hts⟩
  | cons n ns =>
    obtain ⟨ts, -, hb, hp⟩ :=
      (soundBelow _).statement line lines (Nat.lt_succ_self _) hl hg _ _ _ _ hr
    have hmade : ∃ k us new, s.built = outer ++ [.node k us] ∧
        s.events = es ++ .statement n.kind :: new ∧ Told false new [.node k us] := by
      by_cases hc : line.IsConditional
      · obtain ⟨c, hk⟩ := hc
        have hn : n.kind = .keyword (.conditional c) := by
          rw [ha, List.head?_cons, Option.map_some, Option.some.injEq] at hk
          exact hk
        rw [statement_eq_of_cons lines ha, hn] at hr
        obtain ⟨us, new, hb', he, ht⟩ := h.conditional_of hl hg hk _ _ _ _ hr
        rw [conditional_eq] at hr
        obtain ⟨s₁, -, -, hw⟩ := within_ok hr
        obtain rfl : us = _ := List.append_cancel_left (hb'.symm.trans hw)
        exact ⟨_, _, new, hw, by rw [he, hn, List.append_assoc]; rfl, ht⟩
      · obtain ⟨k, us, new, hb', he, hf⟩ := statement_ok ha hc hr
        obtain rfl : ts = _ := List.append_cancel_left (hb.symm.trans hb')
        exact ⟨k, us, new, hb', he, .of_blockless hf (hp.blockless_statement hc)⟩
    obtain ⟨k, us, new, hb', he, ht⟩ := hmade
    obtain rfl : ts = _ := List.append_cancel_left (hb.symm.trans hb')
    refine ⟨_, _, hb', he, ht.entry ?_⟩
    -- the node holds the lines of the statement, and so it starts as its first line does
    obtain ⟨used, hu, hspan⟩ := hp.extent
    have hused : GoodLines used := fun l hm => hg l (hu ▸ List.mem_append_left _ hm)
    have hclosed : Nest.ClosedAll (line ++ used.flatten) :=
      Nest.closedAll_append.2 ⟨hl.closed, hused.closed⟩
    rw [(hspan .root (by decide)).leadOf hclosed.isFlat]
    exact Nest.lead?_flattenAll hl.closed ha used.flatten

end TellsBelow

theorem tellsBelow (n : Nat) : TellsBelow n := by
  induction n with
  | zero => exact ⟨nofun, nofun, nofun⟩
  | succ n ih =>
    have h (lines : List Line) (hl : lines.length < n + 1) : TellsBelow lines.length := by
      have hle := Nat.le_of_lt_succ hl
      exact ⟨fun l ls hs => ih.1 l ls (by omega), fun l ls hs => ih.2 l ls (by omega),
        fun ls hs => ih.3 ls (by omega)⟩
    exact ⟨fun _ ls hl => (h ls hl).statement_of, fun _ ls hl => (h ls hl).closing_of,
      fun ls hl => (h ls hl).branch_of⟩

/-- Statements that are parsed are announced one by one. -/
theorem tells_statements {lines : List Line} (hg : GoodLines lines) (ns : List Nest) :
    Tells true (statements lines) ns := by
  induction hn : lines.length using Nat.strong_induction_on generalizing lines ns with
  | _ n ih =>
    cases lines with
    | nil =>
      rw [statements]
      exact tells_pure
    | cons line lines =>
      have hl : Line.Good line := hg line List.mem_cons_self
      have hgs := hg.suffix (List.suffix_cons line lines)
      have hbody : Tells true (Parser.statement lines >>= fun mid => statements mid.1) line := by
        refine tells_bind ((tellsBelow _).statement line lines (Nat.lt_succ_self _) hl hgs) ?_
        intro outer es mid s hs
        obtain ⟨ts, -, -, hp⟩ :=
          (soundBelow _).statement line lines (Nat.lt_succ_self _) hl hgs _ _ _ _ hs
        have hlt : mid.1.length < n := by
          rw [← hn, List.length_cons]
          exact Nat.lt_succ_of_le mid.2
        exact ih mid.1.length hlt (hgs.suffix hp.suffix) s.unread rfl
      rw [statements]
      exact fun outer es => hbody outer es

end Parser

end MakeTree
