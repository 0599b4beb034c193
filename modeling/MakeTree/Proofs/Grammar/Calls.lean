import MakeTree.Proofs.Grammar.Soundness

/-!
Which tasks a parser comes to. `Calls task lines task' lines'` says that in front of `lines` the
parser of the one task goes on with that of the other in front of `lines'`. With what a task fails
that has been reached, the first task fails (`Reaches.fails`).
-/

namespace MakeTree

namespace Likeness

theorem same_row (ns : List Nest) : same.Row ns ns :=
  .of_seams (same_nests ns)
    (seams_of_nests (fun {us vs} (h : us = vs) => congrArg _ h.symm) (same_nests ns) _)

theorem same_lines (lines : List Line) : same.Lines lines lines :=
  List.forall₂_same.2 fun l _ => same_row l

end Likeness

namespace Parser

open Likeness

section Fails

variable {α β : Type} {p : Parser α} {f : α → Parser β} {ns ms : List Nest} {ts : List Tree}
  {a : α} {e : ParseError} {outer : List Tree} {es : List Event} {s : Cursor}

/-- In front of `ns`, `p` fails with `e`, whatever was built before. -/
def Fails (p : Parser α) (ns : List Nest) (e : ParseError) : Prop :=
  ∀ outer es, ∃ s, p ⟨ns, outer, es⟩ = .error e s

theorem fails_of_error {V : α → α → Prop} (hp : Sim .same V p p)
    (h : p ⟨ns, outer, es⟩ = .error e s) : Fails p ns e := by
  intro outer' es'
  have hs := hp ns ns (same_row ns) outer outer' es es'
  rw [h] at hs
  generalize p ⟨ns, outer', es'⟩ = r at hs ⊢
  cases hs with
  | @error _ e' _ s' he =>
    have he' : e' = e := by
      cases he with
      | token ht _ => rw [show _ = _ from ht]
      | atEnd _ => rfl
    exact ⟨s', by rw [he']⟩

theorem Fails.bind (h : Fails p ns e) : Fails (p >>= f) ns e := by
  intro outer es
  obtain ⟨s, h⟩ := h outer es
  refine ⟨s, ?_⟩
  show EStateM.bind p f _ = _
  rw [EStateM.bind, h]

theorem Takes.fails (h : Takes p ns a ms ts) (hf : Fails (f a) ms e) : Fails (p >>= f) ns e := by
  intro outer es
  obtain ⟨es', h⟩ := h outer es
  obtain ⟨s, hf⟩ := hf (outer ++ ts) es'
  refine ⟨s, ?_⟩
  show EStateM.bind p f _ = _
  rw [EStateM.bind, h]
  exact hf

theorem Fails.within (h : Fails p ns e) (k : NodeKind) : Fails (within k p) ns e := by
  intro outer es
  obtain ⟨s, h⟩ := h [] es
  exact ⟨s, by rw [within_eq, h]⟩

theorem Fails.of_eq {q : Parser α} (h : Fails q ns e)
    (he : ∀ outer es, ∃ es', p ⟨ns, outer, es⟩ = q ⟨ns, outer, es'⟩) : Fails p ns e := by
  intro outer es
  obtain ⟨es', he⟩ := he outer es
  obtain ⟨s, h⟩ := h outer es'
  exact ⟨s, he.trans h⟩

end Fails

/-- The parser of the task fails. -/
def Task.Fails : Task → List Line → ParseError → Prop
  | .statement line, lines, e => Parser.Fails (Parser.statement lines) line e
  | .item line, lines, e => Parser.Fails (recipeItem line lines) line e
  | .conditional ctx line, lines, e => Parser.Fails (Parser.conditional ctx lines) line e
  | .closing ctx line, lines, e => Parser.Fails (Parser.closing ctx lines) line e
  | .branch ctx, lines, e => Parser.Fails (Parser.branch ctx lines) [] e
  | .recipes, lines, e => Parser.Fails (Parser.recipes lines) [] e
  | .file, lines, e => Parser.Fails (statements lines) [] e

/-- In front of `lines` the first task goes on with the second. -/
inductive Calls : Task → List Line → Task → List Line → Prop
  | recipes {line : Line} {lines : List Line} {hd : List Tree} (hl : line.IsRule)
      (h : Takes ruleHeader line true [] hd) : Calls (.statement line) lines .recipes lines
  | conditional {line : Line} {lines : List Line} (hl : line.IsConditional) :
      Calls (.statement line) lines (.conditional .statements line) lines
  | itemConditional {line : Line} {lines : List Line} {k : ConditionalKind}
      (hk : LineKind.ofLine line = .keyword (.conditional k)) :
      Calls (.item line) lines (.conditional .recipe line) lines
  | branch {ctx : Context} {line : Line} {lines : List Line} {hd : List Tree}
      (h : Takes conditionalHeader line () [] hd) :
      Calls (.conditional ctx line) lines (.branch ctx) lines
  | closing {ctx : Context} {line mid : Line} {lines after : List Line} {hd br : List Tree}
      (h : Takes conditionalHeader line () [] hd)
      (hb : Parses (.branch ctx) lines br (mid :: after)) :
      Calls (.conditional ctx line) lines (.closing ctx mid) after
  | chained {ctx : Context} {us line : Line} {lines : List Line} {hd : List Tree}
      (hl : ctx.closing? (us ++ line) = some .otherwise)
      (h : Takes elseKeyword (us ++ line) () line hd)
      (hk : (line.head?.map Nest.kind).any TokenKind.isConditional = true) :
      Calls (.closing ctx (us ++ line)) lines (.conditional ctx line) lines
  | otherwise {ctx : Context} {us line : Line} {lines : List Line} {hd el : List Tree}
      (hl : ctx.closing? (us ++ line) = some .otherwise)
      (h : Takes elseKeyword (us ++ line) () line hd)
      (hk : (line.head?.map Nest.kind).any TokenKind.isConditional = false)
      (h' : Takes endOfLine line () [] el) :
      Calls (.closing ctx (us ++ line)) lines (.branch ctx) lines
  | entry {ctx : Context} {line : Line} {lines : List Line} (hl : ctx.closing? line = none) :
      Calls (.branch ctx) (line :: lines) (.entry ctx line) lines
  | entries {ctx : Context} {line : Line} {lines mid : List Line} {ts : List Tree}
      (hl : ctx.closing? line = none) (h : Parses (.entry ctx line) lines ts mid) :
      Calls (.branch ctx) (line :: lines) (.branch ctx) mid
  | item {line : Line} {lines : List Line} (h : Line.continuesRecipe (line :: lines) = true) :
      Calls .recipes (line :: lines) (.item line) lines
  | items {line : Line} {lines mid : List Line} {ts : List Tree}
      (h : Line.continuesRecipe (line :: lines) = true) (hi : Parses (.item line) lines ts mid) :
      Calls .recipes (line :: lines) .recipes mid
  | statement {line : Line} {lines : List Line} :
      Calls .file (line :: lines) (.statement line) lines
  | statements {line : Line} {lines mid : List Line} {ts : List Tree}
      (h : Parses (.statement line) lines ts mid) : Calls .file (line :: lines) .file mid

/-- From the first task the parser comes to the second. -/
inductive Reaches (task : Task) (lines : List Line) : Task → List Line → Prop
  | refl : Reaches task lines task lines
  | tail {task' task'' : Task} {lines' lines'' : List Line} (h : Reaches task lines task' lines')
      (hc : Calls task' lines' task'' lines'') : Reaches task lines task'' lines''

theorem Reaches.head {task task' task'' : Task} {lines lines' lines'' : List Line}
    (hc : Calls task lines task' lines') (h : Reaches task' lines' task'' lines'') :
    Reaches task lines task'' lines'' := by
  induction h with
  | refl => exact .tail .refl hc
  | tail _ hc' ih => exact .tail ih hc'

section Closing

variable {ctx : Context} {line : Line} {lines : List Line} {outer : List Tree} {es : List Event}

theorem closing_eq_otherwise (h : ctx.closing? line = some .otherwise) :
    closing ctx lines ⟨line, outer, es⟩ =
      (within .elseBranch (otherwise ctx lines) >>= fun r =>
        (if r.1 = true then pure () else endif ctx) >>= fun _ => pure r.2) ⟨line, outer, es⟩ := by
  rw [closing, unread_bind_eq, if_pos h]

theorem closing_eq_endif (h : ctx.closing? line ≠ some .otherwise) :
    closing ctx lines ⟨line, outer, es⟩ =
      (endif ctx >>= fun _ => pure (.all lines)) ⟨line, outer, es⟩ := by
  rw [closing, unread_bind_eq, if_neg h]

theorem closing_fails {us : Line} {hd : List Tree} {e : ParseError}
    (hl : ctx.closing? (us ++ line) = some .otherwise)
    (h : Takes elseKeyword (us ++ line) () line hd)
    (hf : Fails (if (line.head?.map Nest.kind).any TokenKind.isConditional = true then
        conditional ctx lines >>= fun r => pure (true, r)
      else endOfLine >>= fun _ => within ctx.branch (branch ctx lines) >>= fun r =>
        pure (false, ⟨r.1, Nat.le_of_lt r.2⟩)) line e) : Fails (closing ctx lines) (us ++ line) e := by
  have ho : Fails (otherwise ctx lines) (us ++ line) e := by
    rw [otherwise_eq]
    exact h.fails hf
  exact Fails.of_eq (ho.within .elseBranch).bind fun _ es => ⟨es, closing_eq_otherwise hl⟩

end Closing

/-- A task fails with what a task that it goes on with fails with. -/
theorem Calls.fails {task task' : Task} {lines lines' : List Line} {e : ParseError}
    (h : Calls task lines task' lines') (hf : task'.Fails lines' e) : task.Fails lines e := by
  cases h with
  | @recipes line lines hd hl h =>
    refine Fails.of_eq ?_ (statement_of_isRule hl lines)
    have hr : Fails (ruleHeader >>= fun b => if b = true then Parser.recipes lines
        else pure (Rest.all lines)) line e := h.fails hf
    exact hr.within .rule
  | conditional hl => exact Fails.of_eq hf (statement_of_isConditional hl lines)
  | itemConditional hk =>
    refine Fails.of_eq hf fun outer es => ⟨es, ?_⟩
    rw [Parser.recipeItem, hk]
  | @branch ctx _ _ _ h =>
    show Fails _ _ _
    rw [conditional_eq]
    exact (h.fails (hf.within ctx.branch).bind).within ctx.node
  | @closing ctx line mid lines after hd br h hb =>
    obtain ⟨⟨after', hlt⟩, hr, ht⟩ := hb.runs []
    subst hr
    show Fails _ _ _
    rw [conditional_eq]
    exact (h.fails ((ht.within ctx.branch).fails (Fails.bind hf))).within ctx.node
  | chained hl h hk =>
    refine closing_fails hl h ?_
    rw [if_pos hk]
    exact Fails.bind hf
  | @otherwise ctx us line lines hd el hl h hk h' =>
    refine closing_fails hl h ?_
    rw [if_neg (by simp [hk])]
    exact h'.fails (hf.within ctx.branch).bind
  | @entry ctx line lines hl =>
    show Fails _ _ _
    unfold Parser.branch
    refine (takes_load line).fails ?_
    rw [if_neg (by simp [hl])]
    cases ctx
    · exact Fails.bind hf
    · exact Fails.bind hf
  | @entries ctx line lines mid ts hl h =>
    show Fails _ _ _
    unfold Parser.branch
    refine (takes_load line).fails ?_
    rw [if_neg (by simp [hl])]
    cases ctx
    all_goals
      obtain ⟨⟨mid', hle⟩, hr, ht⟩ := h.runs
      subst hr
      exact ht.fails (Fails.bind hf)
  | @item line lines h =>
    show Fails _ _ _
    rw [Parser.recipes, if_pos h]
    exact (takes_load line).fails (Fails.bind hf)
  | @items line lines mid ts h hi =>
    obtain ⟨⟨mid', hle⟩, hr, ht⟩ := hi.runs
    subst hr
    show Fails _ _ _
    rw [Parser.recipes, if_pos h]
    exact (takes_load line).fails (ht.fails (Fails.bind hf))
  | @statement line lines =>
    show Fails _ _ _
    rw [Parser.statements]
    exact (takes_load line).fails (Fails.bind hf)
  | @statements line lines mid ts h =>
    obtain ⟨⟨mid', hle⟩, hr, ht⟩ := h.runs
    subst hr
    show Fails _ _ _
    rw [Parser.statements]
    exact (takes_load line).fails (ht.fails hf)

theorem Reaches.fails {task task' : Task} {lines lines' : List Line} {e : ParseError}
    (h : Reaches task lines task' lines') (hf : task'.Fails lines' e) : task.Fails lines e := by
  induction h with
  | refl => exact hf
  | tail _ hc ih => exact ih (hc.fails hf)

theorem Parses.closing?_isSome {ctx : Context} {mid : Line} {lines after : List Line} {ts : List Tree}
    (h : Parses (.branch ctx) lines ts (mid :: after)) : (ctx.closing? mid).isSome = true := by
  generalize ht : Task.branch ctx = task at h
  generalize hm : mid :: after = rest at h
  induction h with
  | branchEnd hl =>
    obtain rfl := Task.branch.inj ht
    obtain ⟨rfl, -⟩ := List.cons.inj hm
    exact hl
  | branchEntry _ _ _ _ ih => exact ih ht hm
  | _ => cases ht

/-- The lines of the task are the last of the file. -/
def Task.On (file : List Line) : Task → List Line → Prop
  | .statement line, lines => line :: lines <:+ file
  | .item line, lines => line :: lines <:+ file
  | .conditional _ line, lines => line.IsConditional ∧ ∃ us, (us ++ line) :: lines <:+ file
  | .closing ctx line, lines => (ctx.closing? line).isSome = true ∧ line :: lines <:+ file
  | .branch _, lines => lines <:+ file
  | .recipes, lines => lines <:+ file
  | .file, lines => lines <:+ file

/-- Of the tasks in front of the same lines, those that go on with others come first. -/
def Task.rank : Task → Nat
  | .statement _ => 3
  | .item _ => 3
  | .closing .. => 2
  | .conditional .. => 1
  | .branch _ => 0
  | .recipes => 0
  | .file => 0

section Down

variable {task task' : Task} {lines lines' file : List Line} {e : ParseError}

theorem Calls.on (h : Calls task lines task' lines') (ho : task.On file lines) :
    task'.On file lines' := by
  cases h with
  | recipes _ _ => exact (List.suffix_cons _ _).trans ho
  | conditional hl => exact ⟨hl, [], ho⟩
  | itemConditional hk => exact ⟨⟨_, LineKind.kind_of_keyword hk⟩, [], ho⟩
  | branch _ =>
    obtain ⟨-, us, ho⟩ := ho
    exact (List.suffix_cons _ _).trans ho
  | closing _ hb =>
    obtain ⟨-, us, ho⟩ := ho
    exact ⟨hb.closing?_isSome, (hb.suffix.trans (List.suffix_cons _ _)).trans ho⟩
  | chained _ _ hk => exact ⟨Line.conditional_of_head hk, _, ho.2⟩
  | otherwise _ _ _ _ => exact (List.suffix_cons _ _).trans ho.2
  | @entry ctx _ _ _ => cases ctx <;> exact ho
  | entries _ h => exact (h.suffix.trans (List.suffix_cons _ _)).trans ho
  | item _ => exact ho
  | items _ h => exact (h.suffix.trans (List.suffix_cons _ _)).trans ho
  | statement => exact ho
  | statements h => exact (h.suffix.trans (List.suffix_cons _ _)).trans ho

theorem Reaches.on (h : Reaches task lines task' lines') (ho : task.On file lines) :
    task'.On file lines' := by
  induction h with
  | refl => exact ho
  | tail _ hc ih => exact hc.on ih

theorem Calls.lt (h : Calls task lines task' lines') :
    4 * lines'.length + task'.rank < 4 * lines.length + task.rank := by
  cases h with
  | closing _ hb =>
    have := hb.suffix.length_le
    simp only [List.length_cons, Task.rank] at this ⊢
    omega
  | @entry ctx _ _ _ => cases ctx <;> simp only [List.length_cons, Task.entry, Task.rank] <;> omega
  | entries _ h =>
    have := h.suffix.length_le
    simp only [List.length_cons, Task.rank]
    omega
  | items _ h =>
    have := h.suffix.length_le
    simp only [List.length_cons, Task.rank]
    omega
  | statements h =>
    have := h.suffix.length_le
    simp only [List.length_cons, Task.rank]
    omega
  | _ =>
    simp only [List.length_cons, Task.rank]
    omega

end Down

end Parser

end MakeTree
