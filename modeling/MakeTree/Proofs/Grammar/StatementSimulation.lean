import MakeTree.Proofs.Grammar.RuleSimulation

/-!
Statements do the same on lines that are alike (`sim_statements`). The rules call each other on
fewer lines, or on as many with a rule further down, so each is proved from all rules on fewer
lines (`Below`).
-/

namespace MakeTree

namespace Likeness

variable {ρ : Likeness} {ls ls' : List Line}

theorem Lines.nests (h : ρ.Lines ls ls') : List.Forall₂ ρ.Nests ls ls' := h.imp fun _ _ => Row.nests

theorem Lines.flatten (h : ρ.Lines ls ls') : ρ.Nests ls.flatten ls'.flatten :=
  List.rel_flatten h.nests

theorem Lines.getD (h : ρ.Lines ls ls') (count : Nat) :
    ρ.Row (ls[count]?.getD []) (ls'[count]?.getD []) := by
  induction h generalizing count with
  | nil => exact .nil
  | cons hl _ ih =>
    cases count with
    | zero => exact hl
    | succ count => exact ih count

end Likeness

namespace Parser

open Likeness

variable {ρ : Likeness} {lines lines' : List Line}

/-- The lines left on one side are like those left on the other. -/
def SameRest (ρ : Likeness) {P Q : List Line → Prop} (r : { rest // P rest })
    (r' : { rest // Q rest }) : Prop := ρ.Lines r.1 r'.1

section OneLine

variable (h : ρ.Lines lines lines')

include h

theorem sim_oneLine {p q : Parser Unit} (hp : Sim ρ Eq p q) :
    Sim ρ (SameRest ρ) (oneLine lines p) (oneLine lines' q) :=
  sim_then hp (sim_pure h)

theorem sim_body : Sim ρ Eq (body lines) (body lines') := by
  have hd : ρ.Nests lines.flatten.dropLast lines'.flatten.dropLast := by
    rw [List.dropLast_eq_take, List.dropLast_eq_take, h.flatten.length_eq]
    exact List.forall₂_take _ h.flatten
  refine sim_then (sim_within _ (sim_then ?_ (sim_build (treesOf hd)))) ?_
  · rw [hd.length_eq]
    exact sim_fragments _ _ hd
  refine sim_build (treesOf ?_)
  have hr : ρ.Nests lines.flatten.reverse lines'.flatten.reverse := List.rel_reverse h.flatten
  rw [List.getLast?_eq_head?_reverse, List.getLast?_eq_head?_reverse]
  generalize lines.flatten.reverse = ns at hr ⊢
  generalize lines'.flatten.reverse = ms at hr ⊢
  cases hr with
  | nil => exact .nil
  | cons hn _ => exact .cons hn .nil

theorem sim_definition : Sim ρ (SameRest ρ) (definition lines) (definition lines') := by
  refine sim_within _ (sim_then sim_skipLeading (sim_bind sim_specifiers fun _ _ _ => ?_))
  refine sim_then (sim_move 1) (sim_then sim_skipWhitespace ?_)
  refine sim_then (sim_refuse blind_isAssignOp _) ?_
  refine sim_then (sim_expression (blind_isWhitespace.or blind_isAssignOp)) ?_
  refine sim_then sim_skipWhitespace (sim_then (sim_advanceIf blind_isAssignOp) ?_)
  refine sim_then sim_endOfLine ?_
  rw [endef? h.nests]
  cases Line.endef? 0 lines with
  | none => exact sim_throw (.atEnd _)
  | some count =>
    refine sim_then (sim_body (List.forall₂_take count h)) (sim_then (sim_load (h.getD count)) ?_)
    refine sim_then sim_skipLeading (sim_then (sim_move 1) (sim_then sim_endOfLine ?_))
    exact sim_pure (List.forall₂_drop (count + 1) h)

end OneLine

theorem sim_specifiedLine (found : List Specifier) {after after' : Line}
    (h : ρ.Nests after after') :
    Sim ρ Eq (specifiedLine found after) (specifiedLine found after') := by
  unfold specifiedLine
  rw [hasAssignOp h, (blind_isLineBreak.or blind_isComment).head?_all h]
  exact sim_ite Iff.rfl sim_assignment <| sim_ite Iff.rfl sim_exportLine <|
    sim_ite Iff.rfl (sim_failAt h _)
      (sim_failAt (blind_isLineBreak.not.dropWhile (flattenAll after h)) _)

theorem sim_specified {line line' : Line} (hl : ρ.Nests line line') (h : ρ.Lines lines lines') :
    Sim ρ (SameRest ρ) (specified line lines) (specified line' lines') := by
  refine sim_bind (sim_specifiersOf [] hl) ?_
  rintro ⟨found, after⟩ ⟨_, after'⟩ ⟨rfl, ha⟩
  simp only at ha ⊢
  rw [(blind_kind (· == .keyword .define)).head?_any ha]
  exact sim_ite Iff.rfl (sim_definition h) (sim_oneLine h (sim_specifiedLine _ ha))

theorem sim_endif (ctx : Context) : Sim ρ Eq (endif ctx) (endif ctx) := by
  refine sim_unread_bind fun line line' h => ?_
  rw [closing? h.nests]
  exact sim_ite Iff.rfl (sim_then sim_skipLeading (sim_then (sim_move 1) sim_endOfLine))
    (sim_failAt (afterLeading h.nests) _)

/-- The rules that run over several lines, on fewer than `n` lines. -/
structure Below (ρ : Likeness) (n : Nat) : Prop where
  statement : ∀ {lines lines'}, ρ.Lines lines lines' → lines.length < n →
    Sim ρ (SameRest ρ) (statement lines) (statement lines')
  otherwise : ∀ ctx {lines lines'}, ρ.Lines lines lines' → lines.length < n →
    Sim ρ (fun r r' => r'.1 = r.1 ∧ SameRest ρ r.2 r'.2) (otherwise ctx lines)
      (otherwise ctx lines')
  recipeItem : ∀ {line line' lines lines'}, ρ.Nests line line' → ρ.Lines lines lines' →
    lines.length < n → Sim ρ (SameRest ρ) (recipeItem line lines) (recipeItem line' lines')
  branch : ∀ ctx {lines lines'}, ρ.Lines lines lines' → lines.length < n →
    Sim ρ (SameRest ρ) (branch ctx lines) (branch ctx lines')
  recipes : ∀ {lines lines'}, ρ.Lines lines lines' → lines.length < n →
    Sim ρ (SameRest ρ) (recipes lines) (recipes lines')

namespace Below

variable (hb : Below ρ lines.length) (h : ρ.Lines lines lines')

include hb h

theorem branch_of (ctx : Context) :
    Sim ρ (SameRest ρ) (Parser.branch ctx lines) (Parser.branch ctx lines') := by
  cases h with
  | nil =>
    unfold Parser.branch
    exact sim_throw (.atEnd _)
  | @cons line line' lines lines' hl h =>
    unfold Parser.branch
    refine sim_then (sim_load hl) (sim_ite ?_ (sim_pure h) ?_)
    · rw [closing? hl.nests]
    refine sim_bind (V := SameRest ρ) ?_ ?_
    · cases ctx with
      | statements => exact hb.statement h (Nat.lt_succ_self _)
      | recipe => exact hb.recipeItem hl.nests h (Nat.lt_succ_self _)
    · rintro ⟨rest, hr⟩ ⟨rest', hr'⟩ hs
      refine sim_bind (hb.branch ctx hs (Nat.lt_succ_of_le hr)) ?_
      rintro ⟨after, ha⟩ ⟨after', ha'⟩ hs
      exact sim_pure hs

theorem recipes_of : Sim ρ (SameRest ρ) (Parser.recipes lines) (Parser.recipes lines') := by
  cases h with
  | nil =>
    rw [Parser.recipes]
    exact sim_pure .nil
  | @cons line line' lines lines' hl h =>
    rw [Parser.recipes, Parser.recipes, continuesRecipe (Lines.nests (.cons hl h))]
    refine sim_ite Iff.rfl (sim_then (sim_load hl) ?_) (sim_pure (.cons hl h))
    refine sim_bind (hb.recipeItem hl.nests h (Nat.lt_succ_self _)) ?_
    rintro ⟨rest, hr⟩ ⟨rest', hr'⟩ hs
    refine sim_bind (hb.recipes hs (Nat.lt_succ_of_le hr)) ?_
    rintro ⟨after, ha⟩ ⟨after', ha'⟩ hs
    exact sim_pure hs

theorem conditional_of (ctx : Context) :
    Sim ρ (SameRest ρ) (conditional ctx lines) (conditional ctx lines') := by
  rw [conditional, conditional]
  refine sim_within _ (sim_then sim_conditionalHeader ?_)
  refine sim_bind (sim_within _ (hb.branch_of h ctx)) ?_
  rintro ⟨afterThen, hThen⟩ ⟨afterThen', hThen'⟩ hs
  refine sim_unread_bind fun line line' hl => ?_
  rw [closing? hl.nests]
  refine sim_ite Iff.rfl ?_ (sim_then (sim_endif ctx) (sim_pure hs))
  refine sim_bind (sim_within _ (hb.otherwise ctx hs hThen)) ?_
  rintro ⟨chained, afterElse, hElse⟩ ⟨chained', afterElse', hElse'⟩ ⟨hc, hr⟩
  obtain rfl : chained' = chained := hc
  exact sim_then (sim_ite Iff.rfl (sim_pure rfl) (sim_endif ctx)) (sim_pure hr)

theorem otherwise_of (ctx : Context) :
    Sim ρ (fun r r' => r'.1 = r.1 ∧ SameRest ρ r.2 r'.2) (Parser.otherwise ctx lines)
      (Parser.otherwise ctx lines') := by
  rw [Parser.otherwise, Parser.otherwise]
  refine sim_then sim_skipLeading (sim_then (sim_move 1) (sim_then sim_skipWhitespace ?_))
  refine sim_bind sim_kind? ?_
  rintro kind _ rfl
  refine sim_ite Iff.rfl ?_ (sim_then sim_endOfLine ?_)
  · exact sim_bind (hb.conditional_of h ctx) fun r r' hr => sim_pure ⟨rfl, hr⟩
  · refine sim_bind (sim_within _ (hb.branch_of h ctx)) ?_
    rintro ⟨rest, hr⟩ ⟨rest', hr'⟩ hs
    exact sim_pure ⟨rfl, hs⟩

theorem recipeItem_of {line line' : Line} (hl : ρ.Nests line line') :
    Sim ρ (SameRest ρ) (Parser.recipeItem line lines) (Parser.recipeItem line' lines') := by
  rw [Parser.recipeItem, Parser.recipeItem, ofLine hl]
  split
  · exact sim_oneLine h sim_recipeLine
  · exact sim_oneLine h sim_blankLine
  · exact sim_oneLine h sim_commentLine
  · exact hb.conditional_of h .recipe
  · exact sim_failAt (afterLeading hl) _

theorem statement_of : Sim ρ (SameRest ρ) (Parser.statement lines) (Parser.statement lines') := by
  rw [Parser.statement, Parser.statement]
  refine sim_unread_bind fun line line' hl => ?_
  have ha := afterLeading hl.nests
  generalize Line.afterLeading line = as at ha ⊢
  generalize Line.afterLeading line' = as' at ha ⊢
  cases ha with
  | nil => exact sim_oneLine h sim_skipLeading
  | @cons n m ns ms hn hs =>
    have ha : ρ.Nests (n :: ns) (m :: ms) := .cons hn hs
    simp only [hn.kind, separator? ha, startsExpansion hn]
    refine sim_then (sim_record _ _) ?_
    split
    · exact sim_oneLine h sim_blankLine
    · exact sim_oneLine h sim_commentLine
    · exact hb.conditional_of h .statements
    · exact sim_specified ha h
    · exact sim_specified ha h
    · exact sim_oneLine h sim_includeLine
    · exact sim_failAt ha _
    · split
      · exact sim_within _ (sim_cond sim_ruleHeader (hb.recipes_of h) (sim_pure h))
      · exact sim_oneLine h sim_assignment
      · exact sim_ite Iff.rfl (sim_oneLine h sim_functionLine) (sim_failAt ha _)

end Below

theorem below (ρ : Likeness) (n : Nat) : Below ρ n := by
  induction n with
  | zero => exact ⟨nofun, nofun, nofun, nofun, nofun⟩
  | succ n ih =>
    have hb (lines : List Line) (hl : lines.length < n + 1) : Below ρ lines.length := by
      have hle := Nat.le_of_lt_succ hl
      exact ⟨fun h hs => ih.1 h (by omega), fun c _ _ h hs => ih.2 c h (by omega),
        fun hn h hs => ih.3 hn h (by omega), fun c _ _ h hs => ih.4 c h (by omega),
        fun h hs => ih.5 h (by omega)⟩
    exact ⟨fun h hl => (hb _ hl).statement_of h, fun c _ _ h hl => (hb _ hl).otherwise_of h c,
      fun hn h hl => (hb _ hl).recipeItem_of h hn, fun c _ _ h hl => (hb _ hl).branch_of h c,
      fun h hl => (hb _ hl).recipes_of h⟩

theorem sim_statement (h : ρ.Lines lines lines') :
    Sim ρ (SameRest ρ) (statement lines) (statement lines') :=
  (below ρ lines.length).statement_of h

theorem sim_statements (h : ρ.Lines lines lines') :
    Sim ρ Eq (statements lines) (statements lines') := by
  induction hn : lines.length using Nat.strong_induction_on generalizing lines lines' with
  | _ n ih =>
    cases h with
    | nil =>
      rw [statements]
      exact sim_pure rfl
    | cons hl h =>
      rw [statements, statements]
      refine sim_then (sim_load hl) (sim_bind (sim_statement h) ?_)
      rintro ⟨rest, hr⟩ ⟨rest', hr'⟩ hs
      rw [List.length_cons] at hn
      exact ih rest.length (by omega) hs rfl

end Parser

end MakeTree
