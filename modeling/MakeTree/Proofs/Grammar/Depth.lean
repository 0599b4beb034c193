import MakeTree.Proofs.Grammar.Loops
import MakeTree.Proofs.Nest.Layout
import MakeTree.Proofs.Nest.Sound
import Mathlib.Algebra.Order.BigOperators.Group.List
import Mathlib.Algebra.Order.Group.Nat

/-!
How deep the calls of a text's parser are nested. One level of the calls of a recursive function is
itself a function of what is called, and the function does not depend on calls that are nested deeper
than the level is iterated (`NestsAtMost`). The depth is bounded by a rank that goes down with each
call (`nestsAtMost_of_rank`): by the length of what is read again, by the number of nests that are
left, and by the number of lines.
-/

namespace MakeTree

section Rank

variable {α : Type} {β : α → Type} {F : ((x : α) → β x) → (x : α) → β x} {f : (x : α) → β x}

/-- From `x` on, at most `n` calls of `f` are nested, each of which does what `F` says of the calls
in it: it does not matter what is called deeper. -/
def NestsAtMost (F : ((x : α) → β x) → (x : α) → β x) (f : (x : α) → β x) (x : α) (n : Nat) : Prop :=
  ∀ g, F^[n] g x = f x

/-- Where each call has a rank below the one it is made in, the rank bounds the depth. -/
theorem nestsAtMost_of_rank (rank : α → Nat)
    (h : ∀ g x, (∀ y, rank y < rank x → g y = f y) → F g x = f x) {x : α} {n : Nat}
    (hn : rank x < n) : NestsAtMost F f x n := by
  intro g
  induction n generalizing x with
  | zero => exact absurd hn (Nat.not_lt_zero _)
  | succ n ih =>
    rw [Function.iterate_succ_apply']
    refine h _ x fun y hy => ?_
    exact ih (by omega)

end Rank

namespace Lexer

/-- The search for an illegal character, with `inside` for what is inside of literals. -/
def searchWith (inside : Lexer → List Event × Option LexError) (lx : Lexer) :
    List Event × Option LexError :=
  match _h : lx.step with
  | none => ([], none)
  | some (.continuation _, next) => next.searchWith inside
  | some (.illegal p c, _) => ([], some (.illegalCharacter p c))
  | some (.token t change, next) =>
    if t.kind = .stringLiteral then
      match inside t.inside with
      | (events, some e) => (events, some e)
      | (events, none) =>
        let r := next.searchWith inside
        (events ++ r.1, r.2)
    else
      let r := next.searchWith inside
      ((Piece.token t change).frameEvents ++ r.1, r.2)
termination_by lx.rest.length
decreasing_by all_goals exact step_lt _h

/-- The flat nests of a text, with `inside` for those of literals. -/
def flatNestsWith (inside : Lexer → List Nest × List Trivia) (lx : Lexer) (leading : List Trivia) :
    List Nest × List Trivia :=
  match _h : lx.step with
  | none => ([], leading)
  | some (.continuation t, next) => next.flatNestsWith inside (leading ++ [.continuation t])
  | some (.illegal _ c, next) => next.flatNestsWith inside (leading ++ [.skipped c])
  | some (.token t _, next) =>
    let x : Lexeme := ⟨leading, t⟩
    let after := next.flatNestsWith inside []
    let n : Nest :=
      if t.kind = .stringLiteral then
        if t.inside.unclosed?.isSome then .raw x
        else .quoted x (Nest.gather (inside t.inside).1) (inside t.inside).2
      else .leaf x
    (n :: after.1, after.2)
termination_by lx.rest.length
decreasing_by all_goals exact step_lt _h

theorem inside_length {lx next : Lexer} {t : Token} {change : FrameChange}
    (h : lx.step = some (.token t change, next)) : t.inside.rest.length < t.text.length := by
  have hpos := List.length_pos_iff.2 (step_text_ne_nil h)
  simp only [Piece.text] at hpos
  simp only [Token.inside, List.length_dropLast, List.length_tail]
  omega

theorem searchWith_eq {inside : Lexer → List Event × Option LexError} (lx : Lexer)
    (h : ∀ ly : Lexer, ly.rest.length < lx.rest.length → inside ly = ly.search) :
    lx.searchWith inside = lx.search := by
  fun_induction search lx with
  | case1 lx hs => grind [searchWith]
  | case2 lx s next hs ih =>
    have ih := ih fun ly hl => h ly (hl.trans (step_lt hs))
    grind [searchWith]
  | case3 lx q c next hs => grind [searchWith]
  | case4 lx t change next hs hk events e he ih =>
    have hi := h _ (inside_lt hs)
    grind [searchWith]
  | case5 lx t change next hs hk events he r ih₁ ih₂ =>
    have hi := h _ (inside_lt hs)
    have ih := ih₂ fun ly hl => h ly (hl.trans (step_lt hs))
    grind [searchWith]
  | case6 lx t change next hs hk r ih =>
    have ih := ih fun ly hl => h ly (hl.trans (step_lt hs))
    grind [searchWith]

theorem flatNestsWith_eq {inside : Lexer → List Nest × List Trivia} (lx : Lexer)
    (h : ∀ ly : Lexer, ly.rest.length < lx.rest.length → inside ly = ly.flatNests [])
    (leading : List Trivia) : lx.flatNestsWith inside leading = lx.flatNests leading := by
  fun_induction flatNestsWith inside lx leading with
  | case1 lx leading hs =>
    rw [flatNests_eq, run_of_rest (step_eq_none.1 hs)]
    rfl
  | case2 lx leading s next hs ih =>
    rw [ih fun ly hl => h ly (hl.trans (step_lt hs)), flatNests_eq, flatNests_eq,
      (Steps.cons hs (.nil _)).run]
    rfl
  | case3 lx leading q c next hs ih =>
    rw [ih fun ly hl => h ly (hl.trans (step_lt hs)), flatNests_eq, flatNests_eq,
      (Steps.cons hs (.nil _)).run]
    rfl
  | case4 lx leading t change next hs x after n ih =>
    have ih : after = next.flatNests [] := ih fun ly hl => h ly (hl.trans (step_lt hs))
    have hn : n = Nest.ofLexeme x := by
      simp only [n, h _ (inside_lt hs)]
      rfl
    rw [hn, ih, flatNests_eq, flatNests_eq, (Steps.cons hs (.nil _)).run]
    rfl

end Lexer

namespace Nest

mutual

/-- The number of nests, those within expansions and literals among them. -/
def population : Nest → Nat
  | leaf _ => 1
  | quoted _ inside _ => populationOf inside + 1
  | raw _ => 1
  | expansion _ body _ => populationOf body + 1

def populationOf : List Nest → Nat
  | [] => 0
  | n :: ns => n.population + populationOf ns

end

theorem population_pos (n : Nest) : 0 < n.population := by
  cases n <;> exact Nat.succ_pos _

theorem populationOf_append (ms ns : List Nest) :
    populationOf (ms ++ ns) = populationOf ms + populationOf ns := by
  induction ms with
  | nil => simp [populationOf]
  | cons m ms ih => simp [populationOf, ih, Nat.add_assoc]

theorem populationOf_le_of_infix {ms ns : List Nest} (h : ms <:+: ns) :
    populationOf ms ≤ populationOf ns := by
  obtain ⟨before, after, rfl⟩ := h
  simp only [populationOf_append]
  omega

theorem population_le_of_mem {n : Nest} {ns : List Nest} (h : n ∈ ns) :
    n.population ≤ populationOf ns := by
  obtain ⟨before, after, rfl⟩ := List.append_of_mem h
  simp only [populationOf_append, populationOf]
  omega

theorem length_le_populationOf (ns : List Nest) : ns.length ≤ populationOf ns := by
  induction ns with
  | nil => exact Nat.zero_le _
  | cons n ns ih =>
    have hpos := n.population_pos
    rw [List.length_cons, populationOf]
    omega

/-- Nests in an expansion, with `trees` for the trees of each. -/
def partsWith (trees : Nest → List Tree) (ns : List Nest) : List Part :=
  ns.map fun n => ⟨.ofToken n.token, trees n⟩

/-- The trees of a nest, with `inner` for those of the nests in it. -/
def treesWith (inner : Nest → List Tree) : Nest → List Tree
  | leaf x => x.trees
  | quoted x inside trailing =>
    x.openQuote ++ Part.treesOf (partsWith inner inside) ++ trailing.map Trivia.tree ++
      [x.closeQuote]
  | raw x => x.leaves
  | expansion opener body closer =>
    [.node .expansion (opener.leaves ++ Part.layout (partsWith inner body) ++ closer.leaves)]

theorem partsWith_congr {f g : Nest → List Tree} {ns : List Nest} (h : ∀ n ∈ ns, f n = g n) :
    partsWith f ns = partsWith g ns :=
  List.map_congr_left fun n hn => by rw [h n hn]

theorem treesWith_eq {inner : Nest → List Tree} (n : Nest)
    (h : ∀ m : Nest, m.population < n.population → inner m = m.trees) :
    n.treesWith inner = n.trees := by
  have inside {ns : List Nest} (hns : populationOf ns < n.population) :
      partsWith inner ns = parts ns := by
    rw [parts_eq]
    exact partsWith_congr fun m hm => h m ((population_le_of_mem hm).trans_lt hns)
  cases n with
  | leaf x => rw [treesWith, trees]
  | raw x => rw [treesWith, trees]
  | quoted x ns trailing => rw [treesWith, trees, inside (Nat.lt_succ_self _)]
  | expansion opener body closer => rw [treesWith, trees, inside (Nat.lt_succ_self _)]

end Nest

namespace Parser

section Fragments

variable {multiline : Bool} {one : List Nest → Parser Unit}

/-- Go through the first `count` nests, with `one` for the first of some. -/
def fragmentsWith (one : List Nest → Parser Unit) : Nat → List Nest → Parser Unit
  | 0, _ => pure ()
  | _ + 1, [] => pure ()
  | count + 1, n :: ns => do
    one (n :: ns)
    fragmentsWith one count ns

/-- Go through the nests in an expansion, with `one` for the first of some. -/
def bracketedWith (multiline : Bool) (one : List Nest → Parser Unit) : List Nest → Parser Unit
  | [] => pure ()
  | n :: ns =>
    if n.isLineBreak && !multiline then failAt [n] [.token .expansionSuffix]
    else do
      one (n :: ns)
      bracketedWith multiline one ns

/-- Go through the first of some nests, with `one` for each of those in it. -/
def fragmentWith (multiline : Bool) (one : List Nest → Parser Unit) : List Nest → Parser Unit
  | [] => failAt [] [.expression]
  | .leaf x :: ns =>
    match x.token.kind with
    | .expansionPrefix => do
      bracketedWith multiline one ns
      failAt [] [.token .expansionSuffix]
    | .expansionSuffix => failAt [.leaf x] [.text]
    | _ => pure ()
  | .quoted x inside _ :: _ => do
    record x.token.inside.frameEvents
    fragmentsWith one inside.length inside
  | .raw x :: _ => record x.token.inside.frameEvents
  | .expansion _ body _ :: _ => bracketedWith multiline one body

section Below

variable {k : Nat} (h : ∀ ms, Nest.populationOf ms < k → one ms = fragment multiline ms)

include h

theorem fragmentsWith_eq {ns : List Nest} (hk : Nest.populationOf ns < k) (count : Nat) :
    fragmentsWith one count ns = fragments multiline count ns := by
  induction ns generalizing count with
  | nil => cases count <;> rw [fragmentsWith, fragments]
  | cons n ns ih =>
    have hns : Nest.populationOf ns < k := by
      rw [Nest.populationOf] at hk
      omega
    cases count with
    | zero => rw [fragmentsWith, fragments]
    | succ count => rw [fragmentsWith, fragments, h _ hk, ih hns]

theorem bracketedWith_eq {ns : List Nest} (hk : Nest.populationOf ns < k) :
    bracketedWith multiline one ns = bracketed multiline ns := by
  induction ns with
  | nil => rw [bracketedWith, bracketed]
  | cons n ns ih =>
    have hns : Nest.populationOf ns < k := by
      rw [Nest.populationOf] at hk
      omega
    rw [bracketedWith, bracketed, h _ hk, ih hns]

end Below

theorem fragmentWith_eq (ns : List Nest)
    (h : ∀ ms, Nest.populationOf ms < Nest.populationOf ns → one ms = fragment multiline ms) :
    fragmentWith multiline one ns = fragment multiline ns := by
  cases ns with
  | nil => rw [fragmentWith, fragment]
  | cons n ns =>
    rw [Nest.populationOf] at h
    cases n with
    | leaf x =>
      have hb := bracketedWith_eq h (Nat.lt_add_of_pos_left (Nest.population_pos _))
      rw [fragment, ← hb]
      rfl
    | raw x => rw [fragmentWith, fragment]
    | quoted x inside trailing =>
      have hk : Nest.populationOf inside < (Nest.quoted x inside trailing).population :=
        Nat.lt_succ_self _
      rw [fragmentWith, fragment, fragmentsWith_eq h (hk.trans_le (Nat.le_add_right _ _))]
    | expansion opener body closer =>
      have hk : Nest.populationOf body < (Nest.expansion opener body closer).population :=
        Nat.lt_succ_self _
      rw [fragmentWith, fragment, bracketedWith_eq h (hk.trans_le (Nat.le_add_right _ _))]

end Fragments

/-- A call of one of the rules that call each other. -/
inductive Call where
  | statement (lines : List Line)
  | conditional (ctx : Context) (lines : List Line)
  | otherwise (ctx : Context) (lines : List Line)
  | item (line : Line) (lines : List Line)
  | branch (ctx : Context) (lines : List Line)
  | recipes (lines : List Line)

namespace Call

@[reducible]
def Result : Call → Type
  | statement lines => Rest lines
  | conditional _ lines => Rest lines
  | otherwise _ lines => Bool × Rest lines
  | item _ lines => Rest lines
  | branch _ lines => { rest : List Line // rest.length < lines.length }
  | recipes lines => Rest lines

def rule : (x : Call) → Parser x.Result
  | statement lines => Parser.statement lines
  | conditional ctx lines => Parser.conditional ctx lines
  | otherwise ctx lines => Parser.otherwise ctx lines
  | item line lines => recipeItem line lines
  | branch ctx lines => Parser.branch ctx lines
  | recipes lines => Parser.recipes lines

theorem length_lt_cons (line : Line) (lines : List Line) : lines.length < (line :: lines).length :=
  Nat.lt_succ_self _

/-- One level of the rules, with `call` for the rules that they call. -/
def unroll (call : (x : Call) → Parser x.Result) : (x : Call) → Parser x.Result
  | statement lines => do
    match Line.afterLeading (← unread) with
    | [] => oneLine lines skipLeading
    | n :: ns =>
      record [.statement n.kind]
      match n.kind with
      | .lineBreak => oneLine lines blankLine
      | .comment => oneLine lines commentLine
      | .keyword (.conditional _) => call (.conditional .statements lines)
      | .keyword (.specifier _) => specified (n :: ns) lines
      | .keyword .define => specified (n :: ns) lines
      | .keyword .includeFile => oneLine lines includeLine
      | .keyword _ => failAt (n :: ns) [.statement]
      | _ =>
        match Line.separator? (n :: ns) with
        | some .colon => within .rule do
          if ← ruleHeader then call (.recipes lines) else return .all lines
        | some _ => oneLine lines assignment
        | none =>
          if Line.startsExpansion n then oneLine lines functionLine
          else failAt (n :: ns) [.token .colon, .token .assignOp]
  | conditional ctx lines => within ctx.node do
    conditionalHeader
    let r ← within ctx.branch (call (.branch ctx lines))
    if ctx.closing? (← unread) = some .otherwise then
      let closed ← within .elseBranch (call (.otherwise ctx r.1))
      (if closed.1 then pure () else endif ctx)
      return ⟨closed.2.1, closed.2.2.trans r.2.le⟩
    else
      endif ctx
      return ⟨r.1, r.2.le⟩
  | otherwise ctx lines => do
    skipLeading
    advance
    skipWhitespace
    if (← kind?).any TokenKind.isConditional then
      let rest ← call (.conditional ctx lines)
      return (true, rest)
    else
      endOfLine
      let r ← within ctx.branch (call (.branch ctx lines))
      return (false, ⟨r.1, r.2.le⟩)
  | item line lines => do
    match LineKind.ofLine line with
    | .recipe => oneLine lines recipeLine
    | .blank => oneLine lines blankLine
    | .comment => oneLine lines commentLine
    | .keyword (.conditional _) => call (.conditional .recipe lines)
    | _ =>
      failAt (Line.afterLeading line)
        [.token .recipePrefix, .token (.keyword .otherwise), .token (.keyword .endif)]
  | branch _ [] =>
    throw (.unexpectedEnd [.token (.keyword .otherwise), .token (.keyword .endif)])
  | branch ctx (line :: lines) => do
    load line
    if (ctx.closing? line).isSome then return ⟨lines, length_lt_cons line lines⟩
    else
      let r ← (match ctx with
        | .statements => call (.statement lines)
        | .recipe => call (.item line lines))
      let after ← call (.branch ctx r.1)
      return ⟨after.1, Nat.lt_succ_of_lt (after.2.trans_le r.2)⟩
  | recipes [] => return .all []
  | recipes (line :: lines) => do
    if Line.continuesRecipe (line :: lines) then
      load line
      let r ← call (.item line lines)
      let after ← call (.recipes r.1)
      return ⟨after.1, Nat.le_succ_of_le (after.2.trans r.2)⟩
    else return .all (line :: lines)

/-- Bounds how deep the calls in a call are nested. -/
def rank : Call → Nat
  | statement lines => 4 * lines.length + 3
  | conditional _ lines => 4 * lines.length + 1
  | otherwise _ lines => 4 * lines.length + 2
  | item _ lines => 4 * lines.length + 3
  | branch _ lines => 4 * lines.length
  | recipes lines => 4 * lines.length

variable {call : (x : Call) → Parser x.Result}

theorem unroll_statement {lines : List Line}
    (h : ∀ y : Call, y.rank < rank (statement lines) → call y = y.rule) :
    unroll call (statement lines) = rule (statement lines) := by
  rw [rule, Parser.statement, unroll, h (.conditional .statements lines) (by simp [rank]),
    h (.recipes lines) (by simp [rank])]
  rfl

theorem unroll_conditional {ctx : Context} {lines : List Line}
    (h : ∀ y : Call, y.rank < rank (conditional ctx lines) → call y = y.rule) :
    unroll call (conditional ctx lines) = rule (conditional ctx lines) := by
  rw [rule, Parser.conditional, unroll, h (.branch ctx lines) (by simp [rank])]
  congr 1
  refine bind_congr fun _ => bind_congr fun r => bind_congr fun line => ?_
  have ho := h (.otherwise ctx r.1) (by simp only [rank]; have := r.2; omega)
  simp only [ho]
  rfl

theorem unroll_otherwise {ctx : Context} {lines : List Line}
    (h : ∀ y : Call, y.rank < rank (otherwise ctx lines) → call y = y.rule) :
    unroll call (otherwise ctx lines) = rule (otherwise ctx lines) := by
  rw [rule, Parser.otherwise, unroll, h (.conditional ctx lines) (by simp [rank]),
    h (.branch ctx lines) (by simp [rank])]
  rfl

theorem unroll_item {line : Line} {lines : List Line}
    (h : ∀ y : Call, y.rank < rank (item line lines) → call y = y.rule) :
    unroll call (item line lines) = rule (item line lines) := by
  rw [rule, Parser.recipeItem, unroll, h (.conditional .recipe lines) (by simp [rank])]
  rfl

theorem unroll_branch {ctx : Context} {lines : List Line}
    (h : ∀ y : Call, y.rank < rank (branch ctx lines) → call y = y.rule) :
    unroll call (branch ctx lines) = rule (branch ctx lines) := by
  cases lines with
  | nil => rw [rule, Parser.branch, unroll]
  | cons line lines =>
    have hs := h (.statement lines) (by simp only [rank, List.length_cons]; omega)
    have hi := h (.item line lines) (by simp only [rank, List.length_cons]; omega)
    rw [rule]
    unfold Parser.branch
    simp only [unroll, hs, hi]
    refine bind_congr fun _ => ite_congr rfl (fun _ => rfl) fun _ => bind_congr fun r => ?_
    have hb := h (.branch ctx r.1) (by simp only [rank, List.length_cons]; have := r.2; omega)
    simp only [hb]
    rfl

theorem unroll_recipes {lines : List Line}
    (h : ∀ y : Call, y.rank < rank (recipes lines) → call y = y.rule) :
    unroll call (recipes lines) = rule (recipes lines) := by
  cases lines with
  | nil => rw [rule, Parser.recipes, unroll]
  | cons line lines =>
    have hi := h (.item line lines) (by simp only [rank, List.length_cons]; omega)
    rw [rule, Parser.recipes, unroll, hi]
    refine ite_congr rfl (fun _ => bind_congr fun _ => bind_congr fun r => ?_) fun _ => rfl
    have hr := h (.recipes r.1) (by simp only [rank, List.length_cons]; have := r.2; omega)
    simp only [hr]
    rfl

theorem unroll_eq (x : Call) (h : ∀ y : Call, y.rank < x.rank → call y = y.rule) :
    unroll call x = x.rule := by
  cases x with
  | statement lines => exact unroll_statement h
  | conditional ctx lines => exact unroll_conditional h
  | otherwise ctx lines => exact unroll_otherwise h
  | item line lines => exact unroll_item h
  | branch ctx lines => exact unroll_branch h
  | recipes lines => exact unroll_recipes h

end Call

end Parser

namespace Nest

mutual

theorem population_le {w : Nest → Nat} (n : Nest) (h : ∀ m ∈ n.flatten, m.population ≤ w m) :
    n.population ≤ (n.flatten.map w).sum := by
  cases n with
  | leaf x => simpa [flatten] using h _ List.mem_cons_self
  | raw x => simpa [flatten] using h _ List.mem_cons_self
  | quoted x inside trailing => simpa [flatten] using h _ List.mem_cons_self
  | expansion opener body closer =>
    obtain ⟨ho, hb⟩ := List.forall_mem_cons.1 h
    have ih := populationOf_le body fun m hm => hb m (List.mem_append_left _ hm)
    have ho : 1 ≤ w (leaf opener) := ho
    rw [population, flatten, List.map_cons, List.sum_cons, List.map_append, List.sum_append]
    omega

theorem populationOf_le {w : Nest → Nat} (ns : List Nest)
    (h : ∀ m ∈ flattenAll ns, m.population ≤ w m) :
    populationOf ns ≤ ((flattenAll ns).map w).sum := by
  cases ns with
  | nil => exact Nat.zero_le _
  | cons n ns =>
    have hn := population_le n fun m hm => h m (List.mem_append_left _ hm)
    have hns := populationOf_le ns fun m hm => h m (List.mem_append_right _ hm)
    rw [populationOf, flattenAll, List.map_append, List.sum_append]
    omega

end

end Nest

namespace Lexer

theorem sum_tokens_le (lx : Lexer) :
    ((Nest.flattenAll lx.nests.1).map fun n => n.token.text.length).sum ≤ lx.rest.length := by
  have hn : lx.nests = (lx.nests.1, lx.nests.2) := rfl
  have ht := congrArg List.length lx.lexemes_text
  rw [List.length_append, Lexeme.textOf, List.length_flatMap] at ht
  rw [(lexemes_of_nests hn).1, List.map_map, ← ht]
  refine (List.sum_le_sum fun x _ => ?_).trans (Nat.le_add_right _ _)
  simp [Nest.token, Lexeme.text]

theorem populationOf_nests_le (lx : Lexer) : Nest.populationOf lx.nests.1 ≤ lx.rest.length := by
  induction hn : lx.rest.length using Nat.strong_induction_on generalizing lx with
  | _ k ih =>
    subst hn
    refine (Nest.populationOf_le lx.nests.1 fun m hm => ?_).trans lx.sum_tokens_le
    obtain ⟨x, hx, rfl⟩ := lexeme_of_mem_flattenAll hm
    obtain ⟨mid, next, change, hs, hr⟩ := step_of_lexeme hx
    have hpos : 0 < x.token.text.length := List.length_pos_iff.2 (step_text_ne_nil hs)
    have hin := (inside_lt hs).trans_le hr.length_le
    have hlen := inside_length hs
    rw [Nest.token, Nest.first_ofLexeme]
    unfold Nest.ofLexeme
    split
    · split
      · exact hpos
      · have hle := ih _ hin _ rfl
        rw [Nest.population]
        omega
    · exact hpos

end Lexer

end MakeTree
