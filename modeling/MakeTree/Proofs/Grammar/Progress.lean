import MakeTree.Proofs.Grammar.Lines

/-!
Progress. A rule of several lines that succeeds takes all of the line that it starts on and leaves
the last of the lines behind it (`Proceeds`), whatever the nests are: no bracket needs a partner
here, and lines only have to be cut where they break (`progressBelow`).
-/

namespace MakeTree

namespace Parser

open Likeness

/-- Trees that are not looked at. -/
def Anything (_ : NodeKind) (_ : List Nest) (_ : List Tree) : Prop := True

theorem reads_anything : Reads Anything where
  nil _ := trivial
  append _ _ := trivial
  node _ _ := trivial
  single _ := trivial
  contents _ := trivial
  quoted _ _ _ := trivial
  raw _ := trivial

variable {α β : Type} {line : Line} {lines : List Line}

/-- A run that succeeds takes all of the line. -/
def Finishes (p : Parser α) (line : Line) : Prop :=
  ∀ outer es a s, p ⟨line, outer, es⟩ = .ok a s → s.unread = []

theorem Consumes.finishes {p : Parser α} {R : List Nest → List Tree → Prop}
    (h : Consumes R p line fun _ ms => ms = []) : Finishes p line := by
  intro outer es a s hp
  obtain ⟨-, -, -, -, -, hs⟩ := h outer es a s hp
  exact hs

theorem finishes_failAt (ms : List Nest) (expected : List Expected) :
    Finishes (failAt ms expected : Parser α) line := by
  intro outer es a s hp
  cases hp

section Line

variable (hs : Nest.Single line)

include hs

theorem finishes_blankLine (h : (Line.afterLeading line).head?.all Nest.isLineBreak = true) :
    Finishes blankLine line :=
  (consumes_blankLine (k := .root) reads_anything hs h).finishes

theorem finishes_commentLine : Finishes commentLine line :=
  (consumes_commentLine (k := .root) reads_anything hs).finishes

theorem finishes_includeLine : Finishes includeLine line :=
  (consumes_includeLine (k := .root) reads_anything (fun _ _ => trivial) hs).finishes

theorem finishes_assignment : Finishes assignment line :=
  (consumes_assignment (k := .root) reads_anything hs).finishes

theorem finishes_functionLine : Finishes functionLine line :=
  (consumes_functionLine (k := .root) reads_anything hs).finishes

theorem finishes_recipeLine (h : line.head?.any (·.kind == .recipePrefix) = true) :
    Finishes recipeLine line :=
  (consumes_recipeLine (k := .root) reads_anything hs h).finishes

theorem finishes_ruleHeader : Finishes ruleHeader line :=
  (consumes_ruleHeader (k := .root) reads_anything hs).finishes

theorem finishes_endif (ctx : Context) : Finishes (endif ctx) line :=
  (consumes_endif (k := .root) reads_anything hs).finishes

theorem finishes_definitionEnd : Finishes definitionEnd line :=
  (consumes_definitionEnd (k := .root) reads_anything (fun _ _ => trivial) (by decide) hs).finishes

theorem finishes_specifiedLine (found : List Specifier) (after : Line) :
    Finishes (specifiedLine found after) line := by
  unfold specifiedLine
  split
  · exact finishes_assignment hs
  · split
    · exact (consumes_exportLine (k := .root) reads_anything (fun _ _ => trivial) hs).finishes
    · split
      · exact finishes_failAt _ _
      · exact finishes_failAt _ _

end Line

/-- Each of the lines breaks at most where it ends. -/
def SingleLines (lines : List Line) : Prop := ∀ l ∈ lines, Nest.Single l

theorem SingleLines.suffix {rest : List Line} (h : SingleLines lines) (hs : rest <:+ lines) :
    SingleLines rest :=
  fun l hl => h l (hs.subset hl)

theorem SingleLines.cons (h : SingleLines (line :: lines)) :
    Nest.Single line ∧ SingleLines lines :=
  List.forall_mem_cons.1 h

theorem singleLines_of_cut (h : Line.Cut lines) : SingleLines lines := by
  induction lines with
  | nil => exact fun l hl => absurd hl List.not_mem_nil
  | cons line lines ih =>
    rcases Line.cut_cons.1 h with ⟨he, hc⟩ | ⟨he, rfl⟩
    · exact List.forall_mem_cons.2 ⟨he.single, ih hc⟩
    · exact List.forall_mem_singleton.2 he.single

/-- A run that succeeds takes the line and some of the lines behind it, and leaves the others. -/
def Proceeds {P : List Line → Prop} (p : Parser { rest // P rest }) (line : Line)
    (lines : List Line) : Prop :=
  ∀ outer es r s, p ⟨line, outer, es⟩ = .ok r s → s.unread = [] ∧ r.1 <:+ lines

theorem proceeds_oneLine {p : Parser Unit} (h : Finishes p line) :
    Proceeds (oneLine lines p) line lines := by
  intro outer es r s hr
  obtain ⟨a, s₁, h₁, hr⟩ := bind_ok hr
  cases hr
  exact ⟨h outer es a s h₁, List.suffix_refl _⟩

theorem proceeds_failAt {P : List Line → Prop} (ms : List Nest) (expected : List Expected) :
    Proceeds (failAt ms expected : Parser { rest // P rest }) line lines := by
  intro outer es r s hr
  cases hr

theorem proceeds_definition (h : SingleLines lines) : Proceeds (definition lines) line lines := by
  intro outer es r s hr
  obtain ⟨count, s₁, s₂, es₂, he, hrest, -, -, h₂, hu, -⟩ := definition_parts hr
  have hlt := Line.endef?_lt he
  have hsingle : Nest.Single (lines[count]?.getD []) := by
    rw [List.getElem?_eq_getElem hlt]
    exact h _ (List.getElem_mem hlt)
  rw [hu, hrest]
  exact ⟨finishes_definitionEnd hsingle _ _ _ _ h₂, List.drop_suffix _ _⟩

theorem proceeds_specified (hs : Nest.Single line) (h : SingleLines lines) (ns : Line) :
    Proceeds (specified ns lines) line lines := by
  obtain ⟨⟨found, after⟩, hf⟩ | ⟨ms, hf⟩ := specifiersOf_cases [] ns
  · intro outer es r s hr
    obtain ⟨_, s₁, h₁, hr⟩ := bind_ok hr
    rw [hf] at h₁
    cases h₁
    simp only at hr
    split at hr
    · exact proceeds_definition h outer es r s hr
    · exact proceeds_oneLine (finishes_specifiedLine hs found after) outer es r s hr
  · intro outer es r s hr
    obtain ⟨_, s₁, h₁, -⟩ := bind_ok hr
    rw [hf] at h₁
    cases h₁

/-- The rules that run over several lines, on fewer than `n` lines. -/
structure ProgressBelow (n : Nat) : Prop where
  statement : ∀ line lines, lines.length < n → Nest.Single line → SingleLines lines →
    Proceeds (statement lines) line lines
  item : ∀ line lines, lines.length < n → Nest.Single line → SingleLines lines →
    Proceeds (recipeItem line lines) line lines
  closing : ∀ ctx line lines, lines.length < n → Nest.Single line → SingleLines lines →
    Proceeds (closing ctx lines) line lines
  branch : ∀ ctx lines, lines.length < n → SingleLines lines → ∀ ns outer es r s,
    branch ctx lines ⟨ns, outer, es⟩ = .ok r s → (s.unread :: r.1) <:+ lines
  recipes : ∀ lines, lines.length < n → SingleLines lines → Proceeds (recipes lines) [] lines

namespace ProgressBelow

theorem branch_of (h : ProgressBelow lines.length) (hl : SingleLines lines) (ctx : Context)
    {ns : List Nest} {outer : List Tree} {es : List Event}
    {r : { rest : List Line // rest.length < lines.length }} {s : Cursor}
    (hr : Parser.branch ctx lines ⟨ns, outer, es⟩ = .ok r s) : (s.unread :: r.1) <:+ lines := by
  cases lines with
  | nil =>
    unfold Parser.branch at hr
    cases hr
  | cons line lines =>
    obtain ⟨hs, hls⟩ := hl.cons
    unfold Parser.branch at hr
    obtain ⟨_, _, h₁, hr⟩ := bind_ok hr
    cases h₁
    split at hr
    · cases hr
      exact List.suffix_refl _
    · obtain ⟨⟨mid, hm⟩, s₁, h₁, hr⟩ := bind_ok hr
      obtain ⟨⟨after, ha⟩, s₂, h₂, hr⟩ := bind_ok hr
      cases hr
      have hmid : mid <:+ lines := by
        cases ctx with
        | statements => exact (h.statement line lines (Nat.lt_succ_self _) hs hls _ _ _ _ h₁).2
        | recipe => exact (h.item line lines (Nat.lt_succ_self _) hs hls _ _ _ _ h₁).2
      have hafter := h.branch ctx mid (Nat.lt_succ_of_le hm) (hls.suffix hmid) _ _ _ _ _ h₂
      exact (hafter.trans hmid).trans (List.suffix_cons line lines)

theorem recipes_of (h : ProgressBelow lines.length) (hl : SingleLines lines) :
    Proceeds (Parser.recipes lines) [] lines := by
  intro outer es r s hr
  cases lines with
  | nil =>
    rw [Parser.recipes] at hr
    cases hr
    exact ⟨rfl, List.suffix_refl _⟩
  | cons line lines =>
    obtain ⟨hs, hls⟩ := hl.cons
    rw [Parser.recipes] at hr
    split at hr
    · obtain ⟨_, _, h₁, hr⟩ := bind_ok hr
      cases h₁
      obtain ⟨⟨mid, hm⟩, ⟨ns, built, es₁⟩, h₁, hr⟩ := bind_ok hr
      obtain ⟨⟨after, ha⟩, s₂, h₂, hr⟩ := bind_ok hr
      cases hr
      obtain ⟨hu, hmid⟩ := h.item line lines (Nat.lt_succ_self _) hs hls _ _ _ _ h₁
      simp only at hu
      subst hu
      obtain ⟨hu, hafter⟩ :=
        h.recipes mid (Nat.lt_succ_of_le hm) (hls.suffix hmid) _ _ _ _ h₂
      exact ⟨hu, (hafter.trans hmid).trans (List.suffix_cons line lines)⟩
    · cases hr
      exact ⟨rfl, List.suffix_refl _⟩

theorem conditional_of (h : ProgressBelow lines.length) (hl : SingleLines lines) (ctx : Context) :
    Proceeds (Parser.conditional ctx lines) line lines := by
  intro outer es r s hr
  rw [conditional_eq] at hr
  obtain ⟨s₁, hr, hu, -⟩ := within_ok hr
  obtain ⟨_, s₂, h₁, hr⟩ := bind_ok hr
  obtain ⟨after, s₃, h₂, hr⟩ := bind_ok hr
  obtain ⟨rest, s₄, h₃, hr⟩ := bind_ok hr
  cases hr
  obtain ⟨s₅, h₂, hu₃, -⟩ := within_ok h₂
  -- the branch ends in front of one of the lines
  have hmid := h.branch_of hl ctx h₂
  rw [← hu₃] at hmid
  obtain ⟨hu₄, hrest⟩ := h.closing ctx s₃.unread after.1 after.2
    (hl _ (hmid.subset List.mem_cons_self)) (hl.suffix ((List.suffix_cons _ _).trans hmid))
    _ _ _ _ h₃
  exact ⟨hu.trans hu₄, (hrest.trans (List.suffix_cons _ _)).trans hmid⟩

theorem otherwise_of (h : ProgressBelow lines.length) (hl : SingleLines lines) {ctx : Context}
    {outer : List Tree} {es : List Event} {r : Bool × Rest lines} {s : Cursor}
    (hr : otherwise ctx lines ⟨line, outer, es⟩ = .ok r s) :
    (r.1 = true ∧ s.unread = [] ∧ r.2.1 <:+ lines) ∨
      (r.1 = false ∧ (s.unread :: r.2.1) <:+ lines) := by
  rw [otherwise_eq] at hr
  obtain ⟨_, ⟨ns, built, es₁⟩, h₁, hr⟩ := bind_ok hr
  have hr : (if (ns.head?.map Nest.kind).any TokenKind.isConditional = true then
      Parser.conditional ctx lines >>= fun r => pure (true, r)
    else endOfLine >>= fun _ => within ctx.branch (Parser.branch ctx lines) >>= fun r =>
      pure (false, ⟨r.1, Nat.le_of_lt r.2⟩)) ⟨ns, built, es₁⟩ = .ok r s := hr
  split at hr
  · obtain ⟨rest, s₂, h₂, hr⟩ := bind_ok hr
    cases hr
    exact .inl ⟨rfl, h.conditional_of hl ctx _ _ _ _ h₂⟩
  · obtain ⟨_, s₂, h₂, hr⟩ := bind_ok hr
    obtain ⟨rest, s₃, h₃, hr⟩ := bind_ok hr
    cases hr
    obtain ⟨s₄, h₃, hu, -⟩ := within_ok h₃
    have hrest := h.branch_of hl ctx h₃
    rw [← hu] at hrest
    exact .inr ⟨rfl, hrest⟩

theorem closing_of (h : ProgressBelow lines.length) (hs : Nest.Single line)
    (hl : SingleLines lines) (ctx : Context) : Proceeds (Parser.closing ctx lines) line lines := by
  intro outer es r s hr
  have hr : (if ctx.closing? line = some .otherwise then
      within .elseBranch (Parser.otherwise ctx lines) >>= fun r =>
        (if r.1 = true then pure () else endif ctx) >>= fun _ => pure r.2
      else endif ctx >>= fun _ => pure (.all lines)) ⟨line, outer, es⟩ = .ok r s := hr
  split at hr
  · obtain ⟨⟨chained, rest⟩, s₁, h₁, hr⟩ := bind_ok hr
    obtain ⟨_, s₂, h₂, hr⟩ := bind_ok hr
    cases hr
    obtain ⟨s₃, h₁, hu, -⟩ := within_ok h₁
    obtain ⟨hch, hu₃, hrest⟩ | ⟨hch, hrest⟩ := h.otherwise_of hl h₁
    · simp only at hch
      subst hch
      cases h₂
      exact ⟨hu.trans hu₃, hrest⟩
    · simp only at hch
      subst hch
      rw [← hu] at hrest
      have hmid : Nest.Single s₁.unread := hl _ (hrest.subset List.mem_cons_self)
      exact ⟨finishes_endif hmid ctx _ _ _ _ h₂, (List.suffix_cons _ _).trans hrest⟩
  · obtain ⟨_, s₁, h₁, hr⟩ := bind_ok hr
    cases hr
    exact ⟨finishes_endif hs ctx _ _ _ _ h₁, List.suffix_refl _⟩

theorem item_of (h : ProgressBelow lines.length) (hs : Nest.Single line)
    (hl : SingleLines lines) : Proceeds (Parser.recipeItem line lines) line lines := by
  rw [Parser.recipeItem]
  split
  · next hk => exact proceeds_oneLine (finishes_recipeLine hs (LineKind.head_of_recipe hk))
  · next hk => exact proceeds_oneLine (finishes_blankLine hs (LineKind.head_of_blank hk))
  · exact proceeds_oneLine (finishes_commentLine hs)
  · exact h.conditional_of hl .recipe
  · exact proceeds_failAt _ _

theorem rule_of (h : ProgressBelow lines.length) (hs : Nest.Single line)
    (hl : SingleLines lines) : Proceeds (rule lines) line lines := by
  intro outer es r s hr
  obtain ⟨s₁, hr, hu, -⟩ := within_ok hr
  obtain ⟨continues, ⟨ns, built, es₁⟩, h₁, hr⟩ := bind_ok hr
  have hns : ns = [] := finishes_ruleHeader hs _ _ _ _ h₁
  subst hns
  rw [hu]
  cases continues with
  | true => exact h.recipes_of hl _ _ _ _ hr
  | false =>
    cases hr
    exact ⟨rfl, List.suffix_refl _⟩

theorem statement_of (h : ProgressBelow lines.length) (hs : Nest.Single line)
    (hl : SingleLines lines) : Proceeds (Parser.statement lines) line lines := by
  intro outer es r s hr
  cases ha : Line.afterLeading line with
  | nil =>
    rw [Parser.statement, unread_bind_eq, ha] at hr
    refine proceeds_oneLine (fun outer es a s h => ?_) _ _ _ _ hr
    obtain ⟨-, -, -, -, -, hu⟩ :=
      consumes_skipLeading (R := Anything) (k := .root) reads_anything outer es a s h
    exact hu.trans ha
  | cons n ns =>
    rw [statement_eq_of_cons lines ha] at hr
    refine (?_ : Proceeds _ line lines) _ _ _ _ hr
    split
    · next hk =>
      refine proceeds_oneLine (finishes_blankLine hs ?_)
      simp [ha, Nest.isLineBreak, hk]
    · exact proceeds_oneLine (finishes_commentLine hs)
    · exact h.conditional_of hl .statements
    · exact proceeds_specified hs hl _
    · exact proceeds_specified hs hl _
    · exact proceeds_oneLine (finishes_includeLine hs)
    · exact proceeds_failAt _ _
    · split
      · exact h.rule_of hs hl
      · exact proceeds_oneLine (finishes_assignment hs)
      · split
        · exact proceeds_oneLine (finishes_functionLine hs)
        · exact proceeds_failAt _ _

end ProgressBelow

theorem progressBelow (n : Nat) : ProgressBelow n := by
  induction n with
  | zero =>
    exact ⟨fun _ _ h => absurd h (Nat.not_lt_zero _), fun _ _ h => absurd h (Nat.not_lt_zero _),
      fun _ _ _ h => absurd h (Nat.not_lt_zero _), fun _ _ h => absurd h (Nat.not_lt_zero _),
      fun _ h => absurd h (Nat.not_lt_zero _)⟩
  | succ n ih =>
    have h (lines : List Line) (hl : lines.length < n + 1) : ProgressBelow lines.length := by
      have hle := Nat.le_of_lt_succ hl
      exact ⟨fun l ls hs => ih.1 l ls (by omega), fun l ls hs => ih.2 l ls (by omega),
        fun c l ls hs => ih.3 c l ls (by omega), fun c ls hs => ih.4 c ls (by omega),
        fun ls hs => ih.5 ls (by omega)⟩
    exact ⟨fun _ ls hl => (h ls hl).statement_of, fun _ ls hl => (h ls hl).item_of,
      fun c _ ls hl hs hls => (h ls hl).closing_of hs hls c,
      fun c ls hl hls _ _ _ _ _ => (h ls hl).branch_of hls c, fun ls hl => (h ls hl).recipes_of⟩

end Parser

end MakeTree
