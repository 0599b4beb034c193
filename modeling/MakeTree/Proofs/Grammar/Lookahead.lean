import MakeTree.Proofs.Grammar.Blocks
import MakeTree.Proofs.Grammar.Lines

/-!
How far a recipe looks ahead. Whether a recipe goes on is decided by the lines that it then takes
(`Parses.continues`): a conditional in a recipe is read through to the `endif` that closes it
(`Parses.scanned`). Whether a recipe ends can depend on what follows; `Quieter` compares two texts
in that.
-/

namespace MakeTree

namespace LineKind

/-- A scan that has found the end does not look further. -/
theorem endsInRecipe_append {ks : List LineKind} {depth : Nat} {seen : Bool}
    (h : endsInRecipe depth seen ks = true) (ms : List LineKind) :
    endsInRecipe depth seen (ks ++ ms) = true := by
  induction ks generalizing depth seen with
  | nil => cases h
  | cons k ks ih =>
    cases k with
    | blank => exact ih h
    | comment => exact ih h
    | recipe => exact ih h
    | other => cases h
    | keyword w =>
      cases w with
      | conditional c => exact ih h
      | otherwise => exact ih h
      | endif =>
        rw [endsInRecipe] at h
        rw [List.cons_append, endsInRecipe]
        split
        · next hd => rwa [if_pos hd] at h
        · next hd =>
          rw [if_neg hd] at h
          exact ih h
      | _ => cases h

/-- A line that is no part of a recipe or of a conditional in front of it. -/
structure Fresh (k : LineKind) : Prop where
  blank : k ≠ .blank
  comment : k ≠ .comment
  recipe : k ≠ .recipe
  conditional : ∀ c, k ≠ .keyword (.conditional c)
  otherwise : k ≠ .keyword .otherwise
  endif : k ≠ .keyword .endif

theorem Fresh.endsInRecipe {k : LineKind} (h : k.Fresh) (depth : Nat) (seen : Bool)
    (ks : List LineKind) : LineKind.endsInRecipe depth seen (k :: ks) = false := by
  cases k with
  | blank => exact absurd rfl h.blank
  | comment => exact absurd rfl h.comment
  | recipe => exact absurd rfl h.recipe
  | other => rfl
  | keyword w =>
    cases w with
    | conditional c => exact absurd rfl (h.conditional c)
    | otherwise => exact absurd rfl h.otherwise
    | endif => exact absurd rfl h.endif
    | _ => rfl

theorem endsInRecipe_fresh {ks : List LineKind} {depth : Nat} {seen : Bool}
    (h : endsInRecipe depth seen ks = false) {k : LineKind} (hk : k.Fresh) (ms : List LineKind) :
    endsInRecipe depth seen (ks ++ k :: ms) = false := by
  induction ks generalizing depth seen with
  | nil => exact hk.endsInRecipe depth seen ms
  | cons j ks ih =>
    cases j with
    | blank => exact ih h
    | comment => exact ih h
    | recipe => exact ih h
    | other => rfl
    | keyword w =>
      cases w with
      | conditional c => exact ih h
      | otherwise => exact ih h
      | endif =>
        rw [endsInRecipe] at h
        rw [List.cons_append, endsInRecipe]
        split
        · next hd => rwa [if_pos hd] at h
        · next hd =>
          rw [if_neg hd] at h
          exact ih h
      | _ => rfl

end LineKind

namespace Line

section Continues

variable {line : Line} {lines : List Line}

theorem continuesRecipe_skip (h : LineKind.ofLine line = .blank ∨ LineKind.ofLine line = .comment) :
    continuesRecipe (line :: lines) = continuesRecipe lines := by
  rw [continuesRecipe, List.dropWhile_cons_of_pos (by simpa using h)]
  rfl

theorem continuesRecipe_recipe (h : LineKind.ofLine line = .recipe) :
    continuesRecipe (line :: lines) = true := by
  rw [continuesRecipe, List.dropWhile_cons_of_neg (by simp [h])]
  simp [h]

theorem continuesRecipe_conditional {c : ConditionalKind}
    (h : LineKind.ofLine line = .keyword (.conditional c)) :
    continuesRecipe (line :: lines) = isRecipeConditional (line :: lines) := by
  rw [continuesRecipe, List.dropWhile_cons_of_neg (by simp [h])]
  simp [h]

theorem continuesRecipe_other (h : LineKind.ofLine line = .other) :
    continuesRecipe (line :: lines) = false := by
  rw [continuesRecipe, List.dropWhile_cons_of_neg (by simp [h])]
  simp [h]

theorem continuesRecipe_keyword {w : Keyword} (h : LineKind.ofLine line = .keyword w)
    (hw : ∀ c, w ≠ .conditional c) : continuesRecipe (line :: lines) = false := by
  rw [continuesRecipe, List.dropWhile_cons_of_neg (by simp [h])]
  simp only [List.head?_cons, Option.map_some, h]
  cases w with
  | conditional c => exact absurd rfl (hw c)
  | _ => rfl

theorem continuesRecipe_fresh (h : (LineKind.ofLine line).Fresh) :
    continuesRecipe (line :: lines) = false := by
  cases hk : LineKind.ofLine line with
  | blank => exact absurd hk h.blank
  | comment => exact absurd hk h.comment
  | recipe => exact absurd hk h.recipe
  | other => exact continuesRecipe_other hk
  | keyword w => exact continuesRecipe_keyword hk fun c hc => h.conditional c (hc ▸ hk)

theorem continuesRecipe_append {us : List Line} (hu : continuesRecipe us = true) {ws : List Line}
    (hcut : Cut (us ++ ws)) (hc : Nest.ClosedAll us.flatten) :
    continuesRecipe (us ++ ws) = true := by
  induction us with
  | nil => cases hu
  | cons line us ih =>
    have hc' := (Nest.closedAll_append.1 (List.flatten_cons ▸ hc)).2
    rw [List.cons_append]
    cases hk : LineKind.ofLine line with
    | blank =>
      rw [continuesRecipe_skip (.inl hk)] at hu ⊢
      exact ih hu hcut.tail hc'
    | comment =>
      rw [continuesRecipe_skip (.inr hk)] at hu ⊢
      exact ih hu hcut.tail hc'
    | recipe => exact continuesRecipe_recipe hk
    | other =>
      rw [continuesRecipe_other hk] at hu
      cases hu
    | keyword w =>
      cases w with
      | conditional c =>
        rw [continuesRecipe_conditional hk, isRecipeConditional] at hu ⊢
        rw [← List.cons_append, LineKind.ofLines_append hcut hc]
        exact LineKind.endsInRecipe_append hu _
      | _ =>
        rw [continuesRecipe_keyword hk (by simp)] at hu
        cases hu

theorem continuesRecipe_append_fresh {us : List Line} (hu : continuesRecipe us = false)
    (h : (LineKind.ofLine line).Fresh) (hcut : Cut (us ++ line :: lines))
    (hc : Nest.ClosedAll us.flatten) (hcl : Nest.ClosedAll (line :: lines).flatten) :
    continuesRecipe (us ++ line :: lines) = false := by
  induction us with
  | nil => exact continuesRecipe_fresh h
  | cons u us ih =>
    have hc' := (Nest.closedAll_append.1 (List.flatten_cons ▸ hc)).2
    rw [List.cons_append]
    cases hk : LineKind.ofLine u with
    | blank =>
      rw [continuesRecipe_skip (.inl hk)] at hu ⊢
      exact ih hu hcut.tail hc'
    | comment =>
      rw [continuesRecipe_skip (.inr hk)] at hu ⊢
      exact ih hu hcut.tail hc'
    | recipe =>
      rw [continuesRecipe_recipe hk] at hu
      cases hu
    | other => exact continuesRecipe_other hk
    | keyword w =>
      cases w with
      | conditional c =>
        rw [continuesRecipe_conditional hk, isRecipeConditional] at hu ⊢
        rw [← List.cons_append, LineKind.ofLines_append hcut hc]
        obtain ⟨ks, hks⟩ := LineKind.ofLines_cons hcut.right hcl
        rw [hks]
        exact LineKind.endsInRecipe_fresh hu h ks
      | _ => exact continuesRecipe_keyword hk (by simp)

end Continues

end Line

namespace Parser

/-- With `ext` behind them, a recipe goes on after no lines where it ended with `rest` there. -/
def Quieter (rest ext : List Line) : Prop :=
  ∀ us, Line.Cut (us ++ rest) → Line.Cut (us ++ ext) → Nest.ClosedAll us.flatten →
    Line.continuesRecipe (us ++ rest) = false → Line.continuesRecipe (us ++ ext) = false

namespace Quieter

variable {rest ext : List Line}

theorem append (h : Quieter rest ext) {ws : List Line} (hw : Nest.ClosedAll ws.flatten) :
    Quieter (ws ++ rest) (ws ++ ext) := by
  intro us h₁ h₂ hc hr
  rw [← List.append_assoc] at h₁ h₂ hr ⊢
  refine h _ h₁ h₂ ?_ hr
  rw [List.flatten_append]
  exact Nest.closedAll_append.2 ⟨hc, hw⟩

theorem nil (rest : List Line) : Quieter rest [] := by
  intro us h₁ h₂ hc hr
  rw [List.append_nil]
  by_contra hu
  rw [Bool.not_eq_false] at hu
  rw [Line.continuesRecipe_append hu h₁ hc] at hr
  cases hr

theorem of_fresh {line : Line} {lines : List Line} (h : (LineKind.ofLine line).Fresh)
    (hcl : Nest.ClosedAll (line :: lines).flatten) : Quieter [] (line :: lines) := by
  intro us h₁ h₂ hc hr
  rw [List.append_nil] at hr
  exact Line.continuesRecipe_append_fresh hr h h₂ hc hcl

end Quieter

section Scan

open LineKind

/-- No nest of the lines breaks the line but as a line break. -/
def SolidLines (lines : List Line) : Prop := ∀ l ∈ lines, ∀ n ∈ l, Solid n

theorem SolidLines.cons {line : Line} {lines : List Line} (h : ∀ n ∈ line, Solid n)
    (hs : SolidLines lines) : SolidLines (line :: lines) := by
  intro l hl
  rcases List.mem_cons.1 hl with rfl | hl
  · exact h
  · exact hs l hl

theorem SolidLines.append {us ws : List Line} (h : SolidLines us) (h' : SolidLines ws) :
    SolidLines (us ++ ws) :=
  fun l hl => (List.mem_append.1 hl).elim (h l) (h' l)

/-- Lines inside of conditionals. -/
structure PassedBy (used : List Line) : Prop where
  solid : SolidLines used
  matched : Matched (used.map ofLine)

/-- Lines up to an `endif` end a conditional. -/
def LeftBy (used : List Line) : Prop :=
  SolidLines used ∧ ∃ body, used.map ofLine = body ++ [.keyword .endif] ∧ Matched body

/-- What the scan for a recipe makes of the lines of a task in a recipe. -/
def Task.Scanned : Task → List Line → Prop
  | .item line, used => PassedBy (line :: used)
  | .branch .recipe, used => PassedBy used
  | .conditional .recipe line, used => (∀ n ∈ line, Solid n) ∧ LeftBy used
  | .closing .recipe line, used => LeftBy (line :: used)
  | _, _ => True

theorem PassedBy.append {us ws : List Line} (h : PassedBy us) (h' : PassedBy ws) :
    PassedBy (us ++ ws) where
  solid := h.solid.append h'.solid
  matched := by
    rw [List.map_append]
    exact h.matched.append h'.matched

theorem PassedBy.left {us ws : List Line} (h : PassedBy us) (h' : LeftBy ws) :
    LeftBy (us ++ ws) := by
  obtain ⟨hw, body, hb, hl⟩ := h'
  refine ⟨h.solid.append hw, us.map ofLine ++ body, ?_, h.matched.append hl⟩
  rw [List.map_append, hb, List.append_assoc]

theorem passedBy_nil : PassedBy [] := ⟨nofun, .nil⟩

theorem passedBy_singleton {line : Line} (hs : ∀ n ∈ line, Solid n)
    (hf : (ofLine line).fit = true) (hc : (ofLine line).isConditional = false)
    (he : ofLine line ≠ .keyword .endif) : PassedBy [line] :=
  ⟨.cons hs nofun, .singleton hf hc he⟩

theorem passedBy_item {line : Line} (hk : IsItem (ofLine line)) (hs : ∀ n ∈ line, Solid n) :
    PassedBy [line] := by
  rcases hk with hk | hk | hk <;>
    exact passedBy_singleton hs (by simp [hk, fit]) (by simp [hk, isConditional]) (by simp [hk])

theorem passedBy_otherwise {line : Line} (hl : Context.recipe.closing? line = some .otherwise)
    (hs : ∀ n ∈ line, Solid n) : PassedBy [line] := by
  have hk := Context.recipe_closing? hl
  exact passedBy_singleton hs (by simp [hk, fit]) (by simp [hk, isConditional]) (by simp [hk])

theorem LeftBy.passedBy {line : Line} {used : List Line} {c : ConditionalKind}
    (hk : ofLine line = .keyword (.conditional c)) (hl : ∀ n ∈ line, Solid n) (h : LeftBy used) :
    PassedBy (line :: used) := by
  obtain ⟨hu, body, hb, hs⟩ := h
  refine ⟨.cons hl hu, ?_⟩
  rw [List.map_cons, hk, hb]
  exact hs.block c

theorem leftBy_endif {line : Line} (hl : Context.recipe.closing? line = some .endif)
    (hs : ∀ n ∈ line, Solid n) : LeftBy [line] :=
  ⟨.cons hs nofun, [], by rw [List.map_singleton, Context.recipe_closing? hl]; rfl, .nil⟩

theorem solid_append {ms ns : List Nest} (h : ∀ n ∈ ms, Solid n) (h' : ∀ n ∈ ns, Solid n) :
    ∀ n ∈ ms ++ ns, Solid n :=
  fun n hn => (List.mem_append.1 hn).elim (h n) (h' n)

theorem Parses.scanned {task : Task} {lines rest : List Line} {ts : List Tree}
    (h : Parses task lines ts rest) : ∃ used, lines = used ++ rest ∧ task.Scanned used := by
  induction h with
  | @alone _ used _ _ _ _ _ => exact ⟨used, rfl, trivial⟩
  | rule _ _ _ _ ih => exact ih
  | statementConditional _ h _ =>
    obtain ⟨used, hu⟩ := h.suffix
    exact ⟨used, hu.symm, trivial⟩
  | item hk _ _ solid => exact ⟨[], rfl, passedBy_item hk solid⟩
  | itemConditional hk _ ih =>
    obtain ⟨used, hu, solid, hs⟩ := ih
    exact ⟨used, hu, hs.passedBy hk solid⟩
  | @conditional ctx line mid lines after rest hd br cl _ _ solid _ _ ihb ihc =>
    obtain ⟨used, hu, hs⟩ := ihb
    obtain ⟨used', hu', hs'⟩ := ihc
    refine ⟨used ++ mid :: used', by simp [hu, hu'], ?_⟩
    cases ctx with
    | statements => trivial
    | recipe => exact ⟨solid, hs.left hs'⟩
  | @closingEndif ctx line lines ts hl _ _ solid =>
    refine ⟨[], rfl, ?_⟩
    cases ctx with
    | statements => trivial
    | recipe => exact leftBy_endif hl solid
  | @closingChained ctx us line lines rest hd ts hl _ _ solid _ _ ih =>
    obtain ⟨used, hu, hs⟩ := ih
    refine ⟨used, hu, ?_⟩
    cases ctx with
    | statements => trivial
    | recipe =>
      obtain ⟨solid', hs⟩ := hs
      exact (passedBy_otherwise hl (solid_append solid solid')).left hs
  | @closingOtherwise ctx us line mid lines after rest hd el br ts hl _ _ solid _ _ _ solid' _ _
      _ ihb ihc =>
    obtain ⟨used, hu, hs⟩ := ihb
    obtain ⟨used', hu', hs'⟩ := ihc
    refine ⟨used ++ mid :: used', by simp [hu, hu'], ?_⟩
    cases ctx with
    | statements => trivial
    | recipe =>
      exact (passedBy_otherwise hl (solid_append solid solid')).left (hs.left hs')
  | @branchEnd ctx line lines hl =>
    refine ⟨[], rfl, ?_⟩
    cases ctx with
    | statements => trivial
    | recipe => exact passedBy_nil
  | @branchEntry ctx line lines mid rest ts us _ _ _ ih ihb =>
    obtain ⟨used, rfl, hs⟩ := ih
    obtain ⟨used', rfl, hs'⟩ := ihb
    refine ⟨line :: (used ++ used'), by simp, ?_⟩
    cases ctx with
    | statements => trivial
    | recipe => exact hs.append hs'
  | recipesEnd => exact ⟨[], rfl, trivial⟩
  | @recipesItem line lines mid rest ts us _ _ _ ih ihr =>
    obtain ⟨used, rfl, -⟩ := ih
    obtain ⟨used', rfl, -⟩ := ihr
    exact ⟨line :: (used ++ used'), by simp, trivial⟩
  | fileEnd => exact ⟨[], rfl, trivial⟩
  | @fileStatement line lines mid rest ts us _ _ ih ihf =>
    obtain ⟨used, rfl, -⟩ := ih
    obtain ⟨used', rfl, -⟩ := ihf
    exact ⟨line :: (used ++ used'), by simp, trivial⟩

/-- Whether a conditional is fit for a recipe is told by its lines. -/
theorem LeftBy.isRecipeConditional {line : Line} {used : List Line} {c : ConditionalKind}
    (h : LeftBy used) (hk : ofLine line = .keyword (.conditional c)) (hl : ∀ n ∈ line, Solid n)
    (hc : Nest.ClosedAll (line :: used).flatten) : ∃ seen, ∀ ws, Line.Cut (line :: used ++ ws) →
      Line.isRecipeConditional (line :: used ++ ws) = seen := by
  obtain ⟨hu, body, hb, hs⟩ := h
  refine ⟨body.contains .recipe, fun ws hw => ?_⟩
  have hsolid := ofLines_solid hw.left hc (SolidLines.cons hl hu)
  rw [Line.isRecipeConditional, ofLines_append hw hc, hsolid, List.map_cons, hk, hb,
    List.cons_append, List.append_assoc, endsInRecipe, hs.scan]
  simp [endsInRecipe]

theorem Parses.continues {lines rest : List Line} {ts : List Tree}
    (h : Parses .recipes lines ts rest) (hc : Line.continuesRecipe lines = true) {used : List Line}
    (hu : lines = used ++ rest) (hcut : Line.Cut lines) (hcl : Nest.ClosedAll lines.flatten)
    {ext : List Line} (he : Line.Cut (used ++ ext)) :
    Line.continuesRecipe (used ++ ext) = true := by
  generalize ht : Task.recipes = task at h
  induction h generalizing used with
  | recipesEnd h => exact absurd hc (by simp [h])
  | @recipesItem line lines mid rest ts us _ hi hr _ ihr =>
    obtain ⟨w, rfl⟩ := hr.suffix
    have hcl' := (Nest.closedAll_append.1 (List.flatten_cons ▸ hcl)).2
    cases hi with
    | item hk =>
      obtain rfl : used = line :: w := List.append_cancel_right hu.symm
      have hskip (hk : LineKind.ofLine line = .blank ∨ LineKind.ofLine line = .comment) :
          Line.continuesRecipe (line :: w ++ ext) = true := by
        rw [Line.continuesRecipe_skip hk] at hc
        rw [List.cons_append, Line.continuesRecipe_skip hk]
        exact ihr hc rfl hcut.tail hcl' he.tail rfl
      rcases hk with hk | hk | hk
      · exact Line.continuesRecipe_recipe hk
      · exact hskip (.inl hk)
      · exact hskip (.inr hk)
    | itemConditional hk h =>
      obtain ⟨v, rfl, solid, hs⟩ := h.scanned
      obtain rfl : used = line :: v ++ w := by
        refine List.append_cancel_right (hu.symm.trans ?_)
        simp
      have hv : Nest.ClosedAll (line :: v).flatten := by
        rw [← List.cons_append, List.flatten_append] at hcl
        exact (Nest.closedAll_append.1 hcl).1
      obtain ⟨seen, hseen⟩ := hs.isRecipeConditional hk solid hv
      rw [Line.continuesRecipe_conditional hk, ← List.cons_append, hseen _ hcut] at hc
      rw [List.append_assoc] at he ⊢
      rw [List.cons_append, Line.continuesRecipe_conditional hk, ← List.cons_append, hseen _ he, hc]
  | _ => cases ht

end Scan

end Parser

end MakeTree
