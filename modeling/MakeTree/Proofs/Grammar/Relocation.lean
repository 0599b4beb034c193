import MakeTree.Proofs.Grammar.Lookahead

/-!
Moving parsed lines. What follows the lines of a task may be exchanged for other lines, as long as
no recipe goes on into these (`Parses.relocate`); so a task can be done on its lines alone, and the
statements of a text can be done in front of others.
-/

namespace MakeTree

namespace Parser

/-- A branch is parsed with the line that ends it in view. -/
def Task.Ends : Task → List Line → List Line → Prop
  | .branch _, rest, ext => ext.head? = rest.head?
  | _, _, _ => True

theorem Task.entry_ends (ctx : Context) (line : Line) (rest ext : List Line) :
    (Task.entry ctx line).Ends rest ext := by
  cases ctx <;> trivial

/-- Lines of a text, with `rest` behind them, that can have `ext` there as well. -/
structure Exchange (us rest ext : List Line) : Prop where
  cut : Line.Cut (us ++ rest)
  closed : Nest.ClosedAll (us ++ rest).flatten
  cut_ext : Line.Cut (us ++ ext)
  quieter : Quieter rest ext

namespace Exchange

variable {us ws rest ext : List Line}

theorem right (h : Exchange (us ++ ws) rest ext) : Exchange ws rest ext := by
  obtain ⟨h₁, h₂, h₃, hq⟩ := h
  rw [List.append_assoc] at h₁ h₂ h₃
  rw [List.flatten_append] at h₂
  exact ⟨h₁.right, (Nest.closedAll_append.1 h₂).2, h₃.right, hq⟩

theorem tail {line : Line} (h : Exchange (line :: us) rest ext) : Exchange us rest ext :=
  right (List.singleton_append ▸ h)

theorem left (h : Exchange (us ++ ws) rest ext) : Exchange us (ws ++ rest) (ws ++ ext) := by
  obtain ⟨h₁, h₂, h₃, hq⟩ := h
  rw [List.append_assoc] at h₁ h₂ h₃
  refine ⟨h₁, h₂, h₃, hq.append ?_⟩
  rw [List.flatten_append, List.flatten_append] at h₂
  exact (Nest.closedAll_append.1 (Nest.closedAll_append.1 h₂).2).1

end Exchange

/-- The same is parsed with other lines behind. -/
theorem Parses.relocate {task : Task} {lines rest : List Line} {ts : List Tree}
    (h : Parses task lines ts rest) {used ext : List Line} (hu : lines = used ++ rest)
    (hx : Exchange used rest ext) (hends : task.Ends rest ext) :
    Parses task (used ++ ext) ts ext := by
  induction h generalizing used ext with
  | @alone line v rest ts h held hs =>
    obtain rfl : v = used := List.append_cancel_right hu
    exact .alone h held hs
  | rule hl h held hr ih => exact .rule hl h held (ih hu hx trivial)
  | statementConditional hl h ih => exact .statementConditional hl (ih hu hx trivial)
  | item hk h held solid =>
    obtain rfl : used = [] := List.append_cancel_right hu.symm
    exact .item hk h held solid
  | itemConditional hk h ih => exact .itemConditional hk (ih hu hx trivial)
  | @conditional ctx line mid lines after rest hd br cl h held solid hb hc ihb ihc =>
    obtain ⟨v, rfl⟩ := hb.suffix
    obtain ⟨w, rfl⟩ := hc.suffix
    obtain rfl : used = v ++ mid :: w := List.append_cancel_right (hu.symm.trans (by simp))
    rw [List.append_assoc]
    exact .conditional h held solid (ihb rfl hx.left rfl) (ihc rfl hx.right.tail trivial)
  | closingEndif hl h held solid =>
    obtain rfl : used = [] := List.append_cancel_right hu.symm
    exact .closingEndif hl h held solid
  | closingChained hl h held solid hk hc ih =>
    exact .closingChained hl h held solid hk (ih hu hx trivial)
  | @closingOtherwise ctx us line mid lines after rest hd el br ts hl h held solid hk h' held'
      solid' hb hm hc ihb ihc =>
    obtain ⟨v, rfl⟩ := hb.suffix
    obtain ⟨w, rfl⟩ := hc.suffix
    obtain rfl : used = v ++ mid :: w := List.append_cancel_right (hu.symm.trans (by simp))
    rw [List.append_assoc]
    exact .closingOtherwise hl h held solid hk h' held' solid' (ihb rfl hx.left rfl) hm
      (ihc rfl hx.right.tail trivial)
  | @branchEnd ctx line lines hl =>
    obtain rfl : used = [] := List.append_cancel_right hu.symm
    cases ext with
    | nil => cases hends
    | cons line' ext =>
      obtain rfl : line' = line := Option.some.inj hends
      exact .branchEnd hl
  | @branchEntry ctx line lines mid rest ts us hl h hb ih ihb =>
    obtain ⟨v, rfl⟩ := h.suffix
    obtain ⟨w, rfl⟩ := hb.suffix
    obtain rfl : used = line :: (v ++ w) := List.append_cancel_right (hu.symm.trans (by simp))
    rw [List.cons_append, List.append_assoc]
    exact .branchEntry hl (ih rfl hx.tail.left (Task.entry_ends ctx line _ _))
      (ihb rfl hx.tail.right hends)
  | @recipesEnd lines h =>
    obtain rfl : used = [] := List.append_cancel_right hu.symm
    exact .recipesEnd (hx.quieter [] hx.cut hx.cut_ext trivial h)
  | @recipesItem line lines mid rest ts us h hi hr ih ihr =>
    have hc := (Parses.recipesItem h hi hr).continues h hu (hu ▸ hx.cut) (hu ▸ hx.closed) hx.cut_ext
    obtain ⟨v, rfl⟩ := hi.suffix
    obtain ⟨w, rfl⟩ := hr.suffix
    obtain rfl : used = line :: (v ++ w) := List.append_cancel_right (hu.symm.trans (by simp))
    rw [List.cons_append, List.append_assoc] at hc ⊢
    exact .recipesItem hc (ih rfl hx.tail.left trivial) (ihr rfl hx.tail.right trivial)
  | @fileEnd lines =>
    obtain rfl : used = [] := List.append_cancel_right hu.symm
    exact .fileEnd
  | @fileStatement line lines mid rest ts us h hf ih ihf =>
    obtain ⟨v, rfl⟩ := h.suffix
    obtain ⟨w, rfl⟩ := hf.suffix
    obtain rfl : used = line :: (v ++ w) := List.append_cancel_right (hu.symm.trans (by simp))
    rw [List.cons_append, List.append_assoc]
    exact .fileStatement (ih rfl hx.tail.left trivial) (ihf rfl hx.tail.right trivial)

end Parser

end MakeTree
