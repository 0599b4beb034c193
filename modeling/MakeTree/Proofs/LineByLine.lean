import Mathlib
import MakeTree.Proofs.Concatenation

/-!
Reading a text line by line. A text that ends with a line break yields in front of another what it
yields by itself, and the other yields behind it the same items further on (`outputs_append`): no
piece looks beyond a line break, and after the last one the lexer stands as at the start of a text.
-/

namespace MakeTree

/-- The same item in a text that starts some lines and bytes further on. -/
def Item.shift (l b : Nat) : Item → Item
  | .ok t => .ok (t.shift l b)
  | .error e => .error (e.shift l b)

theorem Piece.item?_shift (l b : Nat) (p : Piece) :
    (p.shift l b).item? = p.item?.map (Item.shift l b) := by
  cases p <;> rfl

namespace Lexer

/-- Each item, with the number of frames that are open after it. -/
def outputs (lx : Lexer) : List (Item × Nat) := lx.items.map fun r => (r.1, r.2.depth)

theorem next_of_step {lx after : Lexer} {p : Piece} (hs : lx.step = some (p, after)) :
    lx.next = match p.item? with
      | some item => (some item, after)
      | none => after.next := by
  rw [next]
  split
  · next h => obtain ⟨rfl, rfl⟩ := Prod.mk.inj (Option.some.inj (hs.symm.trans h)); rfl
  · next h => obtain ⟨rfl, rfl⟩ := Prod.mk.inj (Option.some.inj (hs.symm.trans h)); rfl
  · next h => obtain ⟨rfl, rfl⟩ := Prod.mk.inj (Option.some.inj (hs.symm.trans h)); rfl
  · next h => rw [hs] at h; cases h

theorem next_of_end {lx : Lexer} (hr : lx.rest = []) :
    lx.next = (lx.ending?, { lx with finished := true }) := by
  have hnone := step_eq_none.2 hr
  obtain ⟨ps, p, item, -, hs, -⟩ | ⟨ps, last, hs, -, -, hn⟩ := lx.next_cases
  · rcases ps with _ | ⟨q, ps⟩ <;> cases hs with
    | cons hs _ => rw [hnone] at hs; cases hs
  · cases hs with
    | nil => exact hn
    | cons hs _ => rw [hnone] at hs; cases hs

theorem outputs_step {lx after : Lexer} {p : Piece} (hs : lx.step = some (p, after)) :
    lx.outputs = (p.item?.map fun item => (item, after.depth)).toList ++ after.outputs := by
  have hn := next_of_step hs
  cases hp : p.item? with
  | none =>
    rw [hp] at hn
    rw [outputs, outputs, items, items, hn]
    rfl
  | some item =>
    rw [hp] at hn
    rw [outputs, items_cons hn]
    rfl

theorem outputs_end {lx : Lexer} (hr : lx.rest = []) :
    lx.outputs = (lx.ending?.map fun item => (item, lx.depth)).toList := by
  have hn := next_of_end hr
  cases he : lx.ending? with
  | none =>
    rw [he] at hn
    rw [outputs, items_nil hn]
    rfl
  | some item =>
    rw [he] at hn
    rw [outputs, items_cons hn, @items_of_finished { lx with finished := true } rfl hr]
    rfl

theorem outputs_shift (l b : Nat) (lx : Lexer) :
    (lx.shift l b).outputs = lx.outputs.map fun r => (r.1.shift l b, r.2) := by
  have hs := lx.steps_run
  have hr := lx.run_rest
  generalize lx.run.1 = ps at hs
  generalize lx.run.2 = last at hs hr
  induction hs with
  | nil lx =>
    rw [outputs_end hr, @outputs_end (lx.shift l b) hr]
    simp only [ending?, shift, depth, List.head?_map, List.length_map]
    split
    · rfl
    · cases lx.frames.head? <;> rfl
  | @cons lx after last p ps hs _ ih =>
    have hs' := step_shift l b lx
    rw [hs, Option.map_some] at hs'
    have hd : (after.shift l b).depth = after.depth := List.length_map _
    rw [outputs_step hs, outputs_step hs', ih hr, Piece.item?_shift, List.map_append, hd]
    cases p.item? <;> rfl

/-- The pieces up to the end of a line yield the same items whatever follows. -/
theorem Steps.outputs {lx last : Lexer} {ps : List Piece} {x : Text} (h : Steps lx ps last)
    (hx : lx.rest = [] ∨ lx.rest.EndsLine x) : ∃ rs, lx.outputs = rs ++ last.outputs ∧
      (lx.extend x).outputs = rs ++ (last.extend x).outputs := by
  induction h with
  | nil lx => exact ⟨[], rfl, rfl⟩
  | @cons lx after last p ps hs _ ih =>
    have hx : lx.rest.EndsLine x := by
      refine hx.resolve_left fun h0 => ?_
      rw [step_eq_none.2 h0] at hs
      cases hs
    have hx' : after.rest = [] ∨ after.rest.EndsLine x := by
      rw [← step_text hs] at hx
      exact or_iff_not_imp_left.2 hx.of_suffix
    obtain ⟨rs, h₁, h₂⟩ := ih hx'
    refine ⟨(p.item?.map fun item => (item, after.depth)).toList ++ rs, ?_, ?_⟩
    · rw [outputs_step hs, h₁, List.append_assoc]
    · rw [outputs_step (step_extend hs hx), h₂, List.append_assoc]
      rfl

variable {a b : Text} {c : Char}

theorem EndsLine.frames (h : (start a c).EndsLine) : (start a c).run.2.frames = [] := by
  rcases h with h | ⟨t, after, hl, -⟩
  · rw [run_of_rest h]
    rfl
  · have hy : (start a c).yielded.getLast? = some (.ok t) := by
      rw [yielded, List.getLast?_map, hl]
      rfl
    have hf : (start a c).run.2.finished = false := (start a c).steps_run.finished
    rw [yielded_eq, ending?, hf] at hy
    cases hr : (start a c).run.2.frames with
    | nil => rfl
    | cons f fs => simp [hr] at hy

/-- A text that ends its last line is cut into the same pieces in front of another, behind which the
lexer stands as at the start of that. -/
theorem EndsLine.restart (h : (start a c).EndsLine) (hseam : a.Seam b) :
    (a = [] ∨ a.EndsLine b) ∧
      (start a c).run.2.extend b = (start b c).shift a.lineBreaks a.byteSize := by
  rcases h.run with ⟨-, hr⟩ | ⟨t, change, hl, hk⟩
  · rw [run_of_rest hr]
    obtain rfl : a = [] := hr
    exact ⟨.inl rfl, rfl⟩
  · have hs := (start a c).steps_run
    have ht := hs.text
    rw [run_rest, List.append_nil] at ht
    have he := hs.endsLine hl hk
    have hm := hs.restart h.frames hl hk
    rw [ht] at he hm
    refine ⟨.inr (he.imp_right fun hr => ⟨hr.1, hseam hr.1⟩), ?_⟩
    rw [hm, run_rest]
    rfl

/-- A text that ends its last line yields in front of another what it yields by itself, and the
other yields behind it what it yields by itself, some lines and bytes further on. -/
theorem outputs_append (hend : (start a c).EndsLine)
    (hseam : ¬ (a.getLast? = some '\r' ∧ b.head? = some '\n')) :
    (start (a ++ b) c).outputs = (start a c).outputs ++
      (start b c).outputs.map fun r => (r.1.shift a.lineBreaks a.byteSize, r.2) := by
  obtain ⟨hx, hlast⟩ := hend.restart (b := b) fun h h' => hseam ⟨h, h'⟩
  obtain ⟨rs, h, h'⟩ := (start a c).steps_run.outputs hx
  have hnil : (start a c).run.2.outputs = [] := by
    rw [outputs_end (run_rest _), ending?, hend.frames]
    split <;> rfl
  rw [hnil, List.append_nil] at h
  rw [hlast, outputs_shift] at h'
  rw [h]
  exact h'

/-- A line in front of an expansion that does not end. -/
theorem outputs_append_open :
    (start "a\n".toList '\t').EndsLine ∧
    ¬ ("a\n".toList.getLast? = some '\r' ∧ "$(".toList.head? = some '\n') ∧
    (start "a\n$(".toList '\t').outputs = (start "a\n".toList '\t').outputs ++
      [(.ok ⟨.expansionPrefix, ['$', '('], ⟨2, 1, 2⟩⟩, 1),
        (.error (.unterminated ⟨.expansion, ⟨2, 1, 2⟩⟩), 1)] := by
  have h₁ : (start "a\n".toList '\t').next = (some (.ok ⟨.plainText, ['a'], ⟨1, 1, 0⟩⟩),
      ⟨['\n'], ⟨1, 2, 1⟩, [], false, false, '\t', false⟩) := by cbv
  have h₂ : (⟨['\n'], ⟨1, 2, 1⟩, [], false, false, '\t', false⟩ : Lexer).next =
      (some (.ok ⟨.lineBreak, ['\n'], ⟨1, 2, 1⟩⟩), ⟨[], ⟨2, 1, 2⟩, [], true, true, '\t', false⟩) := by
    cbv
  have h₃ : (⟨[], ⟨2, 1, 2⟩, [], true, true, '\t', false⟩ : Lexer).next =
      (none, ⟨[], ⟨2, 1, 2⟩, [], true, true, '\t', true⟩) := by cbv
  have hend : (start "a\n".toList '\t').EndsLine := by
    refine .inr ⟨⟨.lineBreak, ['\n'], ⟨1, 2, 1⟩⟩, ⟨[], ⟨2, 1, 2⟩, [], true, true, '\t', false⟩,
      ?_, rfl, rfl⟩
    rw [items_cons h₁, items_cons h₂, items_nil h₃]
    rfl
  have h₄ : (start "$(".toList '\t').next = (some (.ok ⟨.expansionPrefix, ['$', '('], ⟨1, 1, 0⟩⟩),
      ⟨[], ⟨1, 3, 2⟩, [⟨.expansion, ⟨1, 1, 0⟩⟩], false, false, '\t', false⟩) := by cbv
  have hb : (start "$(".toList '\t').outputs =
      [(.ok ⟨.expansionPrefix, ['$', '('], ⟨1, 1, 0⟩⟩, 1),
        (.error (.unterminated ⟨.expansion, ⟨1, 1, 0⟩⟩), 1)] := by
    rw [outputs, items_cons h₄, List.map_cons]
    exact congrArg _ (outputs_end rfl)
  have hseam : ¬ ("a\n".toList.getLast? = some '\r' ∧ "$(".toList.head? = some '\n') := by decide
  refine ⟨hend, hseam, ?_⟩
  have h := outputs_append hend hseam
  rw [hb] at h
  exact h

end Lexer

end MakeTree
