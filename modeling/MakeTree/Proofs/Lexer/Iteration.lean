import MakeTree.Proofs.Lexer.Items
import Mathlib.Logic.Function.Iterate

/-!
The lexer as an iterator. Call by call it yields the tokens and illegal characters among the pieces
of the text (`yielded_eq`), then an error if a frame is open, and from then on nothing
(`ahead_next`).
-/

namespace MakeTree

namespace Lexer

/-- The lexer after `n` calls of `next`. -/
def ahead (lx : Lexer) (n : Nat) : Lexer := (fun l => l.next.2)^[n] lx

/-- What the calls of `next` yield before the first that yields nothing. -/
def yielded (lx : Lexer) : List Item := lx.items.map Prod.fst

/-- What is said of the end of the text. -/
def ending? (lx : Lexer) : Option Item :=
  if lx.finished then none else lx.frames.head?.map (.error <| .unterminated ·)

theorem next_cases (lx : Lexer) :
    (∃ ps p item, lx.next.1 = some item ∧ Steps lx (ps ++ [p]) lx.next.2 ∧
      ps.filterMap Piece.item? = [] ∧ p.item? = some item) ∨
    (∃ ps last, Steps lx ps last ∧ ps.filterMap Piece.item? = [] ∧ last.rest = [] ∧
      lx.next = (last.ending?, { last with finished := true })) := by
  fun_induction next lx with
  | case1 lx t change after hs => exact .inl ⟨[], _, _, rfl, .cons hs (.nil _), rfl, rfl⟩
  | case2 lx q c after hs => exact .inl ⟨[], _, _, rfl, .cons hs (.nil _), rfl, rfl⟩
  | case3 lx s after hs ih =>
    obtain ⟨ps, p, item, hn, hp, hq, hi⟩ | ⟨ps, last, hp, hq, hr, hn⟩ := ih
    · exact .inl ⟨_ :: ps, p, item, hn, .cons hs hp, hq, hi⟩
    · exact .inr ⟨_ :: ps, last, .cons hs hp, hq, hr, hn⟩
  | case4 lx hs hf =>
    refine .inr ⟨[], lx, .nil lx, rfl, step_eq_none.1 hs, ?_⟩
    rw [ending?, if_pos hf]
    rcases lx with ⟨rest, position, frames, atLineStart, onlyBlanks, recipePrefix, finished⟩
    obtain rfl : finished = true := hf
    rfl
  | case5 lx hs hf =>
    refine .inr ⟨[], lx, .nil lx, rfl, step_eq_none.1 hs, ?_⟩
    rw [ending?, if_neg hf]

theorem ending?_of_finished {lx : Lexer} (h : lx.finished = true) : lx.ending? = none := by
  rw [ending?, if_pos h]

theorem ahead_succ (lx : Lexer) (n : Nat) : lx.ahead (n + 1) = lx.next.2.ahead n :=
  Function.iterate_succ_apply _ n lx

theorem ahead_succ' (lx : Lexer) (n : Nat) : lx.ahead (n + 1) = (lx.ahead n).next.2 :=
  Function.iterate_succ_apply' _ n lx

theorem ahead_of_finished {lx : Lexer} (hf : lx.finished = true) (hr : lx.rest = []) (n : Nat) :
    lx.ahead n = lx := by
  induction n with
  | zero => rfl
  | succ n ih => rw [ahead_succ, next_of_finished hf hr, ih]

theorem next_none {lx : Lexer} (h : lx.next.1 = none) :
    lx.next.2.finished = true ∧ lx.next.2.rest = [] := by
  obtain ⟨ps, p, item, hn, -⟩ | ⟨ps, last, -, -, hr, hn⟩ := lx.next_cases
  · rw [hn] at h
    cases h
  · rw [hn]
    exact ⟨rfl, hr⟩

theorem yielded_of_none {lx : Lexer} (h : lx.next.1 = none) : lx.yielded = [] := by
  have hn : lx.next = (none, lx.next.2) := Prod.ext h rfl
  rw [yielded, items_nil hn, List.map_nil]

theorem yielded_of_some {lx : Lexer} {item : Item} (h : lx.next.1 = some item) :
    lx.yielded = item :: lx.next.2.yielded := by
  have hn : lx.next = (some item, lx.next.2) := Prod.ext h rfl
  rw [yielded, items_cons hn, List.map_cons, yielded]

theorem ahead_next (lx : Lexer) (n : Nat) : (lx.ahead n).next.1 = lx.yielded[n]? := by
  induction n generalizing lx with
  | zero =>
    show lx.next.1 = _
    cases h : lx.next.1 with
    | none => rw [yielded_of_none h]; rfl
    | some item => rw [yielded_of_some h]; rfl
  | succ n ih =>
    rw [ahead_succ]
    cases h : lx.next.1 with
    | none =>
      obtain ⟨hf, hr⟩ := next_none h
      rw [yielded_of_none h, ahead_of_finished hf hr, next_of_finished hf hr]
      rfl
    | some item => rw [yielded_of_some h, ih, List.getElem?_cons_succ]

/-- The items are the tokens and illegal characters of the text, and what is said of its end. -/
theorem yielded_eq (lx : Lexer) :
    lx.yielded = lx.run.1.filterMap Piece.item? ++ lx.run.2.ending?.toList := by
  unfold yielded
  fun_induction items lx with
  | case1 lx after h =>
    obtain ⟨ps, p, item, hn, -⟩ | ⟨ps, last, hs, hp, hr, hn⟩ := lx.next_cases
    · rw [h] at hn
      cases hn
    · rw [h] at hn
      rw [hs.run, run_of_rest hr, List.append_nil, hp, ← (Prod.mk.inj hn).1]
      rfl
  | case2 lx item after h ih =>
    rw [List.map_cons, ih]
    obtain ⟨ps, p, item', hn, hs, hp, hi⟩ | ⟨ps, last, hs, hp, hr, hn⟩ := lx.next_cases
    · rw [h] at hn hs
      cases hn
      rw [hs.run]
      simp [hp, hi]
    · rw [h] at hn
      obtain ⟨he, rfl⟩ := Prod.mk.inj hn
      have hlast : Lexer.run { last with finished := true } =
          ([], { last with finished := true }) := run_of_rest hr
      rw [hs.run, run_of_rest hr, hlast, ← he, ending?_of_finished rfl, List.append_nil, hp]
      rfl

theorem mem_yielded_of_run {lx : Lexer} {p : Piece} {item : Item} (hp : p ∈ lx.run.1)
    (hi : p.item? = some item) : item ∈ lx.yielded := by
  rw [yielded_eq]
  exact List.mem_append_left _ (List.mem_filterMap.2 ⟨p, hp, hi⟩)

theorem ahead_rest (lx : Lexer) : (lx.ahead (lx.yielded.length + 1)).rest = [] := by
  rw [ahead_succ']
  refine (next_none ?_).2
  rw [ahead_next, List.getElem?_eq_none (Nat.le_refl _)]

end Lexer

end MakeTree
