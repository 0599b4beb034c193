import MakeTree.Proofs.Lexer.Shift
import MakeTree.Proofs.Nest.Lockstep

/-!
Texts further on. A text is cut in the same way wherever it starts (`lockstep_shift`), and where
that is neither the grammar sees nor a tree tells (`Likeness.shift`).
-/

namespace MakeTree

variable (l b : Nat)

/-- The same but for positions, which are some lines and bytes further on. -/
def Likeness.shift : Likeness :=
  moved (fun p q => q = p.shift l b) (fun t u => u = t.shift l b) fun h => by
    rw [h]
    exact ⟨rfl, rfl⟩

theorem lockstep_shift : (Likeness.shift l b).Lockstep fun lx ly => ly = lx.shift l b where
  rest := by
    rintro lx _ rfl h
    exact h
  frames := by
    rintro lx _ rfl
    rw [Lexer.shift, List.head?_map]
    cases lx.frames.head? with
    | none => exact .none
    | some f => exact .some ⟨rfl, rfl⟩
  step := by
    rintro lx _ p next rfl h
    have hs := Lexer.step_shift l b lx
    rw [h] at hs
    refine ⟨_, _, hs, ?_, rfl⟩
    cases p with
    | token t ch => exact .token rfl fun _ => Token.inside_shift l b t
    | continuation s => exact .continuation rfl
    | illegal q c => exact .illegal c rfl

variable {l b}

theorem Likeness.Frames.eq_shift {f g : Frame} (h : (Likeness.shift l b).Frames f g) :
    g = f.shift l b := by
  have hk : g.kind = f.kind := h.kind
  have hp : g.position = f.position.shift l b := h.position
  rw [Frame.shift, ← hk, ← hp]

theorem Likeness.Errors.eq_shift {e e' : LexError} (h : (Likeness.shift l b).Errors e e') :
    e' = e.shift l b := by
  cases h with
  | illegal c h => rw [h]; rfl
  | unterminated h => rw [h.eq_shift]; rfl

end MakeTree
