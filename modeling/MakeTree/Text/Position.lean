import MakeTree.Text.Basic

/-!
Positions in a text. Lines and columns count from one and columns count characters; the offset
counts bytes from zero. `past` moves a position over a text.
-/

namespace MakeTree

structure Position where
  line : Nat := 1
  column : Nat := 1
  offset : Nat := 0
deriving DecidableEq, Repr, Inhabited

namespace Position

/-- Written `line:column`. -/
def display (p : Position) : String := toString p.line ++ ":" ++ toString p.column

/-- The start of the next line, `size` bytes further. -/
def nextLine (p : Position) (size : Nat) : Position := ⟨p.line + 1, 1, p.offset + size⟩

def nextColumn (p : Position) (c : Char) : Position :=
  ⟨p.line, p.column + 1, p.offset + c.utf8Size⟩

/-- The position just after `t`, when `t` starts at `p`. -/
def past (p : Position) : Text → Position
  | [] => p
  | '\r' :: '\n' :: t => past (p.nextLine 2) t
  | '\r' :: t => past (p.nextLine 1) t
  | '\n' :: t => past (p.nextLine 1) t
  | c :: t => past (p.nextColumn c) t

theorem past_offset (p : Position) (t : Text) : (p.past t).offset = p.offset + t.byteSize := by
  fun_induction past p t with
  | case1 p => rfl
  | case2 p t ih => rw [ih]; simp [nextLine, Text.byteSize, Char.utf8Size]; omega
  | case3 p t _ ih => rw [ih]; simp [nextLine, Text.byteSize, Char.utf8Size]; omega
  | case4 p t ih => rw [ih]; simp [nextLine, Text.byteSize, Char.utf8Size]; omega
  | case5 p c t _ _ _ ih => rw [ih]; simp [nextColumn, Text.byteSize]; omega

end Position

end MakeTree
