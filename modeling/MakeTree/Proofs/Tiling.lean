import MakeTree.Proofs.Lexer.Iteration

/-!
The items of a text tile it: each is a stretch of the text, one stands behind the other, and between
them there are continuations only (`lexer_tiles`). No piece is empty, so there are no more items
than characters, and one for a frame that is left open.
-/

namespace MakeTree

namespace Text

/-- `s` stands in the text at the byte offset `start`. -/
def At (text : Text) (start : Nat) (s : Text) : Prop :=
  ∃ before after, text = before ++ s ++ after ∧ before.byteSize = start

/-- Line continuations, one after the other. -/
inductive Continued : Text → Prop
  | nil : Continued []
  | cons {b rest : Text} (hb : b.IsLineBreak) (h : Continued rest) :
      Continued ('\\' :: (b ++ rest))

theorem Continued.append {s t : Text} (h : Continued s) (h' : Continued t) :
    Continued (s ++ t) := by
  induction h with
  | nil => exact h'
  | cons hb _ ih =>
    rw [List.cons_append, List.append_assoc]
    exact .cons hb ih

end Text

/-- Where the item starts and the text that it is made of. What is said of the end of a text is made
of none. -/
def Item.stretch? : Item → Option (Nat × Text)
  | .ok t => some (t.position.offset, t.text)
  | .error (.illegalCharacter p c) => some (p.offset, [c])
  | .error (.unterminated _) => none

/-- The items make up the text, which starts at the offset, but for continuations in front of them
and at the end. -/
inductive Tiles : Nat → Text → List Item → Prop
  | atEnd {start : Nat} {gap : Text} (hg : gap.Continued) : Tiles start gap []
  | unterminated {start : Nat} {gap : Text} (hg : gap.Continued) (f : Frame) :
      Tiles start gap [.error (.unterminated f)]
  | item {start : Nat} {gap s rest : Text} {item : Item} {items : List Item} (hg : gap.Continued)
      (hs : item.stretch? = some (start + gap.byteSize, s)) (hne : s ≠ [])
      (h : Tiles (start + gap.byteSize + s.byteSize) rest items) :
      Tiles start (gap ++ s ++ rest) (item :: items)

namespace Tiles

variable {start : Nat} {text : Text} {items : List Item}

theorem start_le (h : Tiles start text items) :
    ∀ r ∈ items.filterMap Item.stretch?, start ≤ r.1 := by
  induction h with
  | atEnd => nofun
  | unterminated => nofun
  | item hg hs hne _ ih =>
    intro r hr
    rw [List.filterMap_cons_some hs] at hr
    rcases List.mem_cons.1 hr with rfl | hr
    · exact Nat.le_add_right _ _
    · have := ih r hr
      omega

theorem pairwise (h : Tiles start text items) :
    (items.filterMap Item.stretch?).Pairwise fun r s => r.1 + r.2.byteSize ≤ s.1 := by
  induction h with
  | atEnd => exact .nil
  | unterminated => exact .nil
  | item hg hs hne h ih =>
    rw [List.filterMap_cons_some hs]
    exact .cons h.start_le ih

theorem stretches (h : Tiles start text items) : ∀ r ∈ items.filterMap Item.stretch?, r.2 ≠ [] ∧
    ∃ before after, text = before ++ r.2 ++ after ∧ start + before.byteSize = r.1 := by
  induction h with
  | atEnd => nofun
  | unterminated => nofun
  | @item start gap s rest item items hg hs hne _ ih =>
    intro r hr
    rw [List.filterMap_cons_some hs] at hr
    rcases List.mem_cons.1 hr with rfl | hr
    · exact ⟨hne, gap, rest, rfl, rfl⟩
    · obtain ⟨hr, before, after, rfl, hb⟩ := ih r hr
      refine ⟨hr, gap ++ s ++ before, after, by simp only [List.append_assoc], ?_⟩
      simp only [Text.byteSize_append]
      omega

end Tiles

namespace Lexer

theorem Steps.tiles {lx last : Lexer} {ps : List Piece} (h : Steps lx ps last)
    (hr : last.rest = []) {start : Nat} {gap : Text} (hg : gap.Continued)
    (ho : lx.position.offset = start + gap.byteSize) :
    Tiles start (gap ++ lx.rest) (ps.filterMap Piece.item? ++ last.ending?.toList) := by
  induction h generalizing start gap with
  | nil lx =>
    rw [hr, List.append_nil, ending?]
    split
    · exact .atEnd hg
    · cases lx.frames with
      | nil => exact .atEnd hg
      | cons f fs => exact .unterminated hg f
  | @cons lx next last p ps hs _ ih =>
    have ih := @ih hr
    have hn := step_offset_eq hs
    rw [← step_text hs, ← List.append_assoc]
    rcases p with ⟨t, change⟩ | s | ⟨q, c⟩
    · have hp := congrArg Position.offset (step_token_position hs)
      refine .item hg ?_ (step_text_ne_nil hs) (ih .nil ?_)
      · rw [← ho, ← hp]
        rfl
      · rw [hn, ho]
        rfl
    · obtain ⟨b, hb, he, -⟩ := step_continuation hs
      have hc : Text.Continued (Piece.continuation s).text := by
        rw [Piece.text, he, ← List.append_nil b]
        exact .cons hb .nil
      refine ih (hg.append hc) ?_
      rw [hn, ho, Text.byteSize_append, Nat.add_assoc]
    · obtain ⟨-, rfl⟩ := step_illegal hs
      refine .item hg ?_ (step_text_ne_nil hs) (ih .nil ?_)
      · rw [← ho]
        rfl
      · rw [hn, ho]
        rfl

theorem Steps.length_le {lx last : Lexer} {ps : List Piece} (h : Steps lx ps last) :
    ps.length + last.rest.length ≤ lx.rest.length := by
  induction h with
  | nil lx => simp
  | cons hs _ ih =>
    have := step_lt hs
    rw [List.length_cons]
    omega

/-- The items of a text tile it. -/
theorem tiles_start (text : Text) (c : Char) : Tiles 0 text (start text c).yielded := by
  rw [yielded_eq]
  exact (start text c).steps_run.tiles (run_rest _) .nil rfl

theorem length_yielded_le (lx : Lexer) : lx.yielded.length ≤ lx.rest.length + 1 := by
  have h := lx.steps_run.length_le
  have hp := List.length_filterMap_le Piece.item? lx.run.1
  have he : lx.run.2.ending?.toList.length ≤ 1 := by cases lx.run.2.ending? <;> simp
  rw [yielded_eq, List.length_append]
  omega

theorem rest_of_unterminated {lx : Lexer} {f : Frame}
    (h : lx.yielded.getLast? = some (.error (.unterminated f))) :
    (lx.ahead lx.yielded.length).rest = [] := by
  obtain ⟨items, hi⟩ := List.getLast?_eq_some_iff.1 h
  have hn : (lx.ahead items.length).next.1 = some (.error (.unterminated f)) := by
    rw [ahead_next, hi, List.getElem?_concat_length]
  rw [hi, List.length_append, List.length_singleton, ahead_succ']
  obtain ⟨ps, p, item, hp, -, -, hq⟩ | ⟨ps, last, -, -, hr, hn'⟩ :=
    (lx.ahead items.length).next_cases
  · rw [hn] at hp
    cases hp
    cases p with
    | _ => cases hq
  · rw [hn']
    exact hr

end Lexer

/-- Call by call the lexer of a text yields items that tile the text, no more of them than the text
has characters and one, and it comes to the end of the text. -/
theorem lexer_tiles (text : Text) (c : Char) :
    let lx := Lexer.start text c
    (∀ n, (lx.ahead n).next.1 = lx.yielded[n]?) ∧ lx.yielded.length ≤ text.length + 1 ∧
      Tiles 0 text lx.yielded ∧
      (lx.yielded.filterMap Item.stretch?).Pairwise (fun r s => r.1 + r.2.byteSize ≤ s.1) ∧
      (∀ r ∈ lx.yielded.filterMap Item.stretch?, r.2 ≠ [] ∧ text.At r.1 r.2) ∧
      (∀ f, lx.yielded.getLast? = some (.error (.unterminated f)) →
        (lx.ahead lx.yielded.length).rest = []) ∧
      (lx.ahead (lx.yielded.length + 1)).rest = [] := by
  intro lx
  have ht : Tiles 0 text lx.yielded := Lexer.tiles_start text c
  refine ⟨lx.ahead_next, lx.length_yielded_le, ht, ht.pairwise, fun r hr => ?_,
    fun f => Lexer.rest_of_unterminated, lx.ahead_rest⟩
  obtain ⟨hne, before, after, he, hb⟩ := ht.stretches r hr
  exact ⟨hne, before, after, he, by omega⟩

end MakeTree
