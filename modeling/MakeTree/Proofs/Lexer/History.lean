import MakeTree.Proofs.Lexer.Prefix
import MakeTree.Proofs.Nesting
import Mathlib.Data.List.DropRight

/-!
What the lexer knows of its line. Whether a line starts, and whether there were only blanks on it,
are facts about the items since the last line break (`Steps.line`): continuations are no items, and
illegal characters are.
-/

namespace MakeTree

namespace Item

def isLineBreak : Item → Bool
  | .ok t => t.kind == .lineBreak
  | .error _ => false

/-- Whether the item is blanks or a recipe prefix. -/
def isLeading : Item → Bool
  | .ok t => t.kind.isLeading
  | .error _ => false

/-- The items after the last line break. -/
def sinceBreak (items : List Item) : List Item :=
  items.rtakeWhile fun item => !item.isLineBreak

theorem sinceBreak_concat (items : List Item) (item : Item) :
    sinceBreak (items ++ [item]) =
      if item.isLineBreak then [] else sinceBreak items ++ [item] := by
  rw [sinceBreak, List.rtakeWhile_concat]
  cases item.isLineBreak <;> rfl

theorem sinceBreak_eq_nil {items : List Item} :
    sinceBreak items = [] ↔ ∀ item ∈ items.getLast?, item.isLineBreak = true := by
  rw [sinceBreak, List.rtakeWhile_eq_nil_iff]
  constructor
  · intro h item hi
    obtain ⟨hne, rfl⟩ := List.mem_getLast?_eq_getLast hi
    simpa using h hne
  · intro h hne
    simpa using h _ (List.getLast?_eq_some_getLast hne)

end Item

namespace Lexer

variable {lx next last : Lexer} {p : Piece} {ps : List Piece}

theorem Steps.concat (h : Steps lx (ps ++ [p]) last) :
    ∃ mid, Steps lx ps mid ∧ mid.step = some (p, last) := by
  obtain ⟨mid, hmid, hp⟩ := h.split
  cases hp with
  | cons hs hn =>
    cases hn
    exact ⟨mid, hmid, hs⟩

theorem ok_mem_yielded {t : Token} :
    .ok t ∈ lx.yielded ↔ ∃ change, .token t change ∈ lx.run.1 := by
  constructor
  · intro h
    rw [yielded_eq] at h
    rcases List.mem_append.1 h with h | h
    · obtain ⟨p, hp, hi⟩ := List.mem_filterMap.1 h
      cases p with
      | token u change =>
        cases hi
        exact ⟨change, hp⟩
      | continuation s => cases hi
      | illegal q d => cases hi
    · rw [ending?] at h
      split at h
      · cases h
      · obtain ⟨f, -, hf⟩ := Option.map_eq_some_iff.1 (Option.mem_toList.1 h)
        cases hf
  · rintro ⟨change, h⟩
    exact mem_yielded_of_run h rfl

theorem exists_step {t : Token} (h : .ok t ∈ lx.yielded) :
    ∃ ps mid change next, Steps lx ps mid ∧ mid.step = some (.token t change, next) := by
  obtain ⟨change, h⟩ := ok_mem_yielded.1 h
  obtain ⟨ps, qs, hrun⟩ := List.append_of_mem h
  obtain ⟨mid, hmid, hq⟩ := (hrun ▸ lx.steps_run).split
  cases hq with
  | cons hs _ => exact ⟨ps, mid, change, _, hmid, hs⟩

theorem Steps.mem_yielded {t : Token} {change : FrameChange} (h : Steps lx ps last)
    (hs : last.step = some (.token t change, next)) : .ok t ∈ lx.yielded := by
  refine ok_mem_yielded.2 ⟨change, ?_⟩
  rw [(h.append (.cons hs (.nil next))).run]
  simp

theorem Steps.stop_le {t : Token} {change : FrameChange} (h : Steps lx ps last)
    (ht : .token t change ∈ ps) : t.stop ≤ last.position.offset := by
  obtain ⟨us, vs, rfl⟩ := List.append_of_mem ht
  rw [List.append_cons] at h
  obtain ⟨mid, hmid, hv⟩ := h.split
  rw [hmid.last_stop List.getLast?_concat, hv.offset]
  exact Nat.le_add_right _ _

theorem lt_stop {t : Token} {change : FrameChange} (lx : Lexer)
    (ht : .token t change ∈ lx.run.1) : lx.position.offset < t.stop := by
  obtain ⟨us, vs, hrun⟩ := List.append_of_mem ht
  obtain ⟨mid, hmid, hv⟩ := (hrun ▸ lx.steps_run).split
  cases hv with
  | cons hs _ =>
    have hsize := Text.byteSize_pos (step_text_ne_nil hs)
    have hoffset := hmid.offset
    rw [Piece.text] at hsize
    rw [Token.stop, step_token_position hs]
    omega

theorem step_onlyBlanks (h : lx.step = some (p, next)) : next.onlyBlanks =
    match p with
    | .token t _ => t.kind == .lineBreak || (lx.onlyBlanks && t.kind.isLeading)
    | .continuation _ => lx.onlyBlanks
    | .illegal _ _ => false := by
  obtain ⟨c, after, -, ⟨_, _, _, -, rfl, rfl⟩ | ⟨_, -, rfl, rfl⟩ | ⟨-, rfl, rfl⟩⟩ :=
    step_cases h <;> rfl

/-- What the lexer knows of its line, after some items of a text. -/
structure OnLine (lx : Lexer) (items : List Item) : Prop where
  atLineStart : lx.atLineStart = (Item.sinceBreak items).isEmpty
  onlyBlanks : lx.onlyBlanks = (Item.sinceBreak items).all Item.isLeading

namespace OnLine

variable {items : List Item}

theorem step (h : lx.OnLine items) (hs : lx.step = some (p, next)) :
    next.OnLine (items ++ p.item?.toList) := by
  have hfresh := step_fresh hs
  have hblanks := step_onlyBlanks hs
  cases p with
  | token t change =>
    have hitems : Item.sinceBreak (items ++ (Piece.token t change).item?.toList) =
        if t.kind == .lineBreak then [] else Item.sinceBreak items ++ [.ok t] :=
      Item.sinceBreak_concat items (.ok t)
    constructor
    · rw [hitems, hfresh]
      show (t.kind == .lineBreak) = _
      cases t.kind == .lineBreak <;> simp
    · rw [hitems, hblanks, h.onlyBlanks]
      show (t.kind == .lineBreak || _) = _
      cases t.kind == .lineBreak with
      | true => rfl
      | false => rw [Bool.false_or, if_neg Bool.false_ne_true, List.all_append]; simp [Item.isLeading]
  | continuation s =>
    have hitems : items ++ (Piece.continuation s).item?.toList = items := List.append_nil _
    rw [hitems]
    exact ⟨hfresh.trans h.atLineStart, hblanks.trans h.onlyBlanks⟩
  | illegal q c =>
    have hitems : Item.sinceBreak (items ++ (Piece.illegal q c).item?.toList) =
        Item.sinceBreak items ++ [.error (.illegalCharacter q c)] :=
      Item.sinceBreak_concat items (.error (.illegalCharacter q c))
    constructor
    · rw [hitems, hfresh]
      simp [Piece.isLineBreak]
    · rw [hitems, hblanks]
      simp [Item.isLeading]

theorem steps (h : lx.OnLine items) (hs : Steps lx ps last) :
    last.OnLine (items ++ ps.filterMap Piece.item?) := by
  induction hs generalizing items with
  | nil lx => rwa [List.filterMap_nil, List.append_nil]
  | @cons lx next last p ps hs _ ih =>
    have hitems : (p :: ps).filterMap Piece.item? =
        p.item?.toList ++ ps.filterMap Piece.item? := by
      rw [List.filterMap_cons]
      cases p.item? <;> rfl
    rw [hitems, ← List.append_assoc]
    exact ih (h.step hs)

end OnLine

theorem onLine_start (text : Text) (c : Char) : (start text c).OnLine [] := ⟨rfl, rfl⟩

/-- Where the call stands that yields the token: behind the pieces of the items before it, with the
frames that were open before the call. -/
theorem step_of_yielded {i : Nat} {t : Token} (h : lx.yielded[i]? = some (.ok t)) :
    ∃ ps mid change next, Steps lx ps mid ∧ mid.step = some (.token t change, next) ∧
      ps.filterMap Piece.item? = lx.yielded.take i ∧ mid.frames = (lx.ahead i).frames ∧
      next.frames = (lx.ahead (i + 1)).frames := by
  induction i generalizing lx with
  | zero =>
    rw [← ahead_next] at h
    obtain ⟨ps, p, item, hn, hs, hp, hi⟩ | ⟨ps, last, -, -, -, hn⟩ := lx.next_cases
    · obtain rfl := Option.some.inj (hn.symm.trans h)
      obtain ⟨mid, hmid, hstep⟩ := hs.concat
      have hframes := hmid.replay
      rw [hp] at hframes
      cases p with
      | token u change =>
        cases hi
        refine ⟨ps, mid, change, lx.next.2, hmid, hstep, hp, ?_, rfl⟩
        exact (Option.some.inj hframes).symm
      | continuation s => cases hi
      | illegal q c => cases hi
    · have he : lx.next.1 = last.ending? := congrArg Prod.fst hn
      have h : lx.next.1 = some (.ok t) := h
      rw [he, ending?] at h
      split at h
      · cases h
      · obtain ⟨f, -, hf⟩ := Option.map_eq_some_iff.1 h
        cases hf
  | succ i ih =>
    obtain ⟨ps, p, item, hn, hs, hp, hi⟩ | ⟨ps, last, -, -, hr, hn⟩ := lx.next_cases
    · have hy := yielded_of_some hn
      rw [hy, List.getElem?_cons_succ] at h
      obtain ⟨qs, mid, change, next, hq, hstep, hitems, hf, hf'⟩ := ih h
      refine ⟨(ps ++ [p]) ++ qs, mid, change, next, hs.append hq, hstep, ?_, ?_, ?_⟩
      · rw [hy, List.take_succ_cons, ← hitems, List.filterMap_append, List.filterMap_append, hp]
        simp [hi]
      · rw [hf, ahead_succ lx]
      · rw [hf', ahead_succ lx]
    · cases hnext : lx.next.1 with
      | none =>
        rw [yielded_of_none hnext] at h
        cases h
      | some item =>
        have hfinished : lx.next.2.items = [] := by
          rw [hn]
          have hlast : { last with finished := true }.items = [] := items_of_finished rfl hr
          exact hlast
        rw [yielded_of_some hnext, List.getElem?_cons_succ, yielded, hfinished] at h
        cases h

end Lexer

end MakeTree
