import MakeTree.Proofs.Lexer.History
import MakeTree.Proofs.Tiling

/-!
Where recipe prefixes are read: the character is the first on its line but for continuations, and
it begins neither a line break nor a continuation (`lexer_recipePrefixes`). Nothing else counts, be
it an open frame or a skipped character.
-/

namespace MakeTree

namespace Text

def BeginsLineBreak (t : Text) : Prop := ∃ b rest, IsLineBreak b ∧ t = b ++ rest

def BeginsContinuation (t : Text) : Prop := ∃ b rest, IsLineBreak b ∧ t = '\\' :: (b ++ rest)

theorem lineBreak?_eq_none {t : Text} : lineBreak? t = none ↔ ¬ t.BeginsLineBreak := by
  rw [← Option.not_isSome_iff_eq_none, lineBreak?_isSome, not_iff_not]
  constructor
  · intro h
    obtain ⟨c, rest, rfl⟩ : ∃ c rest, t = c :: rest := by
      cases t with
      | nil => simp at h
      | cons c rest => exact ⟨c, rest, rfl⟩
    rcases h with h | h
    · exact ⟨['\r'], rest, .inr (.inl rfl), by rw [Option.some.inj h]; rfl⟩
    · exact ⟨['\n'], rest, .inl rfl, by rw [Option.some.inj h]; rfl⟩
  · rintro ⟨b, rest, rfl | rfl | rfl, rfl⟩
    · exact .inr rfl
    · exact .inl rfl
    · exact .inl rfl

theorem continuation?_eq_none {t : Text} : continuation? t = none ↔ ¬ t.BeginsContinuation := by
  cases t with
  | nil =>
    refine iff_of_true rfl ?_
    rintro ⟨b, rest, -, h⟩
    cases h
  | cons c t =>
    rw [continuation?_eq]
    split
    · next hc =>
      obtain rfl : c = '\\' := Option.some.inj hc
      rw [Option.map_eq_none_iff, List.tail_cons, lineBreak?_eq_none, not_iff_not]
      constructor
      · rintro ⟨b, rest, hb, rfl⟩
        exact ⟨b, rest, hb, rfl⟩
      · rintro ⟨b, rest, hb, h⟩
        exact ⟨b, rest, hb, (List.cons.inj h).2⟩
    · next hc =>
      refine iff_of_true rfl ?_
      rintro ⟨b, rest, -, h⟩
      exact hc (congrArg some (List.cons.inj h).1)

end Text

namespace Lexer

variable {lx mid next last : Lexer} {ps : List Piece} {text : Text} {c : Char}

theorem shape_recipePrefix {after : Text} (hb : Text.lineBreak? (c :: after) = none)
    (hc : Text.continuation? (c :: after) = none) (hp : c = lx.recipePrefix)
    (hl : lx.atLineStart = true) : lx.shape c after = .token .recipePrefix 0 .keep := by
  unfold shape
  rw [hb, hc]
  exact if_pos ⟨hp, hl⟩

theorem step_recipePrefix_rest {t : Token} {change : FrameChange}
    (h : lx.step = some (.token t change, next)) (hk : t.kind = .recipePrefix) :
    lx.rest = lx.recipePrefix :: next.rest ∧ t.text = [lx.recipePrefix] ∧
      ¬ lx.rest.BeginsLineBreak ∧ ¬ lx.rest.BeginsContinuation := by
  have hp : (Piece.token t change).isRecipePrefix = true := by simpa [Piece.isRecipePrefix] using hk
  obtain ⟨ht, -⟩ := step_isRecipePrefix h hp
  have htext : t.text = [lx.recipePrefix] := by
    cases ht
    rfl
  have hrest : lx.rest = lx.recipePrefix :: next.rest := by
    rw [← step_text h, Piece.text, htext]
    rfl
  refine ⟨hrest, htext, ?_⟩
  rw [← Text.lineBreak?_eq_none, ← Text.continuation?_eq_none]
  obtain ⟨d, after, hr, ⟨kind, more, ch, hs, hpiece, -⟩ | ⟨_, -, hpiece, -⟩ | ⟨-, hpiece, -⟩⟩ :=
    step_cases h
  · cases hpiece
    rw [hr]
    obtain ⟨_, -, he⟩ | ⟨_, -, -, he⟩ | ⟨hb, hc, -⟩ := lx.shape_cases d after
    · rw [he] at hs; cases hs; cases hk
    · rw [he] at hs; cases hs
    · exact ⟨hb, hc⟩
  · cases hpiece
  · cases hpiece

theorem step_of_continuation {b x : Text} (hb : b.IsLineBreak) (hx : x.head? ≠ some '\n')
    (hr : lx.rest = '\\' :: (b ++ x)) :
    ∃ next, lx.step = some (.continuation ('\\' :: b), next) ∧ next.rest = x := by
  have hlen : b.length - 1 + 1 = b.length := by
    rcases hb with rfl | rfl | rfl <;> rfl
  have hshape : lx.shape '\\' (b ++ x) = .continuation b.length := by
    unfold shape
    rw [Text.lineBreak?_eq, Text.continuation?_eq, List.tail_cons, hb.lineBreak? hx]
    simp [hlen]
  refine ⟨{ lx with rest := x, position := lx.position.past ('\\' :: b) }, ?_, rfl⟩
  unfold step
  rw [hr]
  simp [hshape]

theorem steps_of_continued {gap x : Text} (hg : gap.Continued) (hx : x.head? ≠ some '\n')
    (hr : lx.rest = gap ++ x) : ∃ ps last, Steps lx ps last ∧ last.rest = x ∧
      last.position.offset = lx.position.offset + gap.byteSize ∧
      last.atLineStart = lx.atLineStart := by
  induction hg generalizing lx with
  | nil => exact ⟨[], lx, .nil lx, hr, rfl, rfl⟩
  | @cons b rest hb hg ih =>
    have hhead : (rest ++ x).head? ≠ some '\n' := by
      cases hg with
      | nil => exact hx
      | cons => simp
    rw [List.cons_append, List.append_assoc] at hr
    obtain ⟨next, hs, hn⟩ := step_of_continuation hb hhead hr
    obtain ⟨ps, last, hps, hrest, hoffset, hl⟩ := ih hn
    refine ⟨_, last, .cons hs hps, hrest, ?_, hl.trans (step_fresh hs)⟩
    rw [hoffset, step_offset_eq hs, ← List.cons_append, Text.byteSize_append, Nat.add_assoc]
    rfl

theorem Steps.text_continued (h : Steps lx ps last) (hp : ∀ p ∈ ps, p.item? = none) :
    Text.Continued (ps.flatMap Piece.text) := by
  induction h with
  | nil => exact .nil
  | @cons lx next last p ps hs _ ih =>
    have ih := ih fun q hq => hp q (List.mem_cons_of_mem p hq)
    have hitem := hp p List.mem_cons_self
    cases p with
    | token t change => cases hitem
    | continuation s =>
      obtain ⟨b, hb, rfl, -⟩ := step_continuation hs
      exact .cons hb ih
    | illegal q d => cases hitem

theorem Steps.split_line (h : Steps (start text c) ps mid) (hl : mid.atLineStart = true) :
    ∃ qs gs, ps = qs ++ gs ∧ (∀ q ∈ qs.getLast?, q.isLineBreak = true) ∧
      ∀ g ∈ gs, g.item? = none := by
  have hline := ((onLine_start text c).steps h).atLineStart
  rw [hl, List.nil_append, eq_comm, List.isEmpty_iff, Item.sinceBreak_eq_nil] at hline
  have hgs (g : Piece) (hg : g ∈ ps.rtakeWhile (·.item?.isNone)) : g.item? = none := by
    simpa using List.mem_rtakeWhile_imp hg
  refine ⟨ps.rdropWhile (·.item?.isNone), _, (List.rdropWhile_append_rtakeWhile).symm, ?_, hgs⟩
  intro q hq
  obtain ⟨hne, rfl⟩ := List.mem_getLast?_eq_getLast hq
  have hitem := List.rdropWhile_last_not (·.item?.isNone) ps hne
  have hps := List.rdropWhile_append_rtakeWhile (p := (·.item?.isNone)) (l := ps)
  generalize ps.rdropWhile (·.item?.isNone) = qs at *
  generalize ps.rtakeWhile (·.item?.isNone) = gs at *
  obtain ⟨item, hi⟩ := Option.ne_none_iff_exists'.1 (mt Option.isNone_iff_eq_none.2 hitem)
  have hlast : (ps.filterMap Piece.item?).getLast? = some item := by
    rw [← hps, List.filterMap_append, List.filterMap_eq_nil_iff.2 hgs, List.append_nil,
      ← List.dropLast_append_getLast hne, List.filterMap_append, List.filterMap_cons_some hi]
    exact List.getLast?_concat
  have hbreak := hline item hlast
  cases hq' : qs.getLast hne with
  | token t change =>
    rw [hq'] at hi
    cases hi
    exact hbreak
  | continuation s =>
    rw [hq'] at hi
    cases hi
  | illegal p d =>
    rw [hq'] at hi
    cases hi
    cases hbreak

end Lexer

/-- The line of the offset starts at `start`, which is where the last line break token before the
offset ends, or the start of the text. -/
structure Item.LineStart (items : List Item) (offset start : Nat) : Prop where
  isEnd : start = 0 ∨ ∃ b : Token, .ok b ∈ items ∧ b.kind = .lineBreak ∧ b.stop = start
  le : start ≤ offset
  last : ∀ b : Token, .ok b ∈ items → b.kind = .lineBreak → b.stop ≤ offset → b.stop ≤ start

/-- The character `c` at the offset stands in front of its line, of the text that has these items,
with continuations in front of it only, and is not the start of a line break or continuation. -/
def Item.Leads (text : Text) (items : List Item) (c : Char) (offset : Nat) : Prop :=
  ∃ before gap after, text = before ++ gap ++ c :: after ∧
    Item.LineStart items offset before.byteSize ∧ Text.byteSize (before ++ gap) = offset ∧
    gap.Continued ∧ ¬ Text.BeginsLineBreak (c :: after) ∧ ¬ Text.BeginsContinuation (c :: after)

namespace Lexer

variable {text before : Text} {c : Char} {t : Token} {offset : Nat}

theorem lineStart_of_steps {qs gs : List Piece} (hfirst : Steps (start text c) qs last)
    (hq : ∀ q ∈ qs.getLast?, q.isLineBreak = true) (hgs : Steps last gs mid)
    (hg : ∀ g ∈ gs, g.item? = none) :
    Item.LineStart (start text c).yielded mid.position.offset last.position.offset := by
  constructor
  · cases hl : qs.getLast? with
    | none =>
      rw [List.getLast?_eq_none_iff.1 hl] at hfirst
      cases hfirst
      exact .inl rfl
    | some q =>
      have hbreak := hq q hl
      cases q with
      | token b change =>
        obtain ⟨us, rfl⟩ := List.getLast?_eq_some_iff.1 hl
        obtain ⟨first, hus, hs⟩ := hfirst.concat
        refine .inr ⟨b, hus.mem_yielded hs, by simpa [Piece.isLineBreak] using hbreak, ?_⟩
        exact hfirst.last_stop hl
      | continuation s => cases hbreak
      | illegal p d => cases hbreak
  · rw [hgs.offset]
    exact Nat.le_add_right _ _
  · intro b hb _ hle
    obtain ⟨change, hb⟩ := ok_mem_yielded.1 hb
    rw [(hfirst.append hgs).run] at hb
    rcases List.mem_append.1 hb with hb | hb
    · rcases List.mem_append.1 hb with hb | hb
      · exact hfirst.stop_le hb
      · cases hg _ hb
    · have := mid.lt_stop hb
      omega

theorem leads_of_mem (h : .ok t ∈ (start text c).yielded) (hk : t.kind = .recipePrefix) :
    Item.Leads text (start text c).yielded c t.position.offset := by
  obtain ⟨ps, mid, change, next, hps, hs⟩ := exists_step h
  have hp : (Piece.token t change).isRecipePrefix = true := by simpa [Piece.isRecipePrefix] using hk
  obtain ⟨hrest, -, hb, hc⟩ := step_recipePrefix_rest hs hk
  rw [show mid.recipePrefix = c from hps.recipePrefix] at hrest
  rw [hrest] at hb hc
  obtain ⟨qs, gs, rfl, hq, hg⟩ := hps.split_line (step_isRecipePrefix hs hp).2.2.1
  obtain ⟨first, hfirst, hgs⟩ := hps.split
  have hstart : first.position.offset = Text.byteSize (qs.flatMap Piece.text) := by
    rw [hfirst.offset]
    exact Nat.zero_add _
  have hoffset : mid.position.offset = Text.byteSize ((qs ++ gs).flatMap Piece.text) := by
    rw [hps.offset]
    exact Nat.zero_add _
  refine ⟨qs.flatMap Piece.text, gs.flatMap Piece.text, next.rest, ?_, ?_, ?_, hgs.text_continued hg,
    hb, hc⟩
  · rw [← List.flatMap_append, ← hrest, hps.text]
    rfl
  · rw [step_token_position hs, ← hstart]
    exact lineStart_of_steps hfirst hq hgs hg
  · rw [step_token_position hs, hoffset, List.flatMap_append]

theorem exists_line {x : Text} (h : before.byteSize = 0 ∨ ∃ b : Token,
      .ok b ∈ (start (before ++ x) c).yielded ∧ b.kind = .lineBreak ∧ b.stop = before.byteSize) :
    ∃ ps first, Steps (start (before ++ x) c) ps first ∧ first.rest = x ∧
      first.position.offset = before.byteSize ∧ first.atLineStart = true := by
  rcases h with h | ⟨b, hb, hk, hstop⟩
  · obtain rfl : before = [] := by
      by_contra hne
      have := Text.byteSize_pos hne
      omega
    exact ⟨[], _, .nil _, rfl, rfl, rfl⟩
  · obtain ⟨ps, mid, change, next, hps, hs⟩ := exists_step hb
    have hsteps := hps.append (.cons hs (.nil next))
    have hoffset : next.position.offset = before.byteSize := by
      rw [← hstop, hsteps.last_stop List.getLast?_concat]
    refine ⟨_, next, hsteps, ?_, hoffset, (step_atLineStart hs hk).1⟩
    refine (Text.append_inj hsteps.text ?_).2
    rw [← hoffset, hsteps.offset]
    exact (Nat.zero_add _).symm

theorem mem_of_leads (h : Item.Leads text (start text c).yielded c offset) :
    ∃ t : Token, .ok t ∈ (start text c).yielded ∧ t.kind = .recipePrefix ∧
      t.position.offset = offset := by
  obtain ⟨before, gap, after, rfl, hstart, rfl, hg, hb, hc⟩ := h
  rw [List.append_assoc] at hstart ⊢
  obtain ⟨ps, first, hps, hrest, hoffset, hl⟩ := exists_line hstart.isEnd
  have hfeed : (c :: after).head? ≠ some '\n' := by
    intro he
    obtain rfl : c = '\n' := Option.some.inj he
    exact hb ⟨['\n'], after, .inl rfl, rfl⟩
  obtain ⟨gs, mid, hgs, hmid, hoff, hml⟩ := steps_of_continued hg hfeed hrest
  have hshape : mid.shape c after = .token .recipePrefix 0 .keep := by
    refine shape_recipePrefix (Text.lineBreak?_eq_none.2 hb) (Text.continuation?_eq_none.2 hc) ?_
      (hml.trans hl)
    exact (hps.append hgs).recipePrefix.symm
  have hstep : mid.step = some (.token ⟨.recipePrefix, [c], mid.position⟩ .keep,
      mid.afterToken ⟨.recipePrefix, [c], mid.position⟩ .keep after) := by
    unfold step
    rw [hmid]
    simp [hshape]
  refine ⟨_, (hps.append hgs).mem_yielded hstep, rfl, ?_⟩
  rw [hoff, hoffset, Text.byteSize_append]

/-- Behind a recipe prefix there is a line break before the next one. -/
theorem exists_lineBreak_between {us vs ws : List Item} {u : Token}
    (h : (start text c).yielded = us ++ .ok t :: vs ++ .ok u :: ws) (ht : t.kind = .recipePrefix)
    (hu : u.kind = .recipePrefix) : ∃ v : Token, .ok v ∈ vs ∧ v.kind = .lineBreak := by
  have hi : (start text c).yielded[(us ++ .ok t :: vs).length]? = some (.ok u) := by
    rw [h]
    simp
  obtain ⟨ps, mid, change, next, hps, hs, hitems, -⟩ := step_of_yielded hi
  have hp : (Piece.token u change).isRecipePrefix = true := by simpa [Piece.isRecipePrefix] using hu
  have hline := ((onLine_start text c).steps hps).atLineStart
  rw [(step_isRecipePrefix hs hp).2.2.1, List.nil_append, hitems, h, List.take_left, eq_comm,
    List.isEmpty_iff, Item.sinceBreak_eq_nil] at hline
  cases hv : vs.getLast? with
  | none =>
    obtain rfl := List.getLast?_eq_none_iff.1 hv
    have hbreak := hline (.ok t) (by simp)
    rw [Item.isLineBreak, ht] at hbreak
    cases hbreak
  | some item =>
    have hbreak := hline item (by simp [hv, List.getLast?_append, List.getLast?_cons])
    cases item with
    | error e => cases hbreak
    | ok v =>
      exact ⟨v, List.mem_of_getLast? hv, by simpa [Item.isLineBreak] using hbreak⟩

end Lexer

/-- Call by call the lexer of a text yields the items, and a recipe prefix among them is just where
the character leads its line: no other token, no illegal character and no open frame makes one or
stands in the way of one. There is at most one to a line. -/
theorem lexer_recipePrefixes (text : Text) (c : Char) :
    let lx := Lexer.start text c
    (∀ n, (lx.ahead n).next.1 = lx.yielded[n]?) ∧
      (∀ offset, (∃ t : Token, .ok t ∈ lx.yielded ∧ t.kind = .recipePrefix ∧
        t.position.offset = offset) ↔ Item.Leads text lx.yielded c offset) ∧
      (∀ t : Token, .ok t ∈ lx.yielded → t.kind = .recipePrefix → t.text = [c]) ∧
      ∀ us t vs u ws, lx.yielded = us ++ .ok t :: vs ++ .ok u :: ws → t.kind = .recipePrefix →
        u.kind = .recipePrefix → ∃ v : Token, .ok v ∈ vs ∧ v.kind = .lineBreak := by
  intro lx
  refine ⟨lx.ahead_next, fun offset => ⟨?_, Lexer.mem_of_leads⟩, ?_, ?_⟩
  · rintro ⟨t, ht, hk, rfl⟩
    exact Lexer.leads_of_mem ht hk
  · intro t ht hk
    obtain ⟨ps, mid, change, next, hps, hs⟩ := Lexer.exists_step ht
    have hc : mid.recipePrefix = c := hps.recipePrefix
    rw [(Lexer.step_recipePrefix_rest hs hk).2.1, hc]
  · intro us t vs u ws h ht hu
    exact Lexer.exists_lineBreak_between h ht hu

end MakeTree
