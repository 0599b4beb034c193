import MakeTree.Proofs.Nest.Placement
import MakeTree.Proofs.Nest.Segment
import MakeTree.View.Assignment

/-!
Nests as they come of a text. Every bracket has its partner, inside of literals too, literals hold
no line break, and no token is empty (`soundAll_nests`).
-/

namespace MakeTree

/-- A token as a lexer makes it. -/
structure Token.Spelled (t : Token) : Prop where
  text : t.text ≠ []
  assignOp : t.kind = .assignOp → (AssignOp.ofText? t.text).isSome = true

namespace Shape

/-- An assignment operator is one of those there are. -/
def Spells (c : Char) (after : Text) : Shape → Prop
  | token kind more _ =>
    kind = .assignOp → (AssignOp.ofText? (c :: after.take more)).isSome = true
  | continuation _ => True
  | illegal => True

variable {c : Char} {t : Text}

theorem spells_other {kind : TokenKind} {more : Nat} {change : FrameChange}
    (h : kind ≠ .assignOp) : (token kind more change).Spells c t := fun hk => absurd hk h

theorem spells_assign (op : Text) {more : Nat} (he : c :: t.take more = op)
    (h : (AssignOp.ofText? op).isSome = true) : (assign more).Spells c t := fun _ => he ▸ h

theorem spells_colon : (colon t).Spells ':' t := by
  unfold colon
  split
  · exact spells_assign [':', ':', '='] rfl (by decide)
  · exact spells_assign [':', '='] rfl (by decide)
  · exact spells_other (by decide)

theorem spells_beforeEquals (h : c = '?' ∨ c = '+' ∨ c = '!') : (beforeEquals t).Spells c t := by
  unfold beforeEquals
  split
  · rcases h with rfl | rfl | rfl
    · exact spells_assign ['?', '='] rfl (by decide)
    · exact spells_assign ['+', '='] rfl (by decide)
    · exact spells_assign ['!', '='] rfl (by decide)
  · exact spells_other (by decide)

theorem spells_inLine (frames : List Frame) (b : Bool) : (inLine frames b c t).Spells c t := by
  unfold inLine
  split
  · rw [dollar_eq]
    repeat' split
    all_goals exact spells_other (by decide)
  · rw [backslash_eq]
    split <;> exact spells_other (by decide)
  · unfold closing
    split <;> exact spells_other (by decide)
  · unfold closing
    split <;> exact spells_other (by decide)
  · unfold opening
    split <;> exact spells_other (by decide)
  · exact spells_assign ['='] rfl (by decide)
  · exact spells_colon
  · exact spells_beforeEquals (.inl rfl)
  · exact spells_beforeEquals (.inr (.inl rfl))
  · exact spells_beforeEquals (.inr (.inr rfl))
  · exact spells_other (by decide)
  · exact spells_other (by decide)
  · simp only [quote]
    split <;> exact spells_other (by decide)
  · simp only [quote]
    split <;> exact spells_other (by decide)
  · split
    · exact spells_other (by decide)
    · split
      · unfold word
        split
        · exact spells_other (by decide)
        · split <;> exact spells_other (by simp)
      · split
        · trivial
        · exact spells_other (by decide)

end Shape

namespace Lexer

theorem step_spelled {lx next : Lexer} {t : Token} {change : FrameChange}
    (h : lx.step = some (.token t change, next)) : t.Spelled := by
  refine ⟨step_text_ne_nil h, fun hk => ?_⟩
  obtain ⟨c, after, -, ⟨kind, more, ch, hs, hp, -⟩ | ⟨_, -, hp, -⟩ | ⟨-, hp, -⟩⟩ := step_cases h
  · cases hp
    obtain ⟨_, -, he⟩ | ⟨_, -, -, he⟩ | ⟨-, -, he | he⟩ := lx.shape_cases c after
    · rw [he] at hs; cases hs; cases hk
    · rw [he] at hs; cases hs
    · rw [he] at hs; cases hs; cases hk
    · have := Shape.spells_inLine (c := c) (t := after) lx.frames lx.onlyBlanks
      rw [← he, hs] at this
      exact this hk
  · cases hp
  · cases hp

end Lexer

namespace Nest

mutual

/-- No line breaks in the nest, not even inside of a literal. -/
def Unbroken : Nest → Prop
  | leaf x => x.token.kind ≠ .lineBreak
  | quoted _ inside _ => UnbrokenAll inside
  | raw _ => True
  | expansion _ body _ => UnbrokenAll body

def UnbrokenAll : List Nest → Prop
  | [] => True
  | n :: ns => n.Unbroken ∧ UnbrokenAll ns

end

mutual

/-- A nest as it comes of a text. -/
def Sound : Nest → Prop
  | leaf x => x.token.Spelled ∧ x.token.kind ≠ .expansionPrefix ∧
      x.token.kind ≠ .expansionSuffix ∧ x.token.kind ≠ .stringLiteral
  | quoted x inside _ => x.token.Spelled ∧ x.token.kind = .stringLiteral ∧ SoundAll inside ∧
      UnbrokenAll inside
  | raw x => x.token.Spelled ∧ x.token.kind = .stringLiteral
  | expansion opener body closer =>
    opener.token.Spelled ∧ opener.token.kind = .expansionPrefix ∧ SoundAll body ∧
      closer.token.Spelled ∧ closer.token.kind = .expansionSuffix

def SoundAll : List Nest → Prop
  | [] => True
  | n :: ns => n.Sound ∧ SoundAll ns

end

theorem soundAll_iff {ns : List Nest} : SoundAll ns ↔ ∀ n ∈ ns, n.Sound := by
  induction ns with
  | nil => simp [SoundAll]
  | cons n ns ih => simp [SoundAll, ih]

theorem soundAll_of_subset {ms ns : List Nest} (h : SoundAll ns) (hs : ms ⊆ ns) : SoundAll ms :=
  soundAll_iff.2 fun n hn => soundAll_iff.1 h n (hs hn)

theorem Sound.spelled {n : Nest} (h : n.Sound) : n.token.Spelled := by
  cases n with
  | _ => exact h.1

/-- What a nest of one token has to be for those made of it to be sound. -/
def SoundPart : Nest → Prop
  | quoted x inside _ => x.token.Spelled ∧ SoundAll inside ∧ UnbrokenAll inside
  | n => n.token.Spelled ∧ (n = leaf n.first → n.kind ≠ .stringLiteral)

mutual

theorem sound_of_parts {n : Nest} (hc : n.Closed) (h : ∀ m ∈ n.flatten, SoundPart m) :
    n.Sound := by
  match n with
  | leaf x =>
    have hx := h _ List.mem_cons_self
    exact ⟨hx.1, hc.1, hc.2, hx.2 rfl⟩
  | quoted x inside trailing =>
    have hx := h _ List.mem_cons_self
    exact ⟨hx.1, hc, hx.2.1, hx.2.2⟩
  | raw x => exact ⟨(h _ List.mem_cons_self).1, hc⟩
  | expansion opener body closer =>
    refine ⟨(h (leaf opener) List.mem_cons_self).1, hc.1, ?_,
      (h (leaf closer) (by simp [flatten])).1, hc.2.2⟩
    exact soundAll_of_parts hc.2.1 fun m hm => h m (by simp [flatten, hm])

theorem soundAll_of_parts {ns : List Nest} (hc : ClosedAll ns)
    (h : ∀ m ∈ flattenAll ns, SoundPart m) : SoundAll ns := by
  match ns with
  | [] => trivial
  | n :: ns =>
    exact ⟨sound_of_parts hc.1 fun m hm => h m (List.mem_append_left _ hm),
      soundAll_of_parts hc.2 fun m hm => h m (List.mem_append_right _ hm)⟩

theorem unbroken_of_parts {n : Nest} (h : ∀ m ∈ n.flatten, m.Unbroken) : n.Unbroken := by
  match n with
  | leaf x => exact h _ List.mem_cons_self
  | quoted x inside trailing => exact h _ List.mem_cons_self
  | raw x => trivial
  | expansion opener body closer =>
    exact unbrokenAll_of_parts fun m hm => h m (by simp [flatten, hm])

theorem unbrokenAll_of_parts {ns : List Nest} (h : ∀ m ∈ flattenAll ns, m.Unbroken) :
    UnbrokenAll ns := by
  match ns with
  | [] => trivial
  | n :: ns =>
    exact ⟨unbroken_of_parts fun m hm => h m (List.mem_append_left _ hm),
      unbrokenAll_of_parts fun m hm => h m (List.mem_append_right _ hm)⟩

end

mutual

theorem Sound.unbroken {n : Nest} (h : n.Sound) (hl : ∀ m ∈ n.flatten, m.isLineBreak = false) :
    n.Unbroken := by
  match n with
  | leaf x =>
    intro hk
    simpa [isLineBreak, kind, token, first, hk] using hl _ List.mem_cons_self
  | quoted x inside trailing => exact h.2.2.2
  | raw x => trivial
  | expansion opener body closer =>
    exact unbrokenAll_of_soundAll h.2.2.1 fun m hm => hl m (by simp [flatten, hm])

theorem unbrokenAll_of_soundAll {ns : List Nest} (h : SoundAll ns)
    (hl : ∀ m ∈ flattenAll ns, m.isLineBreak = false) : UnbrokenAll ns := by
  match ns with
  | [] => trivial
  | n :: ns =>
    exact ⟨h.1.unbroken fun m hm => hl m (List.mem_append_left _ hm),
      unbrokenAll_of_soundAll h.2 fun m hm => hl m (List.mem_append_right _ hm)⟩

end

mutual

theorem Sound.closed {n : Nest} (h : n.Sound) : n.Closed := by
  match n with
  | leaf x => exact ⟨h.2.1, h.2.2.1⟩
  | quoted x inside trailing => exact h.2.1
  | raw x => exact h.2
  | expansion opener body closer => exact ⟨h.2.1, closedAll_of_soundAll h.2.2.1, h.2.2.2.2⟩

theorem closedAll_of_soundAll {ns : List Nest} (h : SoundAll ns) : ClosedAll ns := by
  match ns with
  | [] => trivial
  | n :: ns => exact ⟨h.1.closed, closedAll_of_soundAll h.2⟩

end

theorem soundAll_append {ms ns : List Nest} :
    SoundAll (ms ++ ns) ↔ SoundAll ms ∧ SoundAll ns := by
  simp only [soundAll_iff, List.forall_mem_append]

mutual

theorem Sound.not_isLineBreak {n : Nest} (h : n.Sound) (hu : n.Unbroken) :
    ∀ m ∈ n.flatten, m.isLineBreak = false := by
  intro m hm
  match n with
  | leaf x =>
    obtain rfl := List.mem_singleton.1 hm
    exact beq_eq_false_iff_ne.2 hu
  | quoted x inside trailing =>
    obtain rfl := List.mem_singleton.1 hm
    simp [isLineBreak, kind, token, first, h.2.1]
  | raw x =>
    obtain rfl := List.mem_singleton.1 hm
    simp [isLineBreak, kind, token, first, h.2]
  | expansion opener body closer =>
    rw [flatten, List.mem_cons, List.mem_append, List.mem_singleton] at hm
    rcases hm with rfl | hm | rfl
    · simp [isLineBreak, kind, token, first, h.2.1]
    · exact not_isLineBreak_of_unbroken h.2.2.1 hu m hm
    · simp [isLineBreak, kind, token, first, h.2.2.2.2]

theorem not_isLineBreak_of_unbroken {ns : List Nest} (h : SoundAll ns) (hu : UnbrokenAll ns) :
    ∀ m ∈ flattenAll ns, m.isLineBreak = false := by
  intro m hm
  match ns with
  | n :: ns =>
    rcases List.mem_append.1 hm with hm | hm
    · exact h.1.not_isLineBreak hu.1 m hm
    · exact not_isLineBreak_of_unbroken h.2 hu.2 m hm

end

end Nest

theorem Text.IsLineBreak.mem {b : Text} (h : b.IsLineBreak) : '\n' ∈ b ∨ '\r' ∈ b := by
  rcases h with rfl | rfl | rfl <;> simp

namespace Lexer

variable {lx : Lexer}

theorem step_of_lexeme {x : Lexeme} (h : x ∈ lx.lexemes.1) :
    ∃ (mid next : Lexer) (change : FrameChange),
      mid.step = some (.token x.token change, next) ∧ mid.rest <:+ lx.rest := by
  have ht : x.token ∈ lx.lexemes.1.map Lexeme.token := List.mem_map_of_mem h
  rw [lexemes, Piece.lexemes_token] at ht
  obtain ⟨p, hp, hx⟩ := List.mem_filterMap.1 ht
  obtain ⟨mid, next, hs, hr⟩ := lx.steps_run.step_of_mem hp
  cases p with
  | token t change =>
    cases hx
    exact ⟨mid, next, change, hs, hr⟩
  | continuation s => cases hx
  | illegal q c => cases hx

theorem lexeme_of_mem_flattenAll {m : Nest} (h : m ∈ Nest.flattenAll lx.nests.1) :
    ∃ x ∈ lx.lexemes.1, Nest.ofLexeme x = m := by
  have hn : lx.nests = (lx.nests.1, lx.nests.2) := rfl
  rw [(lexemes_of_nests hn).1] at h
  exact List.mem_map.1 h

theorem unbrokenAll_nests (hr : ∀ d ∈ lx.rest, d ≠ '\n' ∧ d ≠ '\r') :
    Nest.UnbrokenAll lx.nests.1 := by
  induction hn : lx.rest.length using Nat.strong_induction_on generalizing lx with
  | _ n ih =>
    refine Nest.unbrokenAll_of_parts fun m hm => ?_
    obtain ⟨x, hx, rfl⟩ := lexeme_of_mem_flattenAll hm
    obtain ⟨mid, next, change, hs, hsuf⟩ := step_of_lexeme hx
    have hsub : x.token.text ⊆ lx.rest := fun d hd => hsuf.subset (by
      rw [← step_text hs]
      exact List.mem_append_left _ hd)
    cases he : Nest.ofLexeme x with
    | leaf y =>
      obtain ⟨rfl, -⟩ := Nest.ofLexeme_eq_leaf he
      intro hk
      rcases (step_lineBreak hs hk).1.mem with hd | hd
      · exact (hr _ (hsub hd)).1 rfl
      · exact (hr _ (hsub hd)).2 rfl
    | quoted y inside trailing =>
      obtain ⟨rfl, -, -, hi⟩ := Nest.ofLexeme_eq_quoted he
      have hlt := Nat.lt_of_lt_of_le (inside_lt hs) hsuf.length_le
      have := ih _ (hn ▸ hlt) (fun (d : Char) hd => hr d (hsub (inside_subset hd))) rfl
      rwa [hi] at this
    | raw y => trivial
    | expansion opener body closer =>
      have := (Nest.isFlat_ofLexeme x).flatten
      simp [he, Nest.flatten] at this

/-- The nests of a text with no frame left open are sound. -/
theorem soundAll_nests (hu : lx.unclosed? = none) (he : lx.expansions = 0) :
    Nest.SoundAll lx.nests.1 := by
  induction hn : lx.rest.length using Nat.strong_induction_on generalizing lx with
  | _ n ih =>
    obtain ⟨-, -, -, -, -, hc⟩ := yields_nests hu he
    refine Nest.soundAll_of_parts hc fun m hm => ?_
    obtain ⟨x, hx, rfl⟩ := lexeme_of_mem_flattenAll hm
    obtain ⟨mid, next, change, hs, hsuf⟩ := step_of_lexeme hx
    cases hy : Nest.ofLexeme x with
    | leaf y =>
      obtain ⟨rfl, hk⟩ := Nest.ofLexeme_eq_leaf hy
      exact ⟨step_spelled hs, fun _ => hk⟩
    | quoted y inside trailing =>
      obtain ⟨rfl, hk, hu', hi⟩ := Nest.ofLexeme_eq_quoted hy
      have hlt := Nat.lt_of_lt_of_le (inside_lt hs) hsuf.length_le
      have hsound := ih _ (hn ▸ hlt) hu' rfl rfl
      have hline : ∀ d ∈ x.token.inside.rest, d ≠ '\n' ∧ d ≠ '\r' := fun d hd =>
        step_ne_break hs (by simp [hk]) d (inside_subset hd)
      have hunbroken := unbrokenAll_nests hline
      rw [hi] at hsound hunbroken
      exact ⟨step_spelled hs, hsound, hunbroken⟩
    | raw y =>
      obtain ⟨rfl, -⟩ := Nest.ofLexeme_eq_raw hy
      exact ⟨step_spelled hs, nofun⟩
    | expansion opener body closer =>
      have := (Nest.isFlat_ofLexeme x).flatten
      simp [hy, Nest.flatten] at this

theorem sound_inside {next : Lexer} {t : Token} {change : FrameChange}
    (h : lx.step = some (.token t change, next)) (hk : t.kind = .stringLiteral)
    (hu : t.inside.unclosed? = none) :
    Nest.SoundAll t.inside.nests.1 ∧ Nest.UnbrokenAll t.inside.nests.1 := by
  refine ⟨soundAll_nests hu rfl, unbrokenAll_nests fun d hd => ?_⟩
  exact step_ne_break h (by simp [hk]) d (inside_subset hd)

end Lexer

end MakeTree
