import MakeTree.Proofs.Nesting
import MakeTree.Proofs.Nest.Placement
import MakeTree.Proofs.Nest.Segment

/-!
Brackets of nests and frames of the lexer. Over nests whose brackets all have partners, the lexer
leaves the frames below as they are but for literal parentheses, so the closer of an expansion pops
the frame that its opener pushed (`pops_nests`).
-/

namespace MakeTree

namespace Nest

mutual

/-- The openers of the expansions in a nest, each with its closer. -/
def brackets : Nest → List (Lexeme × Lexeme)
  | leaf _ => []
  | quoted .. => []
  | raw _ => []
  | expansion opener body closer => (opener, closer) :: bracketsOf body

def bracketsOf : List Nest → List (Lexeme × Lexeme)
  | [] => []
  | n :: ns => n.brackets ++ bracketsOf ns

end

theorem bracketsOf_append (ms ns : List Nest) :
    bracketsOf (ms ++ ns) = bracketsOf ms ++ bracketsOf ns := by
  induction ms with
  | nil => rfl
  | cons m ms ih => simp [bracketsOf, ih]

mutual

theorem mem_brackets {n : Nest} (h : n.Closed) {m : Nest} (hm : m ∈ n.flatten)
    (hk : m.kind = .expansionPrefix) : ∃ b ∈ n.brackets, m = leaf b.1 := by
  match n with
  | leaf x =>
    obtain rfl := List.mem_singleton.1 hm
    exact absurd hk h.1
  | quoted x inside trailing =>
    obtain rfl := List.mem_singleton.1 hm
    exact absurd (hk.symm.trans h) (by decide)
  | raw x =>
    obtain rfl := List.mem_singleton.1 hm
    exact absurd (hk.symm.trans h) (by decide)
  | expansion opener body closer =>
    rcases List.mem_cons.1 hm with rfl | hm
    · exact ⟨_, List.mem_cons_self, rfl⟩
    · rcases List.mem_append.1 hm with hm | hm
      · obtain ⟨b, hb, he⟩ := mem_bracketsOf h.2.1 hm hk
        exact ⟨b, List.mem_cons_of_mem _ hb, he⟩
      · obtain rfl := List.mem_singleton.1 hm
        exact absurd (hk.symm.trans h.2.2) (by decide)

theorem mem_bracketsOf {ns : List Nest} (h : ClosedAll ns) {m : Nest} (hm : m ∈ flattenAll ns)
    (hk : m.kind = .expansionPrefix) : ∃ b ∈ bracketsOf ns, m = leaf b.1 := by
  match ns with
  | [] => cases hm
  | n :: ns =>
    rcases List.mem_append.1 hm with hm | hm
    · obtain ⟨b, hb, he⟩ := mem_brackets h.1 hm hk
      exact ⟨b, List.mem_append_left _ hb, he⟩
    · obtain ⟨b, hb, he⟩ := mem_bracketsOf h.2 hm hk
      exact ⟨b, List.mem_append_right _ hb, he⟩

end

mutual

theorem kinds_of_brackets {n : Nest} (h : n.Closed) {b : Lexeme × Lexeme} (hb : b ∈ n.brackets) :
    b.1.token.kind = .expansionPrefix ∧ b.2.token.kind = .expansionSuffix := by
  match n with
  | leaf x => cases hb
  | quoted x inside trailing => cases hb
  | raw x => cases hb
  | expansion opener body closer =>
    rcases List.mem_cons.1 hb with rfl | hb
    · exact ⟨h.1, h.2.2⟩
    · exact kinds_of_bracketsOf h.2.1 hb

theorem kinds_of_bracketsOf {ns : List Nest} (h : ClosedAll ns) {b : Lexeme × Lexeme}
    (hb : b ∈ bracketsOf ns) :
    b.1.token.kind = .expansionPrefix ∧ b.2.token.kind = .expansionSuffix := by
  match ns with
  | [] => cases hb
  | n :: ns => exact (List.mem_append.1 hb).elim (kinds_of_brackets h.1) (kinds_of_bracketsOf h.2)

end

end Nest

namespace Lexer

/-- What is open on top of `base` are literal parentheses. -/
def Above (base frames : List Frame) : Prop :=
  ∃ parens, frames = parens ++ base ∧ ∀ f ∈ parens, f.kind = .literalParen

/-- The innermost frame, if there is any, is that of an expansion. -/
def Based (base : List Frame) : Prop := ∀ f ∈ base.head?, f.kind = .expansion

/-- A step of the lexer, from `lx` on, takes `closer` and thereby closes the frame of `opener`. -/
def Pops (lx : Lexer) (opener closer : Token) : Prop :=
  ∃ ps mid change next, Steps lx ps mid ∧ mid.step = some (.token closer change, next) ∧
    mid.frames = ⟨.expansion, opener.position⟩ :: next.frames

variable {lx mid next last : Lexer} {base : List Frame}

theorem above_refl (base : List Frame) : Above base base := ⟨[], rfl, nofun⟩

theorem Pops.later {x y : Token} {ps : List Piece} (h : mid.Pops x y) (hs : Steps lx ps mid) :
    lx.Pops x y := by
  obtain ⟨qs, m, change, n, hq, hm, hf⟩ := h
  exact ⟨ps ++ qs, m, change, n, hs.append hq, hm, hf⟩

theorem step_above {t : Token} {change : FrameChange} (h : lx.step = some (.token t change, next))
    (hp : t.kind ≠ .expansionPrefix) (hs : t.kind ≠ .expansionSuffix) (hb : Based base)
    (ha : Above base lx.frames) : Above base next.frames := by
  obtain ⟨hf, hn⟩ := step_frames h
  obtain ⟨parens, he, hall⟩ := ha
  rw [hn]
  rcases change with _ | (_ | _) | (_ | _)
  · exact ⟨parens, he, hall⟩
  · exact absurd hf hp
  · refine ⟨⟨.literalParen, t.position⟩ :: parens, by rw [he]; rfl, fun f hm => ?_⟩
    rcases List.mem_cons.1 hm with rfl | hm
    · rfl
    · exact hall f hm
  · exact absurd hf.1 hs
  · cases parens with
    | nil =>
      obtain ⟨f, hm, hk⟩ := Option.map_eq_some_iff.1 hf.2
      rw [he, List.nil_append] at hm
      exact absurd (hk.symm.trans (hb f hm)) (by decide)
    | cons p parens =>
      exact ⟨parens, by rw [he]; rfl, fun f hm => hall f (List.mem_cons_of_mem p hm)⟩

theorem step_opens {t : Token} {change : FrameChange} (h : lx.step = some (.token t change, next))
    (hk : t.kind = .expansionPrefix) : next.frames = ⟨.expansion, t.position⟩ :: lx.frames := by
  have hr := step_replay h
  rw [Item.replay, if_pos hk] at hr
  exact (Option.some.inj hr).symm

theorem step_closes {t : Token} {change : FrameChange} (h : lx.step = some (.token t change, next))
    (hk : t.kind = .expansionSuffix) {f : Frame} (ha : Above (f :: base) lx.frames) :
    lx.frames = f :: base ∧ next.frames = base := by
  have hr := step_replay h
  rw [Item.replay, if_neg (by simp [hk]), if_pos hk] at hr
  obtain ⟨parens, he, hall⟩ := ha
  cases parens with
  | nil =>
    rw [he, List.nil_append, Frame.pop] at hr
    split at hr
    · exact ⟨he, (Option.some.inj hr).symm⟩
    · cases hr
  | cons p parens =>
    rw [he, List.cons_append, Frame.pop, hall p List.mem_cons_self] at hr
    cases hr

theorem Steps.passed {ps : List Piece} {leading trailing : List Trivia} (h : Steps lx ps last)
    (hx : Piece.lexemes leading ps = ([], trailing)) : last.frames = lx.frames := by
  induction h generalizing leading with
  | nil lx => rfl
  | @cons lx next last p ps hs _ ih =>
    cases p with
    | token t change => cases (Prod.mk.inj hx).1
    | continuation s => rw [ih hx, step_frames_of_not_token hs rfl]
    | illegal q c => rw [ih hx, step_frames_of_not_token hs rfl]

theorem Steps.lexeme {ps : List Piece} {leading : List Trivia} {x : Lexeme} (h : Steps lx ps last)
    (hx : Piece.lexemes leading ps = ([x], [])) : ∃ qs mid change, Steps lx qs mid ∧
      mid.frames = lx.frames ∧ mid.step = some (.token x.token change, last) := by
  have later {p : Piece} {lx next : Lexer} (hs : lx.step = some (p, next)) (hp : p.token? = none)
      (h : ∃ qs mid change, Steps next qs mid ∧ mid.frames = next.frames ∧
        mid.step = some (.token x.token change, last)) :
      ∃ qs mid change, Steps lx qs mid ∧ mid.frames = lx.frames ∧
        mid.step = some (.token x.token change, last) := by
    obtain ⟨qs, mid, change, hq, hf, hm⟩ := h
    exact ⟨p :: qs, mid, change, .cons hs hq, hf.trans (step_frames_of_not_token hs hp), hm⟩
  induction h generalizing leading with
  | nil lx => cases (Prod.mk.inj hx).1
  | @cons lx next last p ps hs h ih =>
    cases p with
    | token t change =>
      obtain ⟨hc, ht⟩ := Prod.mk.inj hx
      obtain ⟨rfl, hn⟩ := List.cons.inj hc
      obtain ⟨-, rfl⟩ := Piece.lexemes_eq_nil (Prod.ext hn ht)
      cases h
      exact ⟨[], lx, change, .nil lx, rfl, hs⟩
    | continuation s => exact later hs rfl (ih hx later)
    | illegal q c => exact later hs rfl (ih hx later)

/-- From `lx` on, the token is what `mid` takes, and so becomes `next`. -/
def Takes (lx : Lexer) (t : Token) (mid next : Lexer) : Prop :=
  ∃ ps change, Steps lx ps mid ∧ mid.step = some (.token t change, next)

theorem Takes.steps {t : Token} (h : lx.Takes t mid next) : ∃ ps, Steps lx ps next := by
  obtain ⟨ps, change, hps, hs⟩ := h
  exact ⟨_, hps.append (.cons hs (.nil next))⟩

theorem Takes.later {t : Token} {first : Lexer} {ps : List Piece} (h : first.Takes t mid next)
    (hs : Steps lx ps first) : lx.Takes t mid next := by
  obtain ⟨qs, change, hqs, ht⟩ := h
  exact ⟨_, change, hs.append hqs, ht⟩

theorem Covers.takes {n : Nest} {xs : List Lexeme} (h : lx.Covers xs [] last)
    (hx : xs.map Nest.ofLexeme = [n]) : ∃ mid, lx.Takes n.token mid last ∧ mid.frames = lx.frames := by
  obtain ⟨x, rfl, rfl⟩ := Nest.map_ofLexeme_eq_singleton hx.symm
  obtain ⟨ps, hps, hl⟩ := h
  obtain ⟨qs, mid, change, hqs, hf, hs⟩ := hps.lexeme hl
  rw [Nest.token, Nest.first_ofLexeme]
  exact ⟨mid, ⟨qs, change, hqs, hs⟩, hf⟩

theorem Covers.above {n : Nest} {xs : List Lexeme} (h : lx.Covers xs [] last)
    (hx : xs.map Nest.ofLexeme = [n]) (hp : n.kind ≠ .expansionPrefix)
    (hs : n.kind ≠ .expansionSuffix) (hb : Based base) (ha : Above base lx.frames) :
    Above base last.frames := by
  obtain ⟨mid, ⟨qs, change, -, hm⟩, hf⟩ := h.takes hx
  exact step_above hm hp hs hb (hf.symm ▸ ha)

theorem Covers.brackets {opener closer : Lexeme} {body : List Nest} {xs : List Lexeme}
    (h : lx.Covers xs [] last) (hk : opener.token.kind = .expansionPrefix)
    (hx : xs.map Nest.ofLexeme = (Nest.expansion opener body closer).flatten) :
    ∃ (ys : List Lexeme) (before first mid after : Lexer),
      ys.map Nest.ofLexeme = Nest.flattenAll body ∧
      lx.Takes opener.token before first ∧ before.frames = lx.frames ∧
      first.frames = ⟨.expansion, opener.token.position⟩ :: lx.frames ∧ first.Covers ys [] mid ∧
      mid.Takes closer.token after last ∧ after.frames = mid.frames := by
  obtain ⟨ys, rfl, hy⟩ := Nest.map_ofLexeme_eq_expansion hx
  obtain ⟨first, ⟨ps, hps, hl⟩, h⟩ := h.split
  obtain ⟨mid, hbody, ⟨rs, hrs, hl'⟩⟩ := h.split
  obtain ⟨qs, before, change, hqs, hf, hopen⟩ := hps.lexeme hl
  obtain ⟨qs', after, change', hqs', hf', hclose⟩ := hrs.lexeme hl'
  have hframes := step_opens hopen hk
  rw [hf] at hframes
  exact ⟨ys, before, first, mid, after, hy, ⟨qs, change, hqs, hopen⟩, hf, hframes, hbody,
    ⟨qs', change', hqs', hclose⟩, hf'⟩

mutual

/-- Over a nest, the closers of its expansions meet the frames of their openers. -/
theorem pops_nest {n : Nest} (hc : n.Closed) {lx last : Lexer} {xs : List Lexeme}
    (hx : xs.map Nest.ofLexeme = n.flatten) (h : lx.Covers xs [] last) {base : List Frame}
    (hb : Based base) (ha : Above base lx.frames) :
    Above base last.frames ∧ ∀ b ∈ n.brackets, lx.Pops b.1.token b.2.token := by
  match n with
  | .leaf x =>
    rw [Nest.flatten] at hx
    rw [Nest.brackets]
    exact ⟨h.above hx hc.1 hc.2 hb ha, fun _ hb => absurd hb List.not_mem_nil⟩
  | .quoted x inside trailing =>
    rw [Nest.flatten] at hx
    have hk : (Nest.quoted x inside trailing).kind = .stringLiteral := hc
    rw [Nest.brackets]
    refine ⟨h.above hx ?_ ?_ hb ha, fun _ hb => absurd hb List.not_mem_nil⟩ <;> simp [hk]
  | .raw x =>
    rw [Nest.flatten] at hx
    have hk : (Nest.raw x).kind = .stringLiteral := hc
    rw [Nest.brackets]
    refine ⟨h.above hx ?_ ?_ hb ha, fun _ hb => absurd hb List.not_mem_nil⟩ <;> simp [hk]
  | .expansion opener body closer =>
    obtain ⟨ys, _, m₁, m₂, n₃, hy, hopen, -, hm₁, hbody, ⟨qs, change, hq, hclose⟩, hf₃⟩ :=
      h.brackets hc.1 hx
    obtain ⟨ps₁, hp₁⟩ := hopen.steps
    have ha₁ : Above (⟨.expansion, opener.token.position⟩ :: lx.frames) m₁.frames :=
      hm₁ ▸ above_refl m₁.frames
    obtain ⟨ha₂, hpops⟩ := pops_nests hc.2.1 hy hbody
      (fun f hf => by rw [← Option.some.inj hf]) ha₁
    obtain ⟨htop, hlast⟩ := step_closes hclose hc.2.2 (hf₃.symm ▸ ha₂)
    obtain ⟨ps₂, hp₂, -⟩ := hbody
    refine ⟨hlast.symm ▸ ha, fun b hb => ?_⟩
    rcases List.mem_cons.1 hb with rfl | hb
    · exact ⟨_, n₃, change, last, (hp₁.append hp₂).append hq, hclose, by rw [htop, hlast]⟩
    · exact (hpops b hb).later hp₁

theorem pops_nests {ns : List Nest} (hc : Nest.ClosedAll ns) {lx last : Lexer} {xs : List Lexeme}
    {trailing : List Trivia} (hx : xs.map Nest.ofLexeme = Nest.flattenAll ns)
    (h : lx.Covers xs trailing last) {base : List Frame}
    (hb : Based base) (ha : Above base lx.frames) :
    Above base last.frames ∧ ∀ b ∈ Nest.bracketsOf ns, lx.Pops b.1.token b.2.token := by
  match ns with
  | [] =>
    obtain rfl := List.map_eq_nil_iff.1 hx
    obtain ⟨ps, hs, hl⟩ := h
    exact ⟨(hs.passed hl).symm ▸ ha, fun _ hb => absurd hb List.not_mem_nil⟩
  | n :: ns =>
    obtain ⟨ys, zs, rfl, hy, hz⟩ := List.map_eq_append_iff.1 hx
    obtain ⟨mid, hcov, h⟩ := h.split
    obtain ⟨ha₁, hm₁⟩ := pops_nest hc.1 hy hcov hb ha
    obtain ⟨ha₂, hm₂⟩ := pops_nests hc.2 hz h hb ha₁
    obtain ⟨ps, hs, -⟩ := hcov
    refine ⟨ha₂, fun b hb => ?_⟩
    exact (List.mem_append.1 hb).elim (hm₁ b) fun hb => (hm₂ b hb).later hs

end

section Unique

/-- Each frame was opened later than those below it, and all before the lexer's position. -/
structure Ordered (lx : Lexer) : Prop where
  frames : lx.frames.Pairwise fun f g => g.position.offset < f.position.offset
  passed : ∀ f ∈ lx.frames, f.position.offset < lx.position.offset

theorem mem_frames_step {p : Piece} (h : lx.step = some (p, next)) {f : Frame}
    (hf : f ∈ next.frames) : f ∈ lx.frames ∨ f.position = lx.position := by
  cases p with
  | token t change =>
    obtain ⟨-, hn⟩ := step_frames h
    rw [hn] at hf
    rcases change with _ | k | k
    · exact .inl hf
    · rcases List.mem_cons.1 hf with rfl | hf
      · exact .inr (step_token_position h)
      · exact .inl hf
    · exact .inl (List.mem_of_mem_tail hf)
  | continuation s => exact .inl (step_frames_of_not_token h rfl ▸ hf)
  | illegal q c => exact .inl (step_frames_of_not_token h rfl ▸ hf)

theorem Ordered.step {p : Piece} (h : lx.Ordered) (hs : lx.step = some (p, next)) :
    next.Ordered := by
  constructor
  · cases p with
    | token t change =>
      obtain ⟨-, hn⟩ := step_frames hs
      rw [hn]
      rcases change with _ | k | k
      · exact h.frames
      · refine List.pairwise_cons.2 ⟨fun g hg => ?_, h.frames⟩
        rw [step_token_position hs]
        exact h.passed g hg
      · exact h.frames.sublist (List.tail_sublist _)
    | continuation s => exact (step_frames_of_not_token hs rfl).symm ▸ h.frames
    | illegal q c => exact (step_frames_of_not_token hs rfl).symm ▸ h.frames
  · intro f hf
    have hlt := step_offset hs
    rcases mem_frames_step hs hf with hf | hf
    · exact (h.passed f hf).trans hlt
    · rwa [hf]

theorem Ordered.steps {ps : List Piece} (h : lx.Ordered) (hs : Steps lx ps mid) : mid.Ordered := by
  induction hs with
  | nil => exact h
  | cons hs _ ih => exact ih (h.step hs)

/-- A frame that was popped does not come back. -/
def Gone (f : Frame) (lx : Lexer) : Prop := f ∉ lx.frames ∧ f.position.offset < lx.position.offset

theorem Gone.steps {f : Frame} {ps : List Piece} (h : lx.Gone f) (hs : Steps lx ps mid) :
    mid.Gone f := by
  induction hs with
  | nil => exact h
  | cons hs _ ih =>
    refine ih ⟨fun hf => ?_, h.2.trans (step_offset hs)⟩
    rcases mem_frames_step hs hf with hf | hf
    · exact h.1 hf
    · exact absurd h.2 (by rw [hf]; exact Nat.lt_irrefl _)

theorem Ordered.gone {p : Piece} (h : lx.Ordered) (hs : lx.step = some (p, next)) {f : Frame}
    (hf : lx.frames = f :: next.frames) : next.Gone f := by
  have hp := h.frames
  rw [hf] at hp
  refine ⟨fun hm => Nat.lt_irrefl _ ((List.pairwise_cons.1 hp).1 f hm), ?_⟩
  exact (h.passed f (hf ▸ List.mem_cons_self)).trans (step_offset hs)

theorem Steps.compare {ps ps' : List Piece} {mid' : Lexer} (h : Steps lx ps mid)
    (h' : Steps lx ps' mid') : (∃ qs, Steps mid qs mid') ∨ ∃ qs, Steps mid' qs mid := by
  induction h generalizing ps' with
  | nil => exact .inl ⟨ps', h'⟩
  | cons hs h ih =>
    cases h' with
    | nil => exact .inr ⟨_, .cons hs h⟩
    | cons hs' h' =>
      rw [hs] at hs'
      cases hs'
      exact ih h'

/-- There is but one token that closes the frame of an expansion. -/
theorem Ordered.pops_unique (h : lx.Ordered) {x y y' : Token} (hy : lx.Pops x y)
    (hy' : lx.Pops x y') : y = y' := by
  have later {y y' : Token} {mid mid' next next' : Lexer} {qs : List Piece} {ch ch' : FrameChange}
      {f : Frame} (ho : mid.Ordered) (hq : Steps mid qs mid')
      (hs : mid.step = some (.token y ch, next)) (hs' : mid'.step = some (.token y' ch', next'))
      (hf : mid.frames = f :: next.frames) (hf' : mid'.frames = f :: next'.frames) : y = y' := by
    cases hq with
    | nil =>
      rw [hs] at hs'
      cases hs'
      rfl
    | cons hn hq =>
      rw [hs] at hn
      cases hn
      exact absurd (hf' ▸ List.mem_cons_self) ((ho.gone hs hf).steps hq).1
  obtain ⟨ps, mid, ch, next, hp, hs, hf⟩ := hy
  obtain ⟨ps', mid', ch', next', hp', hs', hf'⟩ := hy'
  obtain ⟨qs, hq⟩ | ⟨qs, hq⟩ := hp.compare hp'
  · exact later (h.steps hp) hq hs hs' hf hf'
  · exact (later (h.steps hp') hq hs' hs hf' hf).symm

end Unique

section Start

variable {text : Text} {c : Char}

theorem ordered_start (text : Text) (c : Char) : (start text c).Ordered := ⟨.nil, nofun⟩

/-- The lexemes of a text that open an expansion, each with the one token that closes its frame. -/
theorem pops_start (h : (start text c).unclosed? = none) {x : Lexeme}
    (hx : x ∈ (start text c).lexemes.1) (hk : x.token.kind = .expansionPrefix) :
    ∃ y, (x, y) ∈ Nest.bracketsOf (start text c).nests.1 ∧ y.token.kind = .expansionSuffix ∧
      ∀ s, (start text c).Pops x.token s ↔ s = y.token := by
  obtain ⟨ps, xs, hs, hl, hn, hc⟩ := yields_nests h rfl
  have hbase : Above [] (start text c).frames := above_refl []
  obtain ⟨-, hpops⟩ := pops_nests hc hn ⟨ps, hs, hl⟩ (fun _ hf => by cases hf) hbase
  have hmem : Nest.ofLexeme x ∈ Nest.flattenAll (start text c).nests.1 := by
    have hn : (start text c).nests = ((start text c).nests.1, (start text c).nests.2) := rfl
    have hf := (lexemes_of_nests hn).1
    rw [hf]
    exact List.mem_map_of_mem hx
  have hkind : (Nest.ofLexeme x).kind = .expansionPrefix := by
    rw [Nest.kind, Nest.token, Nest.first_ofLexeme, hk]
  obtain ⟨⟨x', y⟩, hb, he⟩ := Nest.mem_bracketsOf hc hmem hkind
  obtain ⟨rfl, -⟩ := Nest.ofLexeme_eq_leaf he
  refine ⟨y, hb, (Nest.kinds_of_bracketsOf hc hb).2, fun s => ⟨fun hp => ?_, ?_⟩⟩
  · exact (ordered_start text c).pops_unique hp (hpops _ hb)
  · rintro rfl
    exact hpops _ hb

end Start

end Lexer

end MakeTree
