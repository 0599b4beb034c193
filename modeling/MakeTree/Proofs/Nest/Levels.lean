import MakeTree.Proofs.Nest.Brackets

/-!
How deep a token stands in an expansion. Along the body of an expansion the lexer has as many
parentheses open as are counted on its tokens (`Deep.nests`), so the frame of the expansion is
innermost at a token just if none are counted there and no other expansion holds it
(`Covers.counted`).
-/

namespace MakeTree

theorem Mark.depth_ofToken (t : Token) (d : Nat) : (ofToken t).depth d =
    if t.kind = .plainText ∧ t.text = ['('] then d + 1
    else if t.kind = .plainText ∧ (t.text = [')'] ∨ t.text = ['}']) then d - 1
    else d := by
  unfold ofToken Token.isText
  grind [Mark.depth]

theorem Mark.ofToken_whitespace {t : Token} : ofToken t = .blank ↔ t.kind = .whitespace := by
  unfold ofToken
  grind

theorem Mark.ofToken_comma {t : Token} : ofToken t = .comma ↔ t.kind = .comma := by
  unfold ofToken
  grind

namespace Nest

/-- What is counted in front of each of the nests tells whether their first tokens satisfy `P`; the
tokens within them do not. -/
def Counted (P : Token → Prop) : Nat → List Nest → Prop
  | _, [] => True
  | depth, n :: ns => (P n.token ↔ depth = 0) ∧ (∀ m ∈ n.flatten.tail, ¬ P m.token) ∧
      Counted P ((Mark.ofToken n.token).depth depth) ns

theorem flatten_eq_cons (n : Nest) : ∃ m, n.token = m.token ∧ n.flatten = m :: n.flatten.tail := by
  cases n with
  | expansion opener body closer => exact ⟨leaf opener, rfl, rfl⟩
  | leaf x => exact ⟨_, rfl, rfl⟩
  | quoted x inside trailing => exact ⟨_, rfl, rfl⟩
  | raw x => exact ⟨_, rfl, rfl⟩

end Nest

namespace Lexer

variable {lx mid next last : Lexer} {own : Frame} {base : List Frame} {depth : Nat}

/-- When the lexer takes the token, the frame that `x` opened is innermost. -/
def Inmost (lx : Lexer) (x t : Token) : Prop :=
  ∃ mid next, lx.Takes t mid next ∧ mid.frames.head? = some ⟨.expansion, x.position⟩

theorem Takes.unique {t : Token} {mid' next' : Lexer} (h : lx.Takes t mid next)
    (h' : lx.Takes t mid' next') : mid = mid' := by
  have later {m m' n n' : Lexer} {qs : List Piece} {ch ch' : FrameChange}
      (hm : m.step = some (.token t ch, n)) (hm' : m'.step = some (.token t ch', n'))
      (hq : Steps m qs m') : m = m' := by
    have hoffset := congrArg Position.offset ((step_token_position hm).symm.trans
      (step_token_position hm'))
    cases hq with
    | nil => rfl
    | cons hs hq =>
      have hlt := step_offset hs
      have hle := hq.offset
      omega
  obtain ⟨ps, ch, hps, hs⟩ := h
  obtain ⟨ps', ch', hps', hs'⟩ := h'
  rcases hps.compare hps' with ⟨qs, hq⟩ | ⟨qs, hq⟩
  · exact later hs hs' hq
  · exact (later hs' hs hq).symm

theorem Ordered.head?_ne (h : lx.Ordered) {frames : List Frame}
    (hf : lx.frames = frames ++ own :: base) (hne : frames ≠ []) : lx.frames.head? ≠ some own := by
  intro ho
  obtain ⟨f, fs, rfl⟩ := List.exists_cons_of_ne_nil hne
  have hp := h.frames
  rw [hf, List.cons_append] at hp ho
  obtain rfl : f = own := Option.some.inj ho
  have hlt := (List.pairwise_cons.1 hp).1 f (by simp)
  exact Nat.lt_irrefl _ hlt

theorem Takes.inmost_iff {x t : Token} (h : lx.Takes t mid next) :
    lx.Inmost x t ↔ mid.frames.head? = some ⟨.expansion, x.position⟩ := by
  constructor
  · intro hi
    obtain ⟨mid', next', h', hf⟩ := hi
    rwa [h.unique h']
  · exact fun hf => ⟨mid, next, h, hf⟩

/-- Parentheses are open within the frame `own`, on top of the others, as many as are counted. -/
def Deep (own : Frame) (base : List Frame) (depth : Nat) (frames : List Frame) : Prop :=
  ∃ parens : List Frame, frames = parens ++ own :: base ∧ parens.length = depth ∧
    ∀ f ∈ parens, f.kind = .literalParen

namespace Deep

theorem refl (own : Frame) (base : List Frame) : Deep own base 0 (own :: base) :=
  ⟨[], rfl, rfl, fun _ hf => absurd hf List.not_mem_nil⟩

theorem head?_iff {frames : List Frame} (h : Deep own base depth frames)
    (ho : own.kind = .expansion) : frames.head? = some own ↔ depth = 0 := by
  obtain ⟨parens, rfl, rfl, hall⟩ := h
  cases parens with
  | nil => simp
  | cons f parens =>
    have hk := hall f List.mem_cons_self
    have hne : f ≠ own := by
      rintro rfl
      rw [ho] at hk
      cases hk
    simpa using hne

theorem above (h : Deep own base depth lx.frames) : Above (own :: base) lx.frames := by
  obtain ⟨parens, he, -, hall⟩ := h
  exact ⟨parens, he, hall⟩

/-- A parenthesis is counted just if the lexer opens or closes a frame for it. -/
theorem step (h : Deep own base depth lx.frames) (ho : own.kind = .expansion) {t : Token}
    {change : FrameChange} (hs : lx.step = some (.token t change, next))
    (hp : t.kind ≠ .expansionPrefix) (hc : t.kind ≠ .expansionSuffix) :
    Deep own base ((Mark.ofToken t).depth depth) next.frames := by
  obtain ⟨parens, he, hlen, hall⟩ := h
  have hr := step_replay hs
  have hne : lx.frames ≠ [] := by simp [he]
  rw [Item.replay, if_neg hp, if_neg hc] at hr
  rw [Mark.depth_ofToken]
  by_cases hk : t.kind = .plainText
  · rw [if_pos ⟨hk, hne⟩] at hr
    by_cases hopen : t.text = ['(']
    · rw [if_pos hopen] at hr
      rw [if_pos ⟨hk, hopen⟩, ← Option.some.inj hr, he]
      refine ⟨⟨.literalParen, t.position⟩ :: parens, rfl, by simp [hlen], fun f hf => ?_⟩
      rcases List.mem_cons.1 hf with rfl | hf
      · rfl
      · exact hall f hf
    · rw [if_neg hopen] at hr
      rw [if_neg fun h => hopen h.2]
      by_cases hclose : t.text = [')'] ∨ t.text = ['}']
      · rw [if_pos hclose, he] at hr
        rw [if_pos ⟨hk, hclose⟩]
        cases parens with
        | nil =>
          -- what closes the expansion itself is no text
          rw [List.nil_append, Frame.pop, if_neg (by rw [ho]; decide)] at hr
          cases hr
        | cons f parens =>
          rw [List.cons_append, Frame.pop, if_pos (hall f List.mem_cons_self)] at hr
          rw [← Option.some.inj hr, ← hlen]
          exact ⟨parens, rfl, rfl, fun g hg => hall g (List.mem_cons_of_mem f hg)⟩
      · rw [if_neg hclose] at hr
        rw [if_neg fun h => hclose h.2, ← Option.some.inj hr]
        exact ⟨parens, he, hlen, hall⟩
  · rw [if_neg fun h => hk h.1] at hr
    rw [if_neg fun h => hk h.1, if_neg fun h => hk h.1, ← Option.some.inj hr]
    exact ⟨parens, he, hlen, hall⟩

end Deep

theorem Covers.expansion {opener closer : Lexeme} {body : List Nest} {xs : List Lexeme}
    (h : lx.Covers xs [] last) (hc : (Nest.expansion opener body closer).Closed)
    (hx : xs.map Nest.ofLexeme = (Nest.expansion opener body closer).flatten) :
    ∃ (ys : List Lexeme) (first mid after : Lexer) (ps : List Piece),
      ys.map Nest.ofLexeme = Nest.flattenAll body ∧ Steps lx ps first ∧
      first.frames = ⟨.expansion, opener.token.position⟩ :: lx.frames ∧ first.Covers ys [] mid ∧
      mid.Takes closer.token after last ∧
      after.frames = ⟨.expansion, opener.token.position⟩ :: lx.frames ∧
      last.frames = lx.frames := by
  obtain ⟨ys, before, first, mid, after, hy, hopen, -, hf, hbody, hclose, hm⟩ := h.brackets hc.1 hx
  have ha : Above (⟨.expansion, opener.token.position⟩ :: lx.frames) first.frames :=
    hf ▸ above_refl first.frames
  obtain ⟨ha, -⟩ := pops_nests hc.2.1 hy hbody (fun f hf => by rw [← Option.some.inj hf]) ha
  obtain ⟨ps, hps⟩ := hopen.steps
  obtain ⟨qs, change, hqs, hs⟩ := hclose
  obtain ⟨hafter, hlast⟩ := step_closes hs hc.2.2 (hm.symm ▸ ha)
  exact ⟨ys, first, mid, after, ps, hy, hps, hf, hbody, ⟨qs, change, hqs, hs⟩, hafter, hlast⟩

theorem Deep.nest {n : Nest} (hc : n.Closed) {xs : List Lexeme}
    (hx : xs.map Nest.ofLexeme = n.flatten) (h : lx.Covers xs [] last)
    (ho : own.kind = .expansion) (hd : Deep own base depth lx.frames) :
    Deep own base ((Mark.ofToken n.token).depth depth) last.frames := by
  have single (hp : n.kind ≠ .expansionPrefix) (hs : n.kind ≠ .expansionSuffix)
      (hf : n.flatten = [n]) : Deep own base ((Mark.ofToken n.token).depth depth) last.frames := by
    obtain ⟨mid, ⟨ps, change, -, hm⟩, hframes⟩ := h.takes (hx.trans hf)
    exact (hframes.symm ▸ hd : Deep own base depth mid.frames).step ho hm hp hs
  cases n with
  | leaf x => exact single hc.1 hc.2 rfl
  | quoted x inside trailing =>
    have hk : (Nest.quoted x inside trailing).kind = .stringLiteral := hc
    exact single (by simp [hk]) (by simp [hk]) rfl
  | raw x =>
    have hk : (Nest.raw x).kind = .stringLiteral := hc
    exact single (by simp [hk]) (by simp [hk]) rfl
  | expansion opener body closer =>
    have hk : (Nest.expansion opener body closer).token.kind = .expansionPrefix := hc.1
    obtain ⟨-, -, -, -, -, -, -, -, -, -, -, hframes⟩ := h.expansion hc hx
    rw [hframes, Mark.depth_ofToken]
    simpa [hk] using hd

theorem Covers.takes_first {n : Nest} (hc : n.Closed) {xs : List Lexeme}
    (hx : xs.map Nest.ofLexeme = n.flatten) (h : lx.Covers xs [] last) :
    ∃ mid next, lx.Takes n.token mid next ∧ mid.frames = lx.frames := by
  have single (hf : n.flatten = [n]) :
      ∃ mid next, lx.Takes n.token mid next ∧ mid.frames = lx.frames := by
    obtain ⟨mid, ht, hm⟩ := h.takes (hx.trans hf)
    exact ⟨mid, last, ht, hm⟩
  cases n with
  | leaf x => exact single rfl
  | quoted x inside trailing => exact single rfl
  | raw x => exact single rfl
  | expansion opener body closer =>
    obtain ⟨ys, before, first, mid, after, hy, ht, hf, -⟩ := h.brackets hc.1 hx
    exact ⟨before, first, ht, hf⟩

mutual

theorem takes_nest {n : Nest} (hc : n.Closed) {lx last : Lexer} {xs : List Lexeme}
    (hx : xs.map Nest.ofLexeme = n.flatten) (h : lx.Covers xs [] last) {m : Nest}
    (hm : m ∈ n.flatten.tail) :
    ∃ mid next f, lx.Takes m.token mid next ∧ f :: lx.frames <:+ mid.frames := by
  match n with
  | .leaf x => cases hm
  | .quoted x inside trailing => cases hm
  | .raw x => cases hm
  | .expansion opener body closer =>
    obtain ⟨ys, first, mid, after, ps, hy, hps, hf, hbody, hclose, hafter, -⟩ := h.expansion hc hx
    have hb : Based (⟨.expansion, opener.token.position⟩ :: lx.frames) :=
      fun f hf => by rw [← Option.some.inj hf]
    rcases List.mem_append.1 hm with hm | hm
    · obtain ⟨m', next, ht, hs⟩ := takes_nests hc.2.1 hy hbody hb (hf ▸ above_refl first.frames) hm
      exact ⟨m', next, _, ht.later hps, hs⟩
    · obtain rfl := List.mem_singleton.1 hm
      obtain ⟨qs, hqs, -⟩ := hbody
      exact ⟨after, last, _, (hclose.later hqs).later hps, [], hafter.symm⟩

theorem takes_nests {ns : List Nest} (hc : Nest.ClosedAll ns) {lx last : Lexer} {xs : List Lexeme}
    {trailing : List Trivia} (hx : xs.map Nest.ofLexeme = Nest.flattenAll ns)
    (h : lx.Covers xs trailing last) {base : List Frame} (hb : Based base)
    (ha : Above base lx.frames) {m : Nest} (hm : m ∈ Nest.flattenAll ns) :
    ∃ mid next, lx.Takes m.token mid next ∧ base <:+ mid.frames := by
  match ns with
  | [] => cases hm
  | n :: ns =>
    obtain ⟨ys, zs, rfl, hy, hz⟩ := List.map_eq_append_iff.1 hx
    obtain ⟨mid, hcov, h⟩ := h.split
    rcases List.mem_append.1 hm with hm | hm
    · obtain ⟨parens, he, -⟩ := ha
      obtain ⟨m', ht, hn⟩ := n.flatten_eq_cons
      rw [hn] at hm
      rcases List.mem_cons.1 hm with rfl | hm
      · obtain ⟨m', next, htake, hf⟩ := hcov.takes_first hc.1 hy
        exact ⟨m', next, ht ▸ htake, parens, (hf.trans he).symm⟩
      · obtain ⟨m', next, f, htake, hs⟩ := takes_nest hc.1 hy hcov hm
        exact ⟨m', next, htake, List.IsSuffix.trans ⟨f :: parens, by rw [he]; rfl⟩ hs⟩
    · obtain ⟨m', next, ht, hs⟩ :=
        takes_nests hc.2 hz h hb (pops_nest hc.1 hy hcov hb ha).1 hm
      obtain ⟨ps, hps, -⟩ := hcov
      exact ⟨m', next, ht.later hps, hs⟩

end

theorem Covers.counted {x : Token} (ho : lx.Ordered) {ns : List Nest} (hc : Nest.ClosedAll ns)
    {first : Lexer} {ps : List Piece} (hps : Steps lx ps first) {xs : List Lexeme}
    {trailing : List Trivia} (hx : xs.map Nest.ofLexeme = Nest.flattenAll ns)
    (h : first.Covers xs trailing last)
    (hd : Deep ⟨.expansion, x.position⟩ base depth first.frames) :
    Nest.Counted (lx.Inmost x) depth ns := by
  induction ns generalizing first ps xs depth with
  | nil => trivial
  | cons n ns ih =>
    obtain ⟨ys, zs, rfl, hy, hz⟩ := List.map_eq_append_iff.1 hx
    obtain ⟨mid, hcov, h⟩ := h.split
    refine ⟨?_, fun m hm hi => ?_, ?_⟩
    · obtain ⟨m, next, ht, hf⟩ := hcov.takes_first hc.1 hy
      rw [(ht.later hps).inmost_iff, hf]
      exact hd.head?_iff rfl
    · -- a frame is above that of `x`
      obtain ⟨m', next, f, ht, pre, hf⟩ := takes_nest hc.1 hy hcov hm
      obtain ⟨qs, change, hqs, hs⟩ := ht.later hps
      obtain ⟨parens, he, -⟩ := hd
      rw [Takes.inmost_iff ⟨qs, change, hqs, hs⟩] at hi
      have hframes : m'.frames = (pre ++ f :: parens) ++ ⟨.expansion, x.position⟩ :: base := by
        rw [← hf, he]
        simp
      exact (ho.steps hqs).head?_ne hframes (by simp) hi
    · obtain ⟨qs, hqs, hl⟩ := hcov
      exact ih hc.2 (hps.append hqs) hz h (hd.nest hc.1 hy ⟨qs, hqs, hl⟩ rfl)

theorem Covers.takes_of_mem {xs : List Lexeme} {trailing : List Trivia}
    (h : lx.Covers xs trailing last) {x : Lexeme} (hx : x ∈ xs) :
    ∃ mid next, lx.Takes x.token mid next := by
  obtain ⟨ys, zs, rfl⟩ := List.append_of_mem hx
  obtain ⟨first, ⟨ps, hps, -⟩, h⟩ := h.split
  rw [← List.singleton_append] at h
  obtain ⟨next, hcov, -⟩ := h.split
  obtain ⟨mid, ht, -⟩ := hcov.takes (n := Nest.ofLexeme x) rfl
  rw [Nest.token, Nest.first_ofLexeme] at ht
  exact ⟨mid, next, ht.later hps⟩

/-- Of the tokens of a text, those within an expansion are counted, its closer is inmost, and none
behind the closer is. -/
theorem Covers.inmost (ho : lx.Ordered) {opener closer : Lexeme} {body : List Nest}
    (hc : (Nest.expansion opener body closer).Closed) {first mid : Lexer} {ps : List Piece}
    (hps : Steps lx ps first) {xs after : List Lexeme} {trailing : List Trivia}
    (hx : xs.map Nest.ofLexeme = (Nest.expansion opener body closer).flatten)
    (h : first.Covers xs [] mid) (h' : mid.Covers after trailing last) :
    Nest.Counted (lx.Inmost opener.token) 0 body ∧ lx.Inmost opener.token closer.token ∧
      ∀ t ∈ after.map Lexeme.token, ¬ lx.Inmost opener.token t := by
  obtain ⟨ys, low, high, at', qs, hy, hqs, hf, hbody, ⟨rs, change, hrs, hs⟩, hat, hmid⟩ :=
    h.expansion hc hx
  have hlow := hps.append hqs
  obtain ⟨ss, hss, hl⟩ := hbody
  have hreach := (hlow.append hss).append hrs
  have hcounted := Covers.counted ho hc.2.1 hlow hy ⟨ss, hss, hl⟩ (hf ▸ Deep.refl _ _)
  refine ⟨hcounted, ?_, fun t ht hi => ?_⟩
  · exact ⟨at', mid, ⟨_, change, hreach, hs⟩, by rw [hat]; rfl⟩
  · obtain ⟨x, hx, rfl⟩ := List.mem_map.1 ht
    obtain ⟨m, next, us, ch, hus, hm⟩ := h'.takes_of_mem hx
    have hgone : mid.Gone ⟨.expansion, opener.token.position⟩ :=
      (ho.steps hreach).gone hs (by rw [hat, hmid])
    have htake : lx.Takes x.token m next :=
      ⟨_, ch, (hreach.append (.cons hs (.nil mid))).append hus, hm⟩
    exact (hgone.steps hus).1 (List.mem_of_mem_head? (htake.inmost_iff.1 hi))

end Lexer

end MakeTree
