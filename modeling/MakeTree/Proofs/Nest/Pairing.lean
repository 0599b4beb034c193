import MakeTree.Proofs.Nest.Flat

/-!
Brackets. Gathering loses no nest (`flattenAll_gather`) and finds the nests of which a flat run is
made (`gather_append`). Where the lexer has closed all expansions, no bracket is left without a
partner (`pair_steps`), so a cut between nests is a place with no open frame.
-/

namespace MakeTree

namespace Nest

theorem head_flattenAll (ns : List Nest) :
    (flattenAll ns).head?.map kind = ns.head?.map kind := by
  cases ns with
  | nil => rfl
  | cons n ns =>
    cases n with
    | _ => rfl

theorem mem_flattenAll {m : Nest} {ns : List Nest} (h : m ∈ flattenAll ns) :
    ∃ n ∈ ns, m ∈ n.flatten := by
  induction ns with
  | nil => cases h
  | cons n ns ih =>
    rcases List.mem_append.1 (show m ∈ n.flatten ++ flattenAll ns from h) with h | h
    · exact ⟨n, List.mem_cons_self, h⟩
    · obtain ⟨n', hn, h⟩ := ih h
      exact ⟨n', List.mem_cons_of_mem n hn, h⟩

/-- A nest of one token. -/
def IsFlat (n : Nest) : Prop := n = leaf n.first ∨ n.kind = .stringLiteral ∧ n.flatten = [n]

theorem isFlat_ofLexeme (x : Lexeme) : (ofLexeme x).IsFlat := by
  unfold ofLexeme
  split
  · next hk =>
    split
    · exact .inr ⟨hk, rfl⟩
    · exact .inr ⟨hk, rfl⟩
  · exact .inl rfl

theorem IsFlat.flatten {n : Nest} (h : n.IsFlat) : n.flatten = [n] := by
  rcases h with h | h
  · rw [h]
    rfl
  · exact h.2

theorem IsFlat.eq_leaf {n : Nest} (h : n.IsFlat) (hk : n.kind ≠ .stringLiteral) :
    n = leaf n.first :=
  h.resolve_right fun h => hk h.1

mutual

/-- Every bracket in the nest has its partner. -/
def Closed : Nest → Prop
  | leaf x => x.token.kind ≠ .expansionPrefix ∧ x.token.kind ≠ .expansionSuffix
  | quoted x _ _ => x.token.kind = .stringLiteral
  | raw x => x.token.kind = .stringLiteral
  | expansion opener body closer =>
    opener.token.kind = .expansionPrefix ∧ ClosedAll body ∧ closer.token.kind = .expansionSuffix

def ClosedAll : List Nest → Prop
  | [] => True
  | n :: ns => n.Closed ∧ ClosedAll ns

end

theorem closedAll_append {ms ns : List Nest} :
    ClosedAll (ms ++ ns) ↔ ClosedAll ms ∧ ClosedAll ns := by
  induction ms with
  | nil => simp [ClosedAll]
  | cons m ms ih => simp [ClosedAll, ih, and_assoc]

theorem ClosedAll.mem {ns : List Nest} (h : ClosedAll ns) {n : Nest} (hn : n ∈ ns) : n.Closed := by
  obtain ⟨us, vs, rfl⟩ := List.append_of_mem hn
  exact (closedAll_append.1 h).2.1

theorem flatten_eq_of_closed {n : Nest} (h : n.Closed) (hk : n.kind ≠ .expansionPrefix) :
    n.flatten = [n] := by
  cases n with
  | expansion opener body closer => exact absurd h.1 hk
  | _ => rfl

theorem IsFlat.closed {n : Nest} (h : n.IsFlat) (hp : n.kind ≠ .expansionPrefix)
    (hs : n.kind ≠ .expansionSuffix) : n.Closed := by
  rcases h with h | h
  · rw [h]
    exact ⟨hp, hs⟩
  · cases n with
    | leaf x => exact ⟨hp, hs⟩
    | quoted x inside trailing => exact h.1
    | raw x => exact h.1
    | expansion opener body closer => simp [Nest.flatten] at h

section Pair

variable {n : Nest} (ns : List Nest)

theorem pair_other (hp : n.kind ≠ .expansionPrefix) (hs : n.kind ≠ .expansionSuffix) :
    pair (n :: ns) = (n :: (pair ns).1, (pair ns).2) := by
  simp [pair, *]

theorem pair_closing (hs : n.kind = .expansionSuffix) :
    pair (n :: ns) = ([], (n.first, (pair ns).1) :: (pair ns).2) := by
  simp [pair, *]

theorem pair_opening (hp : n.kind = .expansionPrefix) {closer : Lexeme} {outer : List Nest}
    {closers : List (Lexeme × List Nest)} (h : (pair ns).2 = (closer, outer) :: closers) :
    pair (n :: ns) = (expansion n.first (pair ns).1 closer :: outer, closers) := by
  simp [pair, *]

theorem pair_opening_unclosed (hp : n.kind = .expansionPrefix) (h : (pair ns).2 = []) :
    pair (n :: ns) = (n :: (pair ns).1, []) := by
  simp [pair, *]

end Pair

mutual

theorem pair_flatten (n : Nest) (h : n.Closed) (rest : List Nest) :
    pair (n.flatten ++ rest) = (n :: (pair rest).1, (pair rest).2) := by
  match n with
  | leaf x => exact pair_other rest h.1 h.2
  | quoted x inside trailing =>
    exact pair_other rest (by simp [kind, token, first, show x.token.kind = _ from h])
      (by simp [kind, token, first, show x.token.kind = _ from h])
  | raw x =>
    exact pair_other rest (by simp [kind, token, first, show x.token.kind = _ from h])
      (by simp [kind, token, first, show x.token.kind = _ from h])
  | expansion opener body closer =>
    have hb := pair_flattenAll body h.2.1 (leaf closer :: rest)
    rw [pair_closing (n := leaf closer) rest h.2.2, List.append_nil] at hb
    rw [flatten, List.cons_append, List.append_assoc, List.singleton_append,
      pair_opening (n := leaf opener) _ h.1 (by rw [hb]), hb]
    rfl

theorem pair_flattenAll (ns : List Nest) (h : ClosedAll ns) (rest : List Nest) :
    pair (flattenAll ns ++ rest) = (ns ++ (pair rest).1, (pair rest).2) := by
  match ns with
  | [] => rfl
  | n :: ns =>
    rw [flattenAll, List.append_assoc, pair_flatten n h.1, pair_flattenAll ns h.2]
    rfl

end

theorem gather_append {ns : List Nest} (h : ClosedAll ns) (rest : List Nest) :
    gather (flattenAll ns ++ rest) = ns ++ gather rest := by
  simp only [gather, pair_flattenAll ns h, List.append_assoc]

theorem gather_flattenAll {ns : List Nest} (h : ClosedAll ns) : gather (flattenAll ns) = ns := by
  have := gather_append h []
  rwa [List.append_nil, show gather [] = [] from rfl, List.append_nil] at this

theorem flattenAll_pair {ns : List Nest} (h : ∀ n ∈ ns, n.IsFlat) :
    flattenAll (pair ns).1 ++ flattenAll ((pair ns).2.flatMap fun c => leaf c.1 :: c.2) = ns := by
  induction ns with
  | nil => rfl
  | cons n ns ih =>
    have ih := ih fun m hm => h m (List.mem_cons_of_mem n hm)
    have hn := h n List.mem_cons_self
    by_cases hs : n.kind = .expansionSuffix
    · have hl := hn.eq_leaf (by rw [hs]; decide)
      rw [pair_closing ns hs, List.flatMap_cons, flattenAll_append]
      simp only [flattenAll, flatten, List.nil_append, List.cons_append,
        ih, ← hl]
    by_cases hp : n.kind = .expansionPrefix
    · have hl := hn.eq_leaf (by rw [hp]; decide)
      rcases hc : (pair ns).2 with _ | ⟨⟨closer, outer⟩, closers⟩
      · rw [hc] at ih
        rw [pair_opening_unclosed ns hp hc, flattenAll, hn.flatten, List.append_assoc, ih]
        rfl
      · rw [hc, List.flatMap_cons, flattenAll_append, flattenAll, flatten] at ih
        rw [pair_opening ns hp hc, flattenAll, flatten]
        conv => rhs; rw [← ih, hl]
        simp [first]
    · rw [pair_other ns hp hs, flattenAll, hn.flatten, List.append_assoc, ih]
      rfl

theorem flattenAll_gather {ns : List Nest} (h : ∀ n ∈ ns, n.IsFlat) :
    flattenAll (gather ns) = ns := by
  rw [gather, flattenAll_append, flattenAll_pair h]

end Nest

namespace Lexer

def expansions (lx : Lexer) : Nat := lx.frames.countP (·.kind == .expansion)

/-- The outermost frame is that of an expansion. -/
def Grounded (lx : Lexer) : Prop := ∀ f ∈ lx.frames.getLast?, f.kind = .expansion

theorem Grounded.frames_eq_nil {lx : Lexer} (h : lx.Grounded) (he : lx.expansions = 0) :
    lx.frames = [] := by
  by_contra hne
  have hk := h _ (List.getLast?_eq_some_getLast hne)
  have := List.countP_eq_zero.1 he _ (List.getLast_mem hne)
  simp [hk] at this

section Step

variable {lx next : Lexer}

theorem step_expansions {t : Token} {change : FrameChange}
    (h : lx.step = some (.token t change, next)) :
    t.kind = .expansionPrefix ∧ next.expansions = lx.expansions + 1 ∨
    t.kind = .expansionSuffix ∧ lx.expansions = next.expansions + 1 ∨
    t.kind ≠ .expansionPrefix ∧ t.kind ≠ .expansionSuffix ∧
      next.expansions = lx.expansions := by
  obtain ⟨hf, hn⟩ := step_frames h
  unfold expansions
  rw [hn]
  rcases change with _ | (_ | _) | (_ | _)
  · exact .inr (.inr ⟨hf.1, hf.2, rfl⟩)
  · exact .inl ⟨hf, by simp [FrameChange.apply]⟩
  · exact .inr (.inr (by simp [FrameChange.apply, hf.1]))
  · obtain ⟨hk, hh⟩ := hf
    obtain ⟨f, hf, he⟩ := Option.map_eq_some_iff.1 hh
    obtain ⟨fs, hfs⟩ := List.head?_eq_some_iff.1 hf
    exact .inr (.inl ⟨hk, by simp [FrameChange.apply, hfs, he]⟩)
  · obtain ⟨hk, hh⟩ := hf
    obtain ⟨f, hf, he⟩ := Option.map_eq_some_iff.1 hh
    obtain ⟨fs, hfs⟩ := List.head?_eq_some_iff.1 hf
    exact .inr (.inr (by simp [FrameChange.apply, hfs, he, hk]))

theorem step_grounded {p : Piece} (h : lx.step = some (p, next)) (hg : lx.Grounded) :
    next.Grounded := by
  rcases p with ⟨t, change⟩ | s | ⟨q, c⟩
  · obtain ⟨hf, hn⟩ := step_frames h
    intro f
    rw [hn]
    rcases change with _ | (_ | _) | (_ | _)
    · exact hg f
    · cases hfs : lx.frames with
      | nil =>
        intro hl
        obtain rfl : _ = f := by simpa [FrameChange.apply] using hl
        rfl
      | cons g gs =>
        intro hl
        exact hg f (by simpa [FrameChange.apply, hfs, List.getLast?_cons] using hl)
    · cases hfs : lx.frames with
      | nil => exact absurd hfs hf.2
      | cons g gs =>
        intro hl
        exact hg f (by simpa [FrameChange.apply, hfs, List.getLast?_cons] using hl)
    all_goals
      cases hfs : lx.frames with
      | nil => simp [FrameChange.apply]
      | cons g gs =>
        intro hl
        have hl : gs.getLast? = some f := hl
        exact hg f (by simp [hfs, List.getLast?_cons, hl])
  · intro f hf
    exact hg f (by rwa [← step_frames_of_not_token h rfl])
  · intro f hf
    exact hg f (by rwa [← step_frames_of_not_token h rfl])

end Step

theorem Steps.grounded {lx last : Lexer} {ps : List Piece} (h : Steps lx ps last)
    (hg : lx.Grounded) : last.Grounded := by
  induction h with
  | nil lx => exact hg
  | cons hs h ih => exact ih (step_grounded hs hg)

/-- If no expansion is left open at the end, the closers without a partner close those that are
open at the start, and all other brackets are matched. -/
theorem pair_steps {lx last : Lexer} {ps : List Piece} (h : Steps lx ps last)
    (hl : last.expansions = 0) (leading : List Trivia) :
    let r := Nest.pair ((Piece.lexemes leading ps).1.map Nest.ofLexeme)
    Nest.ClosedAll r.1 ∧
      (∀ c ∈ r.2, c.1.token.kind = .expansionSuffix ∧ Nest.ClosedAll c.2) ∧
      r.2.length = lx.expansions := by
  induction h generalizing leading with
  | nil lx => exact ⟨trivial, by simp [Piece.lexemes, Nest.pair], hl.symm⟩
  | @cons lx next last p ps hs h ih =>
    rcases p with ⟨t, change⟩ | s | ⟨q, c⟩
    · obtain ⟨h₁, h₂, h₃⟩ := ih hl []
      rw [Piece.lexemes, List.map_cons]
      set ns := (Piece.lexemes [] ps).1.map Nest.ofLexeme
      set n := Nest.ofLexeme ⟨leading, t⟩ with hn
      have hk : n.kind = t.kind := by simp [Nest.kind, Nest.token, n]
      obtain ⟨hp, he⟩ | ⟨hp, he⟩ | ⟨hp, hq, he⟩ := step_expansions hs
      · rcases hc : (Nest.pair ns).2 with _ | ⟨⟨closer, outer⟩, closers⟩
        · rw [hc, he] at h₃
          cases h₃
        · rw [hc] at h₂ h₃
          rw [Nest.pair_opening ns (hk.trans hp) hc]
          obtain ⟨hcl, ho⟩ := h₂ _ List.mem_cons_self
          refine ⟨⟨⟨?_, h₁, hcl⟩, ho⟩, fun c hc => h₂ c (List.mem_cons_of_mem _ hc), ?_⟩
          · rw [hn, Nest.first_ofLexeme]
            exact hp
          · show closers.length = lx.expansions
            rw [he, List.length_cons] at h₃
            omega
      · rw [Nest.pair_closing ns (hk.trans hp)]
        refine ⟨trivial, ?_, by simp [h₃, he]⟩
        intro c hc
        rcases List.mem_cons.1 hc with rfl | hc
        · refine ⟨?_, h₁⟩
          rw [hn, Nest.first_ofLexeme]
          exact hp
        · exact h₂ c hc
      · rw [Nest.pair_other ns (hk ▸ hp) (hk ▸ hq)]
        have hcl := (Nest.isFlat_ofLexeme ⟨leading, t⟩).closed (hk ▸ hp) (hk ▸ hq)
        exact ⟨⟨hcl, h₁⟩, h₂, he ▸ h₃⟩
    · have he : next.expansions = lx.expansions := by
        rw [expansions, step_frames_of_not_token hs rfl, expansions]
      rw [← he]
      exact ih hl _
    · have he : next.expansions = lx.expansions := by
        rw [expansions, step_frames_of_not_token hs rfl, expansions]
      rw [← he]
      exact ih hl _

end Lexer

end MakeTree
