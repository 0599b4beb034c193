import Mathlib.Data.List.Chain
import MakeTree.Proofs.Nest.Sound

/-!
Comments among nests. A comment goes on to the end of its line (`commentsEnd_nests`), so on one line
it is the last nest, and no expansion holds it (`CommentsEnd.eq_concat`).
-/

namespace MakeTree

theorem Shape.inLine_comment {frames : List Frame} {b : Bool} {d : Char} {t : Text} {m : Nat}
    {change : FrameChange} (h : inLine frames b d t = .token .comment m change) :
    m = (Text.line t).length := by
  simp only [inLine, dollar_eq, backslash_eq, colon_eq, beforeEquals_eq, quote, closing, opening,
    word, plain, assign] at h
  repeat' split at h
  all_goals cases h
  rfl

namespace Lexer

variable {lx next last : Lexer} {ps : List Piece}

/-- The text to come is empty or starts with a line break. -/
def AtBreak (lx : Lexer) : Prop := ∀ c ∈ lx.rest.head?, c = '\n' ∨ c = '\r'

theorem step_comment {t : Token} {change : FrameChange}
    (h : lx.step = some (.token t change, next)) (ht : t.kind = .comment) : next.AtBreak := by
  obtain ⟨c, after, -, ⟨kind, more, ch, hs, hp, rfl⟩ | ⟨_, -, hp, -⟩ | ⟨-, hp, -⟩⟩ := step_cases h
  · cases hp
    obtain ⟨_, -, he⟩ | ⟨_, -, -, he⟩ | ⟨-, -, he | he⟩ := lx.shape_cases c after
    · rw [he] at hs; cases hs; cases ht
    · rw [he] at hs; cases hs
    · rw [he] at hs; cases hs; cases ht
    · obtain rfl : kind = .comment := ht
      obtain rfl := Shape.inLine_comment (he ▸ hs)
      intro d hd
      have hrest := @List.drop_left _ (Text.line after)
        (after.dropWhile fun c => c != '\n' && c != '\r')
      rw [Text.line, List.takeWhile_append_dropWhile] at hrest
      have hd : ((after.dropWhile fun c => c != '\n' && c != '\r').head?) = some d := by
        rwa [← hrest]
      have := List.head?_dropWhile_not (fun c => c != '\n' && c != '\r') after
      rw [hd] at this
      simpa [or_iff_not_imp_left] using this
  · cases hp
  · cases hp

theorem AtBreak.step {p : Piece} (hb : lx.AtBreak) (h : lx.step = some (p, next)) :
    ∃ t change, p = .token t change ∧ t.kind = .lineBreak := by
  obtain ⟨c, after, hr, hp⟩ := step_cases h
  have hc : (Text.lineBreak? (c :: after)).isSome = true := by
    rw [Text.lineBreak?_isSome]
    simpa using (hb c (by rw [hr]; rfl)).symm
  obtain ⟨m, hm⟩ := Option.isSome_iff_exists.1 hc
  have hs : lx.shape c after = .token .lineBreak m .keep := by
    unfold shape
    rw [hm]
  rw [hs] at hp
  obtain ⟨kind, more, change, ht, rfl, -⟩ | ⟨_, hn, -⟩ | ⟨hn, -⟩ := hp
  · cases ht
    exact ⟨_, _, rfl, rfl⟩
  · cases hn
  · cases hn

theorem Steps.commentsEnd (h : Steps lx ps last) (leading : List Trivia) :
    (Piece.lexemes leading ps).1.IsChain
      fun x y => x.token.kind = .comment → y.token.kind = .lineBreak := by
  induction h generalizing leading with
  | nil => exact .nil
  | @cons lx next last p ps hs h ih =>
    cases p with
    | continuation s => exact ih _
    | illegal q c => exact ih _
    | token t change =>
      refine List.isChain_cons.2 ⟨fun y hy ht => ?_, ih []⟩
      have hb := step_comment hs ht
      cases h with
      | nil => cases hy
      | cons hn h =>
        obtain ⟨u, ch, rfl, hu⟩ := hb.step hn
        cases hy
        exact hu

end Lexer

namespace Nest

/-- A comment goes on to the end of its line. -/
def CommentsEnd (ns : List Nest) : Prop :=
  (flattenAll ns).IsChain fun m n => m.isComment = true → n.isLineBreak = true

/-- There is no comment, not even in an expansion. -/
def Uncommented (ns : List Nest) : Prop := ∀ n ∈ flattenAll ns, n.isComment = false

theorem commentsEnd_nests (lx : Lexer) : CommentsEnd lx.nests.1 := by
  have hn : lx.nests = (lx.nests.1, lx.nests.2) := rfl
  rw [CommentsEnd, (Lexer.lexemes_of_nests hn).1]
  refine (List.isChain_map ofLexeme).2 ((lx.steps_run.commentsEnd []).imp fun x y h => ?_)
  simpa [isComment, isLineBreak, kind, token, first_ofLexeme] using h

namespace CommentsEnd

variable {ms ns : List Nest} {n : Nest}

theorem left (h : CommentsEnd (ms ++ ns)) : CommentsEnd ms := by
  rw [CommentsEnd, flattenAll_append] at h
  exact h.left_of_append

theorem right (h : CommentsEnd (ms ++ ns)) : CommentsEnd ns := by
  rw [CommentsEnd, flattenAll_append] at h
  exact h.right_of_append

theorem tail (h : CommentsEnd (n :: ns)) : CommentsEnd ns := by
  have h : CommentsEnd ([n] ++ ns) := h
  exact h.right

theorem nil : CommentsEnd [] := List.IsChain.nil

theorem eq_concat (h : CommentsEnd ns) (hs : SoundAll ns)
    (hl : ∀ m ∈ flattenAll ns, m.isLineBreak = false) (hn : n ∈ flattenAll ns)
    (hc : n.isComment = true) : n = leaf n.first ∧ ∃ ms, ns = ms ++ [n] := by
  obtain ⟨us, vs, hsplit⟩ := List.append_of_mem hn
  have hlast : (flattenAll ns).getLast? = some n := by
    cases vs with
    | nil => rw [hsplit, List.getLast?_concat]
    | cons m vs =>
      rw [CommentsEnd, hsplit] at h
      have hb := (List.isChain_append_cons_cons.1 h).2.1 hc
      rw [hl m (by simp [hsplit])] at hb
      cases hb
  have hk : n.kind = .comment := by simpa [isComment] using hc
  rcases List.eq_nil_or_concat' ns with rfl | ⟨ms, m, rfl⟩
  · cases hn
  have hm := soundAll_iff.1 hs m (by simp)
  rw [flattenAll_append, flattenAll, flattenAll, List.append_nil] at hlast
  cases m with
  | leaf x =>
    rw [flatten, List.getLast?_concat] at hlast
    cases hlast
    exact ⟨rfl, ms, rfl⟩
  | quoted x inside trailing =>
    rw [flatten, List.getLast?_concat] at hlast
    cases hlast
    exact absurd (hk.symm.trans hm.2.1) (by decide)
  | raw x =>
    rw [flatten, List.getLast?_concat] at hlast
    cases hlast
    exact absurd (hk.symm.trans hm.2) (by decide)
  | expansion opener body closer =>
    rw [flatten, ← List.cons_append, ← List.append_assoc, List.getLast?_concat] at hlast
    cases hlast
    exact absurd (hk.symm.trans hm.2.2.2.2) (by decide)

theorem uncommented (h : CommentsEnd ns) (hs : SoundAll ns)
    (hl : ∀ m ∈ flattenAll ns, m.isLineBreak = false) (hc : ∀ m ∈ ns, m.isComment = false) :
    Uncommented ns := by
  intro n hn
  cases hn' : n.isComment with
  | false => rfl
  | true =>
    obtain ⟨-, ms, rfl⟩ := h.eq_concat hs hl hn hn'
    rw [← hn', hc n (by simp)]

theorem head (h : CommentsEnd (n :: ns)) (hn : n = leaf n.first) (hc : n.isComment = true) :
    ns.head?.all isLineBreak = true := by
  rw [CommentsEnd, flattenAll, hn, flatten, List.singleton_append, List.isChain_cons] at h
  have hk := head_flattenAll ns
  cases ns with
  | nil => rfl
  | cons m ns =>
    obtain ⟨l, hl, hlk⟩ := Option.map_eq_some_iff.1 hk
    have hb : l.isLineBreak = true := h.1 l hl hc
    rw [isLineBreak, hlk] at hb
    exact hb

theorem head_of_mem (h : CommentsEnd (ms ++ ns)) (hs : SoundAll ms)
    (hl : ∀ m ∈ flattenAll ms, m.isLineBreak = false) (hn : n ∈ ms) (hc : n.isComment = true) :
    ns.head?.all isLineBreak = true := by
  have hf : n.flatten = [n] := by
    have hk : n.kind = .comment := by simpa [isComment] using hc
    cases n with
    | expansion opener body closer =>
      exact absurd (hk.symm.trans (soundAll_iff.1 hs _ hn).2.1) (by decide)
    | _ => rfl
  have hm : n ∈ flattenAll ms := by
    obtain ⟨us, vs, rfl⟩ := List.append_of_mem hn
    simp [flattenAll_append, flattenAll, hf]
  obtain ⟨he, us, rfl⟩ := h.left.eq_concat hs hl hm hc
  rw [List.append_assoc] at h
  exact h.right.head he hc

end CommentsEnd

end Nest

end MakeTree
