import MakeTree.Proofs.Grammar.Blind
import MakeTree.Proofs.Nest.Lockstep
import MakeTree.Proofs.Nest.Pairing

/-!
Colons that come at once, read off the pieces of a text. One does if the next piece is a colon
(`colonNext_lexemes`), so a continuation put between two pieces is noticed between two colons at
most (`seams_inserted`).
-/

namespace MakeTree

def Piece.isColon : Piece → Bool
  | token t _ => t.kind == .colon
  | _ => false

namespace Likeness

theorem colonNext_cons (x : Lexeme) (ns : List Nest) :
    colonNext (Nest.ofLexeme x :: ns) = (x.token.kind == .colon && x.leading.isEmpty) := by
  rw [colonNext, List.head?_cons, Option.any_some, Nest.isColon, Nest.kind, Nest.token,
    Nest.first_ofLexeme]

theorem colonNext_lexemes (us : List Trivia) (ps : List Piece) :
    colonNext ((Piece.lexemes us ps).1.map Nest.ofLexeme) =
      (us.isEmpty && ps.head?.any Piece.isColon) := by
  induction us, ps using Piece.lexemes.induct with
  | case1 us => simp [Piece.lexemes, colonNext]
  | case2 us s ps ih =>
    rw [Piece.lexemes, ih]
    simp [Piece.isColon]
  | case3 us q c ps ih =>
    rw [Piece.lexemes, ih]
    simp [Piece.isColon]
  | case4 us t ch ps _ =>
    rw [Piece.lexemes, List.map_cons, colonNext_cons]
    simp [Piece.isColon, Bool.and_comm]

variable {ρ : Likeness} {R : Lexer → Lexer → Prop} {ps qs qs' : List Piece}

theorem head?_isColon (h : List.Forall₂ (ρ.Cut R) ps qs) :
    qs.head?.any Piece.isColon = ps.head?.any Piece.isColon := by
  cases h with
  | nil => rfl
  | cons hc _ =>
    cases hc with
    | token h _ => exact congrArg (· == .colon) (ρ.kind h)
    | continuation => rfl
    | illegal => rfl

theorem seams_of_cuts (h : List.Forall₂ (ρ.Cut R) ps qs) (q : Nest → Bool) (us vs : List Trivia) :
    Seams q ((Piece.lexemes us ps).1.map Nest.ofLexeme)
      ((Piece.lexemes vs qs).1.map Nest.ofLexeme) := by
  induction h generalizing us vs with
  | nil => trivial
  | cons hc h ih =>
    cases hc with
    | token =>
      refine ⟨fun _ => ?_, ih [] []⟩
      rw [colonNext_lexemes, colonNext_lexemes, head?_isColon h]
    | continuation => exact ih _ _
    | illegal => exact ih _ _

/-- A continuation behind some pieces, of which the last is no comment and no colon in front of
another. -/
theorem seams_inserted (h : List.Forall₂ (ρ.Cut R) qs qs') (s : Text)
    (hj : ∀ t ch, ps.getLast? = some (.token t ch) → t.kind = .comment ∨ t.kind = .colon →
      qs.head?.any Piece.isColon = false) (us : List Trivia) :
    Seams (fun n => n.isComment || n.isColon)
      ((Piece.lexemes us (ps ++ qs)).1.map Nest.ofLexeme)
      ((Piece.lexemes us (ps ++ .continuation s :: qs')).1.map Nest.ofLexeme) := by
  induction ps generalizing us with
  | nil => exact seams_of_cuts h _ _ _
  | cons p ps ih =>
    have ih := ih fun t ch hl => hj t ch (by rw [List.getLast?_cons, hl]; rfl)
    cases p with
    | token t ch =>
      refine ⟨fun hq => ?_, ih []⟩
      rw [colonNext_lexemes, colonNext_lexemes]
      cases ps with
      | nil =>
        have hk : t.kind = .comment ∨ t.kind = .colon := by
          simpa [Nest.isComment, Nest.isColon, Nest.kind, Nest.token] using hq
        simp [Piece.isColon, hj t ch rfl hk]
      | cons p ps => rfl
    | continuation => exact ih _
    | illegal => exact ih _

section Gather

variable {q : Nest → Bool} {ns ms ns' ms' : List Nest}

theorem colonNext_flattenAll (ns : List Nest) : colonNext (Nest.flattenAll ns) = colonNext ns := by
  cases ns with
  | nil => rfl
  | cons n ns => cases n <;> rfl

theorem Seams.of_append (hl : ns.length = ms.length) (h : Seams q (ns ++ ns') (ms ++ ms')) :
    Seams q ns' ms' := by
  induction ns generalizing ms with
  | nil =>
    rw [List.length_eq_zero_iff.1 hl.symm] at h
    exact h
  | cons n ns ih =>
    cases ms with
    | nil => cases hl
    | cons m ms => exact ih (Nat.succ.inj hl) h.2

theorem Seams.of_flattenAll (h : ρ.Nests ns ms) (hc : Nest.ClosedAll ns)
    (hq : ∀ n, q n = true → n.kind ≠ .expansionPrefix)
    (hs : Seams q (Nest.flattenAll ns) (Nest.flattenAll ms)) : Seams q ns ms := by
  induction h with
  | nil => trivial
  | @cons n m ns ms hn h ih =>
    rw [Nest.flattenAll, Nest.flattenAll] at hs
    refine ⟨fun hqn => ?_, ih hc.2 (hs.of_append (flatten n hn).length_eq)⟩
    rw [← colonNext_flattenAll, ← colonNext_flattenAll ns]
    cases hn with
    | leaf => exact hs.1 hqn
    | quoted => exact hs.1 hqn
    | raw => exact hs.1 hqn
    | expansion => exact absurd hc.1.1 (hq _ hqn)

end Gather

end Likeness

end MakeTree
