import MakeTree.Proofs.Nest.Outer
import MakeTree.Proofs.StatementRows

/-!
Words. `Token.Words ts pieces` says that tokens are words with blanks between them, where a word
stands outside of expansions and has no blank there; they come apart in one way only
(`Words.unique`). `Placed.Writes` says which expressions in a tree spell the words.
-/

namespace MakeTree

namespace Token

/-- Tokens that stand outside of expansions, where none of them is a blank. -/
structure IsPiece (ts : List Token) : Prop where
  nonempty : ts ≠ []
  level : level 0 ts = 0
  solid : ∀ t ∈ outer ts, t.kind ≠ .whitespace

/-- Blanks, and between them pieces, with a blank at least between any two. -/
inductive Words : List Token → List (List Token) → Prop
  | blanks {gap : List Token} (hg : ∀ t ∈ gap, t.kind = .whitespace) : Words gap []
  | piece {gap ts rest : List Token} {pieces : List (List Token)}
      (hg : ∀ t ∈ gap, t.kind = .whitespace) (ht : IsPiece ts)
      (hr : ∀ t ∈ rest.head?, t.kind = .whitespace) (h : Words rest pieces) :
      Words (gap ++ (ts ++ rest)) (ts :: pieces)

variable {gap ts rest : List Token} {pieces : List (List Token)}

theorem Words.blanks_append (hg : ∀ t ∈ gap, t.kind = .whitespace) (h : Words ts pieces) :
    Words (gap ++ ts) pieces := by
  cases h with
  | blanks hg' => exact .blanks (List.forall_mem_append.2 ⟨hg, hg'⟩)
  | @piece gap' ts' rest' pieces' hg' ht hr h =>
    rw [← List.append_assoc]
    exact .piece (List.forall_mem_append.2 ⟨hg, hg'⟩) ht hr h

theorem Words.append_blanks (h : Words ts pieces) (hg : ∀ t ∈ gap, t.kind = .whitespace) :
    Words (ts ++ gap) pieces := by
  induction h with
  | blanks hg' => exact .blanks (List.forall_mem_append.2 ⟨hg', hg⟩)
  | @piece gap' ts' rest' pieces' hg' ht hr h ih =>
    rw [List.append_assoc, List.append_assoc]
    refine .piece hg' ht (fun t hm => ?_) ih
    rw [List.head?_append] at hm
    cases hh : rest'.head? with
    | some u =>
      rw [hh] at hm
      exact hr t (hh ▸ hm)
    | none =>
      rw [hh] at hm
      exact hg t (List.mem_of_mem_head? hm)

theorem IsPiece.head (h : IsPiece ts) : ∃ u us, ts = u :: us ∧ u.kind ≠ .whitespace := by
  obtain ⟨u, us, rfl⟩ := List.exists_cons_of_ne_nil h.nonempty
  refine ⟨u, us, rfl, h.solid u ?_⟩
  rw [outer, leveled, List.filter_cons_of_pos rfl]
  exact List.mem_cons_self

theorem IsPiece.before (h : IsPiece ts) (hr : ∀ t ∈ rest.head?, t.kind = .whitespace) :
    before (·.kind == .whitespace) (ts ++ rest) = ts := by
  have hin (v) (hv : v ∈ leveled 0 ts) : (!(v.1 == 0 && v.2.kind == .whitespace)) = true := by
    by_cases h0 : v.1 = 0
    · have hm : v.2 ∈ outer ts := List.mem_map_of_mem (List.mem_filter.2 ⟨hv, by simp [h0]⟩)
      simp [h.solid _ hm]
    · simp [h0]
  rw [Token.before, leveled_append, h.level, List.takeWhile_append_of_pos hin, List.map_append,
    map_leveled]
  cases rest with
  | nil => exact List.append_nil ts
  | cons t rest =>
    rw [leveled, List.takeWhile_cons_of_neg (by simp [hr t rfl])]
    exact List.append_nil ts

theorem IsPiece.dropWhile (h : IsPiece ts) (hg : ∀ t ∈ gap, t.kind = .whitespace) :
    (gap ++ (ts ++ rest)).dropWhile (·.kind == .whitespace) = ts ++ rest := by
  obtain ⟨u, us, rfl, hu⟩ := h.head
  rw [List.dropWhile_append_of_pos fun t ht => by simp [hg t ht], List.cons_append,
    List.dropWhile_cons_of_neg (by simpa using hu)]

theorem dropWhile_blanks (hg : ∀ t ∈ gap, t.kind = .whitespace) :
    gap.dropWhile (·.kind == .whitespace) = [] :=
  List.dropWhile_eq_nil_iff.2 fun t ht => by simp [hg t ht]

theorem Words.unique {pieces' : List (List Token)} (h : Words ts pieces) (h' : Words ts pieces') :
    pieces = pieces' := by
  induction h generalizing pieces' with
  | blanks hg =>
    have hd := dropWhile_blanks hg
    cases h' with
    | blanks => rfl
    | piece hg' ht' =>
      rw [ht'.dropWhile hg'] at hd
      exact absurd (List.append_eq_nil_iff.1 hd).1 ht'.nonempty
  | @piece gap ts rest pieces hg ht hr h ih =>
    have hd : (gap ++ (ts ++ rest)).dropWhile (·.kind == .whitespace) = ts ++ rest :=
      ht.dropWhile hg
    generalize gap ++ (ts ++ rest) = all at h' hd
    cases h' with
    | blanks hg' =>
      rw [dropWhile_blanks hg'] at hd
      exact absurd (List.append_eq_nil_iff.1 hd.symm).1 ht.nonempty
    | @piece gap' ts' rest' pieces' hg' ht' hr' h' =>
      rw [ht'.dropWhile hg'] at hd
      have hts : ts' = ts := by rw [← ht'.before hr', hd, ht.before hr]
      subst hts
      obtain rfl := List.append_cancel_left hd
      rw [ih h']

end Token

namespace Placed

/-- The leaves of the tree spell the tokens, each at its offset. -/
def Spells (p : Placed) (ts : List Token) : Prop :=
  MakeTree.Spells ts ((p.tree.spots .root p.start).filter Spot.ofToken)

/-- The expressions stand in the tree and spell the pieces, one each. -/
def Writes (p : Placed) (es : List Expression) (pieces : List (List Token)) : Prop :=
  ∃ qs : List Placed, qs ⊆ p.subtrees ∧ qs.map Placed.tree = es.map Node.tree ∧
    List.Forall₂ Spells qs pieces

/-- The expressions are the words of the tokens. -/
def Lists (p : Placed) (es : List Expression) (ts : List Token) : Prop :=
  ∃ pieces, (∀ ps, Token.Words ts ps ↔ ps = pieces) ∧ p.Writes es pieces

end Placed

theorem Accounts.spells_node {k : NodeKind} {start : Nat} {ts : List Tree} {tokens : List Token}
    (h : Accounts k start ts tokens) (depth : Nat) :
    Placed.Spells ⟨depth, start, .node k ts⟩ tokens := h.spells

end MakeTree
