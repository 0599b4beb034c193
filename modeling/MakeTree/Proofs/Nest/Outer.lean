import MakeTree.Proofs.Grammar.Lines

/-!
Tokens outside of expansions. Each token of a text has a level, the number of expansions open in
front of it (`Token.leveled`); nests leave the level as it is (`Nest.level_tokensOf`), and what stands
outside of expansions in them are their first tokens (`Nest.outer_tokensOf`). So cutting tokens in
front of the first that stands outside and is a stop is cutting nests (`Nest.before_tokensOf`).
-/

namespace MakeTree

/-- The number of expansions open behind a token, given that in front of it. -/
def TokenKind.level : TokenKind → Nat → Nat
  | expansionPrefix, depth => depth + 1
  | expansionSuffix, depth => depth - 1
  | _, depth => depth

namespace Token

/-- The number of expansions open behind tokens. -/
def level (depth : Nat) : List Token → Nat
  | [] => depth
  | t :: ts => level (t.kind.level depth) ts

/-- Tokens, each with the number of expansions open in front of it. -/
def leveled (depth : Nat) : List Token → List (Nat × Token)
  | [] => []
  | t :: ts => (depth, t) :: leveled (t.kind.level depth) ts

/-- The tokens that stand in no expansion. Of an expansion that is its opener. -/
def outer (ts : List Token) : List Token := ((leveled 0 ts).filter (·.1 == 0)).map (·.2)

/-- The tokens in front of the first of the outer ones that is a stop. -/
def before (stop : Token → Bool) (ts : List Token) : List Token :=
  ((leveled 0 ts).takeWhile fun v => !(v.1 == 0 && stop v.2)).map (·.2)

/-- The tokens from the first of the outer ones on that is a stop. -/
def onward (stop : Token → Bool) (ts : List Token) : List Token :=
  ((leveled 0 ts).dropWhile fun v => !(v.1 == 0 && stop v.2)).map (·.2)

theorem level_append (depth : Nat) (us vs : List Token) :
    level depth (us ++ vs) = level (level depth us) vs := by
  induction us generalizing depth with
  | nil => rfl
  | cons u us ih => exact ih _

theorem leveled_append (depth : Nat) (us vs : List Token) :
    leveled depth (us ++ vs) = leveled depth us ++ leveled (level depth us) vs := by
  induction us generalizing depth with
  | nil => rfl
  | cons u us ih => exact congrArg _ (ih _)

theorem map_leveled (depth : Nat) (ts : List Token) : (leveled depth ts).map (·.2) = ts := by
  induction ts generalizing depth with
  | nil => rfl
  | cons t ts ih => exact congrArg _ (ih _)

theorem outer_append {us : List Token} (h : level 0 us = 0) (vs : List Token) :
    outer (us ++ vs) = outer us ++ outer vs := by
  rw [outer, leveled_append, h, List.filter_append, List.map_append]
  rfl

theorem leveled_of_kind {ts : List Token}
    (h : ∀ t ∈ ts, t.kind ≠ .expansionPrefix ∧ t.kind ≠ .expansionSuffix) (depth : Nat) :
    level depth ts = depth ∧ leveled depth ts = ts.map (Prod.mk depth) := by
  induction ts with
  | nil => exact ⟨rfl, rfl⟩
  | cons t ts ih =>
    have ht : t.kind.level depth = depth := by
      obtain ⟨hp, hs⟩ := h t List.mem_cons_self
      unfold TokenKind.level
      split
      · next hk => exact absurd hk hp
      · next hk => exact absurd hk hs
      · rfl
    obtain ⟨hl, hv⟩ := ih fun u hu => h u (List.mem_cons_of_mem t hu)
    rw [level, leveled, ht, hl, hv]
    exact ⟨rfl, rfl⟩

theorem outer_of_kind {ts : List Token}
    (h : ∀ t ∈ ts, t.kind ≠ .expansionPrefix ∧ t.kind ≠ .expansionSuffix) : outer ts = ts := by
  rw [outer, (leveled_of_kind h 0).2, List.filter_eq_self.2, List.map_map]
  · exact List.map_id ts
  · intro v hv
    obtain ⟨t, -, rfl⟩ := List.mem_map.1 hv
    rfl

theorem before_append_onward (stop : Token → Bool) (ts : List Token) :
    before stop ts ++ onward stop ts = ts := by
  rw [before, onward, ← List.map_append, List.takeWhile_append_dropWhile, map_leveled]

end Token

namespace Nest

open MakeTree.Token

def tokensOf (ns : List Nest) : List Token := (flattenAll ns).map token

theorem tokensOf_append (ms ns : List Nest) : tokensOf (ms ++ ns) = tokensOf ms ++ tokensOf ns := by
  rw [tokensOf, flattenAll_append, List.map_append]
  rfl

theorem tokensOf_cons (n : Nest) (ns : List Nest) :
    tokensOf (n :: ns) = n.flatten.map token ++ tokensOf ns := by
  rw [tokensOf, flattenAll, List.map_append]
  rfl

theorem leveled_single {t : Token} (h : t.kind ≠ .expansionPrefix ∧ t.kind ≠ .expansionSuffix)
    (depth : Nat) : level depth [t] = depth ∧ ∀ v ∈ leveled depth [t], depth ≤ v.1 := by
  obtain ⟨hl, hv⟩ := leveled_of_kind (List.forall_mem_singleton.2 h) depth
  exact ⟨hl, by simp [hv]⟩

mutual

theorem level_flatten (n : Nest) (hc : n.Closed) (depth : Nat) :
    level depth (n.flatten.map token) = depth ∧
      ∀ v ∈ leveled depth (n.flatten.map token), depth ≤ v.1 := by
  match n with
  | leaf x => exact leveled_single hc depth
  | quoted x inside trailing =>
    refine leveled_single (t := x.token) ?_ depth
    rw [show x.token.kind = .stringLiteral from hc]
    decide
  | raw x =>
    refine leveled_single (t := x.token) ?_ depth
    rw [show x.token.kind = .stringLiteral from hc]
    decide
  | expansion opener body closer =>
    obtain ⟨hl, hall⟩ := level_flattenAll body hc.2.1 (depth + 1)
    have ho : opener.token.kind.level depth = depth + 1 := by rw [hc.1]; rfl
    have hs : closer.token.kind.level (depth + 1) = depth := by rw [hc.2.2]; rfl
    rw [flatten, List.map_cons, List.map_append]
    constructor
    · show level (opener.token.kind.level depth) _ = depth
      rw [ho, level_append, hl]
      exact hs
    · intro v hv
      rcases List.mem_cons.1 hv with rfl | hv
      · exact le_rfl
      · rw [show (leaf opener).token.kind = opener.token.kind from rfl, ho, leveled_append,
          hl] at hv
        rcases List.mem_append.1 hv with hv | hv
        · exact Nat.le_of_succ_le (hall v hv)
        · rw [List.mem_singleton.1 hv]
          exact Nat.le_succ depth

theorem level_flattenAll (ns : List Nest) (hc : ClosedAll ns) (depth : Nat) :
    level depth ((flattenAll ns).map token) = depth ∧
      ∀ v ∈ leveled depth ((flattenAll ns).map token), depth ≤ v.1 := by
  match ns with
  | [] => exact ⟨rfl, nofun⟩
  | n :: ns =>
    obtain ⟨h₁, hall₁⟩ := level_flatten n hc.1 depth
    obtain ⟨h₂, hall₂⟩ := level_flattenAll ns hc.2 depth
    rw [flattenAll, List.map_append, level_append, leveled_append, h₁]
    exact ⟨h₂, fun v hv => (List.mem_append.1 hv).elim (hall₁ v) (hall₂ v)⟩

end

section Closed

variable {n : Nest} {ns : List Nest}

theorem level_tokensOf (hc : ClosedAll ns) (depth : Nat) : level depth (tokensOf ns) = depth :=
  (level_flattenAll ns hc depth).1

theorem leveled_flatten (hc : n.Closed) : ∃ vs,
    leveled 0 (n.flatten.map token) = (0, n.token) :: vs ∧ ∀ v ∈ vs, v.1 ≠ 0 := by
  have single {x : Token} : ∃ vs, leveled 0 [x] = (0, x) :: vs ∧ ∀ v ∈ vs, v.1 ≠ 0 :=
    ⟨[], rfl, nofun⟩
  cases n with
  | leaf x => exact single
  | quoted x inside trailing => exact single
  | raw x => exact single
  | expansion opener body closer =>
    obtain ⟨hl, hall⟩ := level_flattenAll body hc.2.1 1
    have ho : opener.token.kind.level 0 = 1 := by rw [hc.1]; rfl
    refine ⟨leveled 1 ((flattenAll body ++ [leaf closer]).map token), ?_, fun v hv => ?_⟩
    · show (0, opener.token) :: leveled (opener.token.kind.level 0) _ = _
      rw [ho]
      rfl
    · rw [List.map_append, leveled_append, hl] at hv
      rcases List.mem_append.1 hv with hv | hv
      · exact Nat.one_le_iff_ne_zero.1 (hall v hv)
      · rw [List.mem_singleton.1 hv]
        exact Nat.one_ne_zero

theorem leveled_tokensOf_cons (hc : ClosedAll (n :: ns)) : ∃ vs : List (Nat × Token),
    leveled 0 (tokensOf (n :: ns)) = (0, n.token) :: (vs ++ leveled 0 (tokensOf ns)) ∧
      (∀ v ∈ vs, v.1 ≠ 0) ∧ n.token :: vs.map (·.2) = n.flatten.map token := by
  obtain ⟨vs, hvs, hall⟩ := leveled_flatten hc.1
  refine ⟨vs, ?_, hall, ?_⟩
  · rw [tokensOf_cons, leveled_append, (level_flatten n hc.1 0).1, hvs, List.cons_append]
  · rw [← map_leveled 0 (n.flatten.map token), hvs, List.map_cons]

theorem outer_tokensOf (hc : ClosedAll ns) : outer (tokensOf ns) = ns.map token := by
  induction ns with
  | nil => rfl
  | cons n ns ih =>
    obtain ⟨vs, hvs, hall, -⟩ := leveled_tokensOf_cons hc
    have hnone : vs.filter (·.1 == 0) = [] :=
      List.filter_eq_nil_iff.2 fun v hv => by simpa using hall v hv
    have ih : ((leveled 0 (tokensOf ns)).filter (·.1 == 0)).map (·.2) = ns.map token := ih hc.2
    rw [outer, hvs, List.filter_cons_of_pos rfl, List.filter_append, hnone, List.nil_append,
      List.map_cons, ih, List.map_cons]

variable (stop : Token → Bool)

theorem before_tokensOf (hc : ClosedAll ns) :
    before stop (tokensOf ns) = tokensOf (ns.takeWhile fun n => !stop n.token) := by
  induction ns with
  | nil => rfl
  | cons n ns ih =>
    obtain ⟨vs, hvs, hall, hn⟩ := leveled_tokensOf_cons hc
    rw [before, hvs]
    cases hs : stop n.token with
    | true =>
      rw [List.takeWhile_cons_of_neg (by simp [hs]), List.takeWhile_cons_of_neg (by simp [hs])]
      rfl
    | false =>
      rw [List.takeWhile_cons_of_pos (by simp [hs]), List.takeWhile_cons_of_pos (by simp [hs]),
        List.takeWhile_append_of_pos fun v hv => by simp [hall v hv], List.map_cons,
        List.map_append, ← List.cons_append, hn, tokensOf_cons]
      exact congrArg _ (ih hc.2)

theorem onward_tokensOf (hc : ClosedAll ns) :
    onward stop (tokensOf ns) = tokensOf (ns.dropWhile fun n => !stop n.token) := by
  have h := before_append_onward stop (tokensOf ns)
  conv at h => rhs; rw [← List.takeWhile_append_dropWhile (p := fun n => !stop n.token) (l := ns),
    tokensOf_append, ← before_tokensOf stop hc]
  exact List.append_cancel_left h

end Closed

end Nest

end MakeTree
