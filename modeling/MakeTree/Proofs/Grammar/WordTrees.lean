import MakeTree.Proofs.Grammar.Gives
import MakeTree.Proofs.Grammar.LineBuilds
import MakeTree.Proofs.Grammar.Provenance
import MakeTree.Proofs.Nest.Pieces

/-!
The trees of words. Runs of blanks and of other nests come in turn, so the tokens of the latter are
the words of all tokens (`Nest.words_runs`), and each has one expression, which spells it
(`Nest.spell_wordTrees`).
-/

namespace MakeTree

namespace Nest

theorem head?_tokensOf (ns : List Nest) : (tokensOf ns).head? = ns.head?.map token := by
  cases ns with
  | nil => rfl
  | cons n ns => cases n <;> rfl

theorem tokensOf_eq_map {ns : List Nest} (hs : SoundAll ns)
    (hk : ∀ n ∈ ns, n.kind ≠ .expansionPrefix) : tokensOf ns = ns.map token := by
  rw [tokensOf, flattenAll_eq_self fun n hn =>
    flatten_eq_of_closed (soundAll_iff.1 hs n hn).closed (hk n hn)]

theorem tokensOf_blanks {ns : List Nest} (hs : SoundAll ns)
    (hw : ∀ n ∈ ns, n.isWhitespace = true) : ∀ t ∈ tokensOf ns, t.kind = .whitespace := by
  have hk (n : Nest) (hn : n ∈ ns) : n.kind = .whitespace := beq_iff_eq.1 (hw n hn)
  intro t ht
  rw [tokensOf_eq_map hs fun n hn => by simp [hk n hn]] at ht
  obtain ⟨n, hn, rfl⟩ := List.mem_map.1 ht
  exact hk n hn

theorem isPiece_tokensOf {ns : List Nest} (hs : SoundAll ns) (hne : ns ≠ [])
    (hw : ∀ n ∈ ns, n.isWhitespace = false) : Token.IsPiece (tokensOf ns) where
  nonempty h := hne (flattenAll_eq_nil (List.map_eq_nil_iff.1 h))
  level := level_tokensOf (closedAll_of_soundAll hs) 0
  solid t ht := by
    rw [outer_tokensOf (closedAll_of_soundAll hs)] at ht
    obtain ⟨n, hn, rfl⟩ := List.mem_map.1 ht
    exact beq_eq_false_iff_ne.1 (hw n hn)

/-- Runs of nests, none empty, in which blanks and other nests come in turn. -/
structure Alternate (rs : List (List Nest)) : Prop where
  runs : ∀ run ∈ rs, run ≠ [] ∧ ∃ b, ∀ n ∈ run, n.isWhitespace = b
  turns : rs.IsChain fun us vs =>
    ∃ hu hv, (us.getLast hu).isWhitespace ≠ (vs.head hv).isWhitespace

theorem alternate_wordRuns (ns : List Nest) : Alternate (wordRuns ns) where
  runs run h := ⟨List.ne_nil_of_mem_splitBy h, isWhitespace_run h⟩
  turns := by
    refine (List.isChain_getLast_head_splitBy _ ns).imp fun us vs h => ?_
    obtain ⟨hu, hv, h⟩ := h
    exact ⟨hu, hv, by simpa using h⟩

namespace Alternate

variable {run : List Nest} {rs : List (List Nest)}

theorem tail (h : Alternate (run :: rs)) : Alternate rs :=
  ⟨fun r hr => h.runs r (List.mem_cons_of_mem run hr), h.turns.tail⟩

theorem word (h : Alternate (run :: rs)) (hw : ¬ run.all isWhitespace = true) :
    run ≠ [] ∧ (∀ n ∈ run, n.isWhitespace = false) ∧
      ∀ n ∈ rs.flatten.head?, n.isWhitespace = true := by
  obtain ⟨hne, b, hb⟩ := h.runs run List.mem_cons_self
  have hfalse : b = false := by
    cases b with
    | false => rfl
    | true => exact absurd (List.all_eq_true.2 hb) hw
  subst hfalse
  refine ⟨hne, hb, fun n hn => ?_⟩
  cases rs with
  | nil => cases hn
  | cons next rs =>
    obtain ⟨hu, hv, ht⟩ := (List.isChain_cons_cons.1 h.turns).1
    obtain ⟨m, ms, rfl⟩ := List.exists_cons_of_ne_nil hv
    obtain rfl : m = n := Option.some.inj hn
    rw [hb _ (List.getLast_mem hu)] at ht
    simpa using ht

end Alternate

theorem words_runs {rs : List (List Nest)} (h : Alternate rs) (hs : SoundAll rs.flatten) :
    Token.Words (tokensOf rs.flatten)
      ((rs.filter fun run => !run.all isWhitespace).map tokensOf) := by
  induction rs with
  | nil => exact .blanks nofun
  | cons run rs ih =>
    rw [List.flatten_cons] at hs ⊢
    obtain ⟨hs, hs'⟩ := soundAll_append.1 hs
    have ih := ih h.tail hs'
    rw [tokensOf_append]
    by_cases hw : run.all isWhitespace = true
    · rw [List.filter_cons_of_neg (by simp [hw])]
      exact ih.blanks_append (tokensOf_blanks hs (List.all_eq_true.1 hw))
    · obtain ⟨hne, hb, hnext⟩ := h.word hw
      rw [List.filter_cons_of_pos (by simpa using hw), List.map_cons]
      have hgap : ∀ t ∈ ([] : List Token), t.kind = .whitespace := nofun
      refine .piece hgap (isPiece_tokensOf hs hne hb) (fun t ht => ?_) ih
      rw [head?_tokensOf] at ht
      obtain ⟨n, hn, rfl⟩ := Option.map_eq_some_iff.1 ht
      exact beq_iff_eq.1 (hnext n hn)

end Nest

/-- The expressions among the trees spell the pieces, one each. -/
def Tree.Spell (depth start : Nat) (ts : List Tree) (pieces : List (List Token)) : Prop :=
  ∃ qs : List Placed, qs ⊆ Tree.seats depth start ts ∧
    qs.map Placed.tree = (NodeKind.expression.pick (Tree.nodesOf ts)).map Node.tree ∧
    List.Forall₂ Placed.Spells qs pieces

namespace Tree.Spell

open MakeTree.Tree

variable {depth start : Nat} {ts us : List Tree} {pieces pieces' : List (List Token)}

theorem of_nodesOf (h : nodesOf ts = []) : Spell depth start ts [] :=
  ⟨[], List.nil_subset _, by rw [h]; rfl, .nil⟩

theorem append (h : Spell depth start ts pieces)
    (h' : Spell depth (start + (textOf ts).byteSize) us pieces') :
    Spell depth start (ts ++ us) (pieces ++ pieces') := by
  obtain ⟨qs, hq, ht, hp⟩ := h
  obtain ⟨rs, hr, ht', hp'⟩ := h'
  refine ⟨qs ++ rs, ?_, ?_, List.rel_append hp hp'⟩
  · rw [seats_append]
    exact List.append_subset.2 ⟨List.subset_append_of_subset_left _ hq,
      List.subset_append_of_subset_right _ hr⟩
  · rw [List.map_append, ht, ht', nodesOf_append, NodeKind.pick, NodeKind.pick, NodeKind.pick,
      List.filterMap_append, List.map_append]

theorem expression {tokens : List Token} (h : Accounts .expression start ts tokens) :
    Spell depth start [.node .expression ts] [tokens] :=
  ⟨[⟨depth, start, .node .expression ts⟩], List.Subset.refl _, rfl,
    .cons (h.spells_node depth) .nil⟩

theorem writes {p : Placed} {k : NodeKind} {n : Node k} (hn : p.tree = n.tree)
    (h : Spell (p.depth + 1) p.start n.children pieces) : p.Writes n.words pieces := by
  obtain ⟨qs, hq, ht, hp⟩ := h
  have hparts : p.parts = seats (p.depth + 1) p.start n.children := by
    rw [Placed.parts, hn]
    rfl
  refine ⟨qs, List.Subset.trans (hparts ▸ hq) (parts_subset p), ?_, hp⟩
  rw [ht, Node.words, Node.nodes_eq]

end Tree.Spell

namespace Nest

open MakeTree.Parser MakeTree.Tree

theorem held_treesOf (ns : List Nest) : Held ns (treesOf ns) :=
  fun _ hk => reading_treesOf inner_expression inner_expansion ns hk

theorem kinds_treesOf {ns : List Nest} {k : NodeKind} (h : k ∈ kinds (treesOf ns)) :
    k = .expression ∨ k = .expansion := by
  obtain ⟨⟨j, us⟩, hm, rfl⟩ := List.mem_map.1 h
  have hr : Reading (fun j => j = .expression ∨ j = .expansion) .root (flattenAll ns) (treesOf ns) :=
    reading_treesOf (.inl rfl) (.inr rfl) ns (by decide)
  by_contra hnot
  exact hr.every hnot (fun _ => False) _ (mem_nodesOf.1 hm) us (.refl _)

theorem held_runTrees (run : List Nest) : Held run (runTrees run) := by
  unfold runTrees
  split
  · exact held_treesOf run
  · exact (held_treesOf run).node inner_expression (by decide)

theorem held_runs (rs : List (List Nest)) : Held rs.flatten (rs.flatMap runTrees) := by
  induction rs with
  | nil => exact held_treesOf []
  | cons run rs ih =>
    rw [List.flatten_cons, List.flatMap_cons]
    exact (held_runTrees run).append ih

theorem held_wordTrees (ns : List Nest) : Held ns (wordTrees ns) := by
  have h := held_runs (wordRuns ns)
  rwa [wordRuns, List.flatten_splitBy] at h

theorem accounts_of_held {k : NodeKind} (hk : k ≠ .condition) {start : Nat} {ns : List Nest}
    {ts : List Tree} (h : Held ns ts) (hseat : Seated start ns) :
    Accounts k start ts (tokensOf ns) := (h k hk).accounts_flattenAll hseat

theorem spells_of_held {start : Nat} {ns : List Nest} {t : Tree} (h : Held ns [t])
    (hseat : Seated start ns) (depth : Nat) : Placed.Spells ⟨depth, start, t⟩ (tokensOf ns) := by
  have hspots : Tree.spotsOf .root start [t] = t.spots .root start := List.append_nil _
  rw [Placed.Spells, ← hspots]
  exact (accounts_of_held (by decide) h hseat).spells

theorem nodesOf_blanks {ns : List Nest} (hs : SoundAll ns)
    (hw : ∀ n ∈ ns, n.isWhitespace = true) : nodesOf (treesOf ns) = [] :=
  (bares (k := .root) hs fun _ hn => bare_of_isWhitespace (hw _ hn)).2.1

theorem spell_runs {rs : List (List Nest)} (hs : SoundAll rs.flatten) {start : Nat}
    (hseat : Seated start rs.flatten) (depth : Nat) :
    Spell depth start (rs.flatMap runTrees)
      ((rs.filter fun run => !run.all isWhitespace).map tokensOf) := by
  induction rs generalizing start with
  | nil => exact .of_nodesOf rfl
  | cons run rs ih =>
    rw [List.flatten_cons] at hs hseat
    obtain ⟨hs, hs'⟩ := soundAll_append.1 hs
    have ih := ih hs' ((held_runTrees run).seat hseat)
    rw [List.flatMap_cons]
    by_cases hw : run.all isWhitespace = true
    · rw [List.filter_cons_of_neg (by simp [hw])]
      have hrun : Spell depth start (runTrees run) [] := by
        rw [runTrees, if_pos hw]
        exact .of_nodesOf (nodesOf_blanks hs (List.all_eq_true.1 hw))
      exact hrun.append ih
    · rw [List.filter_cons_of_pos (by simpa using hw), List.map_cons]
      have hrun : Spell depth start (runTrees run) [tokensOf run] := by
        rw [runTrees, if_neg hw]
        exact .expression (accounts_of_held (by decide) (held_treesOf run) hseat.split.1)
      exact hrun.append ih

theorem spell_wordTrees {ns : List Nest} (hs : SoundAll ns) {start : Nat} (hseat : Seated start ns)
    (depth : Nat) : ∃ pieces, Token.Words (tokensOf ns) pieces ∧
      Spell depth start (wordTrees ns) pieces := by
  have hfl : (wordRuns ns).flatten = ns := List.flatten_splitBy _ ns
  refine ⟨_, ?_, spell_runs (hfl.symm ▸ hs) (hfl.symm ▸ hseat) depth⟩
  have hw := words_runs (alternate_wordRuns ns) (hfl.symm ▸ hs)
  rwa [hfl] at hw

end Nest

/-- Words come apart in one way, so what is written is what they are. -/
theorem Placed.Writes.lists {p : Placed} {es : List Expression} {pieces : List (List Token)}
    {ts : List Token} (h : p.Writes es pieces) (hw : Token.Words ts pieces) : p.Lists es ts :=
  ⟨pieces, fun _ => ⟨fun h' => h'.unique hw, fun h' => h' ▸ hw⟩, h⟩

end MakeTree
