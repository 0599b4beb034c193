import MakeTree.Proofs.Grammar.Builds
import Mathlib.Data.List.Nodup

/-!
What the parsers that stay on one line build: the nodes and tokens among their trees, and that each
node they make conforms to the grammar of trees.
-/

namespace MakeTree

namespace Tree

/-- Expressions that are not empty. -/
def WordsOf (us : List (NodeKind × List Tree)) : Prop :=
  ∀ u ∈ us, u.1 = .expression ∧ textOf u.2 ≠ []

theorem WordsOf.holds {k : NodeKind} {ts : List Tree} (h : WordsOf (nodesOf ts)) :
    Node.HoldsWords (k := k) ⟨ts⟩ := by
  constructor
  · intro j hj
    obtain ⟨u, hu, rfl⟩ := List.mem_map.1 hj
    simp [(h u hu).1]
  · intro e he
    rw [Node.words, Node.nodes_eq] at he
    obtain ⟨u, hu, he⟩ := List.mem_filterMap.1 he
    rw [if_pos (h u hu).1] at he
    obtain rfl := Option.some.inj he
    exact (h u hu).2

theorem WordsOf.ne_nil {k : NodeKind} {ts : List Tree} (h : WordsOf (nodesOf ts))
    (hne : nodesOf ts ≠ []) : Node.words (k := k) ⟨ts⟩ ≠ [] := by
  rw [Node.words, Node.nodes_eq]
  obtain ⟨u, us, hu⟩ := List.exists_cons_of_ne_nil hne
  have hk := (h u (by simp [hu])).1
  simp [hu, NodeKind.pick, hk]

theorem textOf_leaves_ne_nil {x : Lexeme} (h : x.token.text ≠ []) : textOf x.leaves ≠ [] := by
  simp [Lexeme.leaves, textOf, text, h]

end Tree

namespace Nest

theorem Sound.trees_text {n : Nest} (h : n.Sound) : Tree.textOf n.trees ≠ [] := by
  have ht : n.first.token.text ≠ [] := h.spelled.text
  cases n with
  | leaf x =>
    show Tree.textOf x.trees ≠ []
    unfold Lexeme.trees
    split
    · show Tree.textOf x.leaves ++ [] ≠ []
      rw [List.append_nil]
      exact Tree.textOf_leaves_ne_nil ht
    · exact Tree.textOf_leaves_ne_nil ht
  | quoted x inside trailing =>
    have ht : x.token.text ≠ [] := ht
    simp [trees, Lexeme.openQuote, Tree.textOf, Tree.text, ht]
  | raw x => exact Tree.textOf_leaves_ne_nil ht
  | expansion opener body closer =>
    have ht : Tree.textOf opener.leaves ≠ [] := Tree.textOf_leaves_ne_nil ht
    simp [trees, Tree.textOf, Tree.text, ht]

theorem treesOf_text {ns : List Nest} (h : SoundAll ns) (hne : ns ≠ []) :
    Tree.textOf (treesOf ns) ≠ [] := by
  cases ns with
  | nil => exact absurd rfl hne
  | cons n ns =>
    show Tree.textOf (n.trees ++ treesOf ns) ≠ []
    simp [h.1.trees_text]

theorem mem_span_imp {stop : Nest → Bool} {ns : List Nest} {n : Nest} (h : n ∈ span stop ns) :
    n.isLineBreak = false ∧ stop n = false := by
  simpa using List.mem_takeWhile_imp ((trimEnd_isPrefix _).subset h)

theorem mem_takeOperand_imp {stop : Nest → Bool} {depth : Nat} {ns : List Nest} {n : Nest}
    (h : n ∈ takeOperand stop depth ns) : n.isLineBreak = false := by
  induction ns generalizing depth with
  | nil => cases h
  | cons m ns ih =>
    rw [takeOperand] at h
    split at h
    · cases h
    · next hm =>
      simp only [Bool.or_eq_true, not_or, Bool.not_eq_true] at hm
      rcases List.mem_cons.1 h with rfl | h
      · exact hm.1
      · exact ih h

theorem span_ne_nil {stop : Nest → Bool} {n : Nest} (ns : List Nest)
    (hw : n.isWhitespace = false) (hl : n.isLineBreak = false) (hs : stop n = false) :
    ∃ ms, span stop (n :: ns) = n :: ms := by
  have ht : (n :: ns).takeWhile (fun n => !n.isLineBreak && !stop n) =
      n :: ns.takeWhile fun n => !n.isLineBreak && !stop n := by
    rw [List.takeWhile_cons_of_pos (by simp [hl, hs])]
  rw [span, ht, trimEnd]
  split
  · exact ⟨[], by simp [hw]⟩
  · exact ⟨_, rfl⟩

end Nest

namespace Parser

open MakeTree.Tree

variable {k : NodeKind} {ns : List Nest} {q : Nest → Bool}

section Expression

theorem builds_expressionOf {us : List Nest} (ms : List Nest) (ht : Nest.Trimmed us)
    (hb : ∀ n ∈ us, n.isLineBreak = false)
    (hc : (∀ n ∈ us, n.isComment = false) ∨ k = .recipe ∨ k = .definition) :
    Builds k (expressionOf us) (us ++ ms) fun _ ls ts =>
      ls = ms ∧ ts = [.node .expression (Nest.treesOf us)] ∧
        (us ≠ [] → textOf (Nest.treesOf us) ≠ []) ∧
        ∀ n ∈ Nest.flattenAll us, n.isLineBreak = false := by
  intro hl outer es
  have hs := hl.left
  cases hr : expressionOf us ⟨us ++ ms, outer, es⟩ with
  | ok a s =>
    obtain ⟨hsolid, hu, hbuilt⟩ := expressionOf_ok hr
    have hline := not_isLineBreak_of_solid
      (fun n hn => hsolid n hn ((Nest.closedAll_of_soundAll hs).mem hn)) hb
    have hk : k.Admits .expression us := fun _ =>
      ⟨hc.imp_left (hl.comments.left.uncommented hs hline), ht⟩
    refine ⟨us, _, by rw [hu], hbuilt, ?_, hu, rfl, Nest.treesOf_text hs, hline⟩
    exact .node (.contents hs hline) (Nest.made_treesOf hs).kinds hk
  | error e s =>
    obtain ⟨-, hn, hbreak⟩ := (expressionOf_error hr).2 hl.nests
    have hn' := beq_iff_eq.1 hbreak
    exact Blames.token hn (by simp [hn']) (fun _ => hn') (by decide)

theorem builds_first {us : List Nest} (h : us <+: ns) (ht : Nest.Trimmed us)
    (hb : ∀ n ∈ us, n.isLineBreak = false)
    (hc : (∀ n ∈ us, n.isComment = false) ∨ k = .recipe ∨ k = .definition) :
    Builds k (expressionOf us) ns fun _ ls ts =>
      ls = ns.drop us.length ∧ ts = [.node .expression (Nest.treesOf us)] ∧
        (us ≠ [] → textOf (Nest.treesOf us) ≠ []) ∧
        ∀ n ∈ Nest.flattenAll us, n.isLineBreak = false := by
  have hp := builds_expressionOf (ns.drop us.length) ht hb hc
  rwa [List.prefix_iff_eq_append.1 h] at hp

theorem builds_expression (hns : ∀ n ∈ ns.head?, n.isWhitespace = false)
    (hc : (∀ n, n.isComment = true → q n = true) ∨ k = .recipe ∨ k = .definition) :
    Builds k (expression q) ns fun _ ls ts =>
      ls = ns.drop (Nest.span q ns).length ∧ ∃ e, ts = [.node .expression e] ∧
        (∀ n ms, ns = n :: ms → n.isWhitespace = false → n.isLineBreak = false → q n = false →
          textOf e ≠ []) := by
  have hc : (∀ n ∈ Nest.span q ns, n.isComment = false) ∨ k = .recipe ∨ k = .definition :=
    hc.imp_left fun hc n hn => Bool.eq_false_iff.2 fun h =>
      absurd ((hc n h).symm.trans (Nest.mem_span_imp hn).2) (by decide)
  have h := builds_first (Nest.span_isPrefix q ns) (Nest.trimmed_span hns)
    (fun _ hn => (Nest.mem_span_imp hn).1) hc
  refine builds_unread_bind (h.mono ?_)
  rintro _ ls ts ⟨h₁, h₂, h₃, -⟩
  refine ⟨h₁, _, h₂, ?_⟩
  rintro n ms rfl hw hl hs
  obtain ⟨vs, hv⟩ := Nest.span_ne_nil ms hw hl hs
  exact h₃ (by simp [hv])

theorem Builds.of_false {j : NodeKind} {p : Parser α} {Q : α → List Nest → List Tree → Prop}
    (h : Builds j p ns fun _ _ _ => False) : Builds k p ns Q := by
  intro hl outer es
  have hp := h hl outer es
  cases hr : p ⟨ns, outer, es⟩ with
  | ok a s =>
    rw [hr] at hp
    obtain ⟨-, -, -, -, -, hf⟩ := hp
    exact hf.elim
  | error e s =>
    rw [hr] at hp
    exact hp

/-- An expression, and what has to follow it on the line. So there is no comment in it. -/
theorem builds_first_bind {us : List Nest} (h : us <+: ns) (ht : Nest.Trimmed us)
    (hb : ∀ n ∈ us, n.isLineBreak = false)
    {f : Unit → Parser β} {W : β → List Nest → List Tree → Prop}
    (hf : (us ≠ [] → textOf (Nest.treesOf us) ≠ []) → Builds k (f ()) (ns.drop us.length)
      fun b ls vs => W b ls ([.node .expression (Nest.treesOf us)] ++ vs))
    (hend : (ns.drop us.length).head?.all Nest.isLineBreak = true →
      Builds k (f ()) (ns.drop us.length) fun _ _ _ => False) :
    Builds k (expressionOf us >>= f) ns W := by
  by_cases hc : ∀ n ∈ us, n.isComment = false
  · refine builds_bind (builds_first h ht hb (.inl hc)) fun _ _ _ _ _ hm => ?_
    obtain ⟨rfl, rfl, hne, -⟩ := hm
    exact hf hne
  · have hc : ∃ n ∈ us, n.isComment = true := by simpa using hc
    -- in a command the expression would be built, but what follows it would be refused
    have hr : Builds .recipe (expressionOf us >>= f) ns fun _ _ _ => False := by
      refine builds_of_sound fun hs => ?_
      refine builds_bind (builds_first h ht hb (.inr (.inl rfl))) fun _ _ _ _ _ hm => ?_
      obtain ⟨rfl, -, -, hb⟩ := hm
      rw [← List.prefix_iff_eq_append.1 h] at hs
      obtain ⟨n, hn, hnc⟩ := hc
      exact (hend (hs.comments.head_of_mem hs.left hb hn hnc)).of_false
    exact hr.of_false

theorem builds_expression_bind {f : Unit → Parser β} {W : β → List Nest → List Tree → Prop}
    (hns : ∀ n ∈ ns.head?, n.isWhitespace = false)
    (hf : ∀ e, (∀ n ms, ns = n :: ms → n.isWhitespace = false → n.isLineBreak = false →
        q n = false → textOf e ≠ []) → Builds k (f ()) (ns.drop (Nest.span q ns).length)
      fun b ls vs => W b ls ([.node .expression e] ++ vs))
    (hend : ∀ ms : List Nest, ms.head?.all Nest.isLineBreak = true →
      Builds k (f ()) ms fun _ _ _ => False) :
    Builds k (expression q >>= f) ns W := by
  refine builds_first_bind (Nest.span_isPrefix q ns) (Nest.trimmed_span hns)
    (fun _ hn => (Nest.mem_span_imp hn).1) (fun hne => hf _ ?_) (hend _)
  rintro n ms rfl hw hl hs
  obtain ⟨vs, hv⟩ := Nest.span_ne_nil ms hw hl hs
  exact hne (by simp [hv])

theorem builds_operand_bind {f : Unit → Parser β} {W : β → List Nest → List Tree → Prop}
    (hns : ∀ n ∈ ns.head?, n.isWhitespace = false)
    (hf : ∀ e ms, Builds k (f ()) ms fun b ls vs => W b ls ([.node .expression e] ++ vs))
    (hend : ∀ ms : List Nest, ms.head?.all Nest.isLineBreak = true →
      Builds k (f ()) ms fun _ _ _ => False) :
    Builds k (operand q >>= f) ns W := by
  have hp := Nest.takeOperand_isPrefix q 0 ns
  refine builds_first_bind ((Nest.trimEnd_isPrefix _).trans hp) (Nest.trimmed_trimEnd hp hns)
    (fun n hn => ?_) (fun _ => hf _ _) (hend _)
  exact Nest.mem_takeOperand_imp ((Nest.trimEnd_isPrefix _).subset hn)

section Missing

variable {expected : List Expected}
  (hq : ∀ n, q n = true → n.isLineBreak = false ∧ k.allows n.kind = true)
  (he : Expected.Ordinary expected) (hn : ns.head?.all Nest.isLineBreak = true)

include hq he hn

theorem builds_missing :
    Builds k (skipWhitespace >>= fun _ => expect q expected) ns fun _ _ _ => False := by
  refine builds_bind builds_skipWhitespace fun _ _ _ _ _ hm => ?_
  obtain ⟨rfl, -⟩ := hm
  refine (builds_expect (fun n h => (hq n h).2) he).mono ?_
  rintro _ ms ts ⟨n, -, h, hns, -⟩
  cases ns with
  | nil => cases hns
  | cons m ns =>
    have hm : m.isLineBreak = true := hn
    have hk : m.kind = .lineBreak := by simpa [Nest.isLineBreak] using hm
    rw [List.dropWhile_cons_of_neg (by simp [Nest.isWhitespace, hk])] at hns
    obtain ⟨rfl, -⟩ := List.cons.inj hns
    exact absurd (hm.symm.trans (hq m h).1) (by decide)

theorem builds_missing_bind {f : Unit → Parser β} :
    Builds k (skipWhitespace >>= fun _ => expect q expected >>= f) ns fun _ _ _ => False := by
  rw [← bind_assoc]
  exact builds_bind (builds_missing hq he hn) fun _ _ _ _ _ h => h.elim

end Missing

theorem builds_quotedOperand : Builds .condition quotedOperand ns fun _ _ ts =>
    kinds ts = [.expression] := by
  match ns with
  | .quoted x inside trailing :: ns =>
    intro hl outer es
    obtain ⟨es', hr⟩ := quotedOperand_ok x trailing hl.head.2.2.1 hl.head.2.2.2 ns outer es
    rw [hr]
    exact ⟨[_], _, rfl, rfl, .quoted trailing hl.head, by simp [Lexeme.closeQuote]⟩
  | .raw x :: ns =>
    intro hl outer es
    exact ⟨[_], _, rfl, rfl, .raw hl.head, by simp [Lexeme.closeQuote]⟩
  | .leaf x :: ns => exact builds_fail (by decide)
  | .expansion opener body closer :: ns => exact builds_fail (by decide)
  | [] => exact builds_fail (by decide)

theorem bare_of_isWhitespace {n : Nest} (h : n.isWhitespace = true) :
    k.allows n.kind = true := by
  rw [show n.kind = .whitespace by simpa [Nest.isWhitespace] using h]
  rfl

theorem builds_run {run : List Nest} (hr : run ≠ [])
    (hc : ∀ n ∈ run, n.isLineBreak = false ∧ n.isComment = false)
    (ht : ¬ run.all Nest.isWhitespace = true → Nest.Trimmed run) (ms : List Nest) :
    Builds k (if run.all Nest.isWhitespace then move run.length else expressionOf run)
      (run ++ ms) fun _ ls ts => ls = ms ∧ WordsOf (nodesOf ts) ∧
        (∀ m ∈ marks ts, m.1 = .whitespace) ∧
        ((∃ n ∈ run.head?, n.isWhitespace = false) → nodesOf ts ≠ []) := by
  refine builds_ite (fun hw => ?_) fun hw => ?_
  · have hw := List.all_eq_true.1 hw
    refine (builds_move fun n hn => bare_of_isWhitespace (hw n hn)).mono ?_
    rintro _ ls ts ⟨rfl, h₂, h₃⟩
    refine ⟨rfl, fun u hu => absurd (h₂ ▸ hu) List.not_mem_nil, fun m hm => ?_, ?_⟩
    · rw [h₃] at hm
      obtain ⟨n, hn, rfl⟩ := List.mem_map.1 hm
      simpa [Nest.isWhitespace] using hw n hn
    · rintro ⟨n, hn, hnw⟩
      rw [hw n (List.mem_of_mem_head? hn)] at hnw
      cases hnw
  · have hword := builds_expressionOf (k := k) ms (ht hw) (fun n hn => (hc n hn).1)
      (.inl fun n hn => (hc n hn).2)
    refine hword.mono ?_
    rintro _ ls ts ⟨rfl, rfl, h, -⟩
    refine ⟨rfl, ?_, by simp, fun _ => by simp⟩
    intro u hu
    obtain rfl : u = (.expression, Nest.treesOf run) := by simpa using hu
    exact ⟨rfl, h hr⟩

theorem builds_runs (runs : List (List Nest)) (hr : ∀ run ∈ runs, run ≠ [])
    (hc : ∀ n ∈ runs.flatten, n.isLineBreak = false ∧ n.isComment = false)
    (ht : ∀ run ∈ runs, ¬ run.all Nest.isWhitespace = true → Nest.Trimmed run) (ms : List Nest) :
    Builds k (runs.forM fun run : List Nest =>
      if run.all Nest.isWhitespace then move run.length else expressionOf run)
      (runs.flatten ++ ms) fun _ ls ts => ls = ms ∧ WordsOf (nodesOf ts) ∧
        (∀ m ∈ marks ts, m.1 = .whitespace) ∧
        ((∃ n ∈ runs.head?.bind List.head?, n.isWhitespace = false) → nodesOf ts ≠ []) := by
  induction runs with
  | nil => exact builds_pure ⟨rfl, fun _ hu => absurd hu List.not_mem_nil, by simp, by simp⟩
  | cons run runs ih =>
    rw [List.flatten_cons] at hc
    have ih := ih (fun r h => hr r (List.mem_cons_of_mem run h))
      (fun n h => hc n (List.mem_append_right run h))
      fun r h => ht r (List.mem_cons_of_mem run h)
    rw [List.flatten_cons, List.append_assoc]
    have hrun := builds_run (k := k) (hr run List.mem_cons_self)
      (fun n h => hc n (List.mem_append_left _ h)) (ht run List.mem_cons_self) (runs.flatten ++ ms)
    refine builds_bind hrun fun _ us ls ts _ hls => ?_
    obtain ⟨rfl, hw, hm, hi⟩ := hls
    refine ih.mono ?_
    rintro _ ls us ⟨rfl, hw', hm', -⟩
    refine ⟨rfl, ?_, ?_, fun hn hx => ?_⟩
    · intro u hu
      rw [nodesOf_append] at hu
      exact (List.mem_append.1 hu).elim (hw u) (hw' u)
    · intro m hmm
      rw [marks_append] at hmm
      exact (List.mem_append.1 hmm).elim (hm m) (hm' m)
    · rw [nodesOf_append] at hx
      exact hi hn (List.append_eq_nil_iff.1 hx).1

theorem builds_words : Builds k (words q) ns fun _ ls ts =>
    ls = ns.drop (Nest.span (fun n => n.isComment || q n) ns).length ∧ WordsOf (nodesOf ts) ∧
      (∀ m ∈ marks ts, m.1 = .whitespace) ∧
      (∀ n ms, ns = n :: ms → n.isWhitespace = false → n.isLineBreak = false →
        n.isComment = false → q n = false → nodesOf ts ≠ []) := by
  refine builds_unread_bind ?_
  set us := Nest.span (fun n => n.isComment || q n) ns with hus
  have hp : us <+: ns := Nest.span_isPrefix _ ns
  have hr : ∀ run ∈ Nest.wordRuns us, run ≠ [] := fun run h => List.ne_nil_of_mem_splitBy h
  have hfl : (Nest.wordRuns us).flatten = us := List.flatten_splitBy _ us
  have hc : ∀ n ∈ (Nest.wordRuns us).flatten, n.isLineBreak = false ∧ n.isComment = false := by
    rw [hfl]
    exact fun n hn => (Nest.mem_span_imp hn).imp_right fun h => (Bool.or_eq_false_iff.1 h).1
  have h := builds_runs (k := k) (Nest.wordRuns us) hr hc (fun _ => Nest.trimmed_run)
    (ns.drop us.length)
  rw [hfl, List.prefix_iff_eq_append.1 hp] at h
  refine h.mono ?_
  rintro _ ls ts ⟨h₁, h₂, h₃, h₄⟩
  refine ⟨h₁, h₂, h₃, ?_⟩
  rintro n ms rfl hw hl hc hq
  obtain ⟨vs, hv⟩ : ∃ vs, Nest.span (fun n => n.isComment || q n) (n :: ms) = n :: vs :=
    Nest.span_ne_nil ms hw hl (by simp [hc, hq])
  refine h₄ ⟨n, ?_, hw⟩
  rw [← hus] at hv
  rw [hv] at hfl
  cases hruns : Nest.wordRuns us with
  | nil =>
    rw [hv] at hruns
    rw [hruns] at hfl
    cases hfl
  | cons run runs =>
    rw [← hv, hruns, List.flatten_cons, hv] at hfl
    cases run with
    | nil => exact absurd rfl (hr [] (by simp [hruns]))
    | cons m run =>
      obtain ⟨rfl, -⟩ := List.cons.inj hfl
      rfl

end Expression

/-- The trees are one node of the kind, for which whole lines are taken. -/
def Whole (j : NodeKind) {α : Type} (_ : α) (ms : List Nest) (ts : List Tree) : Prop :=
  ms = [] ∧ ∃ us, ts = [.node j us]

section Line

theorem builds_blankLine (h : (Line.afterLeading ns).head?.all Nest.isLineBreak = true) :
    Builds k blankLine ns (Whole .blankLine) := by
  refine builds_of_sound fun hl => builds_within (by decide) ?_
  refine builds_bind builds_skipLeading fun _ us ms ts hns hm => ?_
  obtain ⟨rfl, hm⟩ := hm
  rw [hns] at hl
  refine (builds_advanceIf fun _ => bare_of_isLineBreak).mono ?_
  rintro _ ls us (⟨n, hn, he, hmark⟩ | ⟨hn, rfl, rfl⟩)
  · rw [he] at hl
    refine ⟨?_, hl.suffix.single.eq_nil hn, _, rfl⟩
    show kinds (ts ++ us) = []
    simp [hm.kinds, hmark.kinds]
  · refine ⟨?_, ?_, _, rfl⟩
    · show kinds (ts ++ []) = []
      simp [hm.kinds]
    · cases hls : Line.afterLeading ns with
      | nil => rfl
      | cons n ls =>
        rw [hls] at h hn
        exact absurd ((show n.isLineBreak = true from h).symm.trans hn) (by decide)

theorem builds_commentLine (h : (Line.afterLeading ns).head?.any Nest.isComment = true) :
    Builds k commentLine ns (Whole .commentLine) := by
  refine builds_within (by decide) (builds_bind builds_skipLeading fun _ us ms ts hns hm => ?_)
  obtain ⟨rfl, hm⟩ := hm
  refine (builds_endOfLine rfl).mono ?_
  rintro _ ls us ⟨rfl, hm', hc⟩
  refine ⟨⟨?_, ?_⟩, rfl, _, rfl⟩
  · show kinds (ts ++ us) = []
    simp [hm.kinds, hm'.kinds]
  · have hd : (Line.afterLeading ns).dropWhile Nest.isWhitespace = Line.afterLeading ns := by
      cases hls : Line.afterLeading ns with
      | nil => rfl
      | cons n ls =>
        rw [hls] at h
        have hk : n.kind = .comment := by simpa [Nest.isComment] using h
        rw [List.dropWhile_cons_of_neg (by simp [Nest.isWhitespace, hk])]
    rw [hd] at hc
    have hm := hc h
    rw [Node.comment?, Node.token?_isSome, marks_append]
    exact hm.imp fun _ => List.mem_append_right _

/-- What stands in front of a name. -/
def isIntro (n : Nest) : Bool := Line.isSpecifier n || n.isWhitespace

/-- The specifiers among the nests. -/
def specifiersIn (ms : List Nest) : List Specifier := ms.filterMap (·.kind.specifier?)

theorem compatible_concat {found : List Specifier} {t : Specifier} (hc : Specifier.Compatible found)
    (h : (if t = .override then found.contains .override else found.any (· != .override)) = false) :
    Specifier.Compatible (found ++ [t]) := by
  obtain ⟨hd, hl⟩ := hc
  have concat {s : Specifier} (hm : s ∉ found) : (found ++ [s]).Nodup :=
    List.concat_eq_append ▸ List.Nodup.concat hm hd
  split at h
  · next ht =>
    subst ht
    have hm : .override ∉ found := by simpa using h
    exact ⟨concat hm, by simpa using hl⟩
  · next ht =>
    have ho : ∀ s ∈ found, s = .override := by simpa using h
    have hm : t ∉ found := fun hm => ht (ho t hm)
    have hf : found.filter (· != .override) = [] := List.filter_eq_nil_iff.2 (by simpa using ho)
    refine ⟨concat hm, ?_⟩
    rw [List.filter_append, hf]
    exact List.length_filter_le _ _

theorem specifiersOf_eq {found : List Specifier} (ms : List Nest)
    (hc : Specifier.Compatible found) :
    (Specifier.Compatible (found ++ specifiersIn (ms.takeWhile isIntro)) ∧ specifiersOf found ms =
        pure (found ++ specifiersIn (ms.takeWhile isIntro), ms.dropWhile isIntro)) ∨
      ∃ us vs, ms = us ++ vs ∧ specifiersOf found ms = failAt vs [.variableName] := by
  induction ms generalizing found with
  | nil =>
    have hs : found ++ specifiersIn ([].takeWhile isIntro) = found := List.append_nil found
    rw [hs]
    exact .inl ⟨hc, rfl⟩
  | cons m ms ih =>
    rw [specifiersOf]
    cases hk : m.kind.specifier? with
    | some t =>
      have hp : isIntro m = true := by simp [isIntro, Line.isSpecifier, hk]
      have hs : found ++ specifiersIn ((m :: ms).takeWhile isIntro) =
          found ++ [t] ++ specifiersIn (ms.takeWhile isIntro) := by
        simp [List.takeWhile_cons_of_pos hp, specifiersIn, hk]
      simp only
      generalize hg : (if t = Specifier.override then found.contains .override
        else found.any (· != .override)) = conflict
      cases conflict with
      | true => exact .inr ⟨[], m :: ms, rfl, rfl⟩
      | false =>
        rw [hs, List.dropWhile_cons_of_pos hp]
        refine (ih (compatible_concat hc hg)).imp_right ?_
        rintro ⟨us, vs, rfl, he⟩
        exact ⟨m :: us, vs, rfl, he⟩
    | none =>
      simp only
      split
      · next hw =>
        have hp : isIntro m = true := by simp [isIntro, hw]
        have hs : specifiersIn ((m :: ms).takeWhile isIntro) =
            specifiersIn (ms.takeWhile isIntro) := by
          simp [List.takeWhile_cons_of_pos hp, specifiersIn, hk]
        rw [hs, List.dropWhile_cons_of_pos hp]
        refine (ih hc).imp_right ?_
        rintro ⟨us, vs, rfl, he⟩
        exact ⟨m :: us, vs, rfl, he⟩
      · next hw =>
        have hp : ¬ isIntro m = true := by simp [isIntro, Line.isSpecifier, hk, hw]
        rw [List.takeWhile_cons_of_neg hp, List.dropWhile_cons_of_neg hp,
          show specifiersIn [] = [] from rfl, List.append_nil]
        exact .inl ⟨hc, rfl⟩

theorem compatible_nil : Specifier.Compatible [] := ⟨List.nodup_nil, by simp⟩

theorem bare_of_isIntro {n : Nest} (h : isIntro n = true) : k.allows n.kind = true := by
  rcases Bool.or_eq_true_iff.1 h with h | h
  · cases hk : n.kind with
    | keyword _ => rfl
    | _ => simp [Line.isSpecifier, hk, TokenKind.specifier?] at h
  · exact bare_of_isWhitespace h

theorem kind_of_isIntro {n : Nest} (h : isIntro n = true) :
    n.kind = .whitespace ∨ ∃ s, n.kind = .keyword (.specifier s) := by
  rcases Bool.or_eq_true_iff.1 h with h | h
  · right
    simp only [Line.isSpecifier, TokenKind.specifier?] at h
    split at h
    · next s hk => exact ⟨s, hk⟩
    · cases h
  · exact .inl (by simpa [Nest.isWhitespace] using h)

theorem builds_specifiers : Builds k specifiers ns fun found ms ts =>
    ms = ns.dropWhile isIntro ∧ nodesOf ts = [] ∧ Specifier.Compatible found ∧
      Tree.specifiers ts = found ∧
      ∀ m ∈ marks ts, m.1 = .whitespace ∨ ∃ s, m.1 = .keyword (.specifier s) := by
  refine builds_unread_bind ?_
  obtain ⟨hc, h⟩ | ⟨us, vs, hms, h⟩ := specifiersOf_eq ns compatible_nil
  · rw [h, pure_bind]
    refine builds_bind (builds_moveWhile fun _ => bare_of_isIntro) fun _ us ms ts _ hm => ?_
    obtain ⟨h₁, h₂, h₃⟩ := hm
    refine builds_pure ?_
    rw [List.append_nil]
    refine ⟨h₁, h₂, hc, ?_, fun m hm => ?_⟩
    · rw [Tree.specifiers, h₃, List.filterMap_map]
      rfl
    · rw [h₃] at hm
      obtain ⟨n, hn, rfl⟩ := List.mem_map.1 hm
      exact kind_of_isIntro (List.mem_takeWhile_imp hn)
  · rw [h]
    have hf : Builds k (failAt vs [.variableName]) ns
        fun (_ : List Specifier × List Nest) _ _ => False := builds_failAt hms (by decide)
    exact builds_bind hf fun _ _ _ _ _ h => h.elim

/-- There is one operator, and a name in front of it. -/
structure Assigned (ts : List Tree) : Prop where
  name : ∃ e, nodesOf ts = [(.expression, e)] ∧ textOf e ≠ []
  operator : ∃ s, (.assignOp, s) ∈ marks ts
  operators : ∀ s, (.assignOp, s) ∈ marks ts → (AssignOp.ofText? s).isSome = true
  specifiers : Tree.specifiers ts = []

theorem builds_assigned {n : Nest} (hw : n.isWhitespace = false) (hl : n.isLineBreak = false)
    (ha : n.isAssignOp = false) :
    Builds k assigned (n :: ns) fun _ ms ts =>
      (∀ m ∈ ms.head?, m.isWhitespace = false) ∧ Assigned ts := by
  have hop (n : Nest) (hn : n.isAssignOp = true) :
      n.isLineBreak = false ∧ k.allows n.kind = true := by
    have hk : n.kind = .assignOp := by simpa [Nest.isAssignOp] using hn
    exact ⟨by simp [Nest.isLineBreak, hk], by rw [hk]; rfl⟩
  refine builds_expression_bind (by simpa using hw) (fun e he => ?_)
    fun _ h => builds_missing_bind hop (by decide) h
  have he := he n ns rfl hw hl ha
  refine builds_bind builds_skipWhitespace fun _ us ms ws _ hm => ?_
  obtain ⟨-, hws⟩ := hm
  have hal (n : Nest) (hn : n.isAssignOp = true) : k.allows n.kind = true := (hop n hn).2
  refine builds_bind (builds_expect hal (by decide)) fun _ us ms os _ hm => ?_
  obtain ⟨m, hs, hm, -, hmark⟩ := hm
  have hk : m.kind = .assignOp := by simpa [Nest.isAssignOp] using hm
  refine builds_skipWhitespace.mono ?_
  rintro _ ls ws' ⟨rfl, hws'⟩
  have hmarks : marks ([.node .expression e] ++ (ws ++ (os ++ ws'))) =
      marks ws ++ ((.assignOp, m.token.text) :: marks ws') := by
    simp [hmark.marks, hk]
  refine ⟨Nest.head?_dropWhile_blanks _, ⟨e, by simp [hws.nodes, hmark.nodes, hws'.nodes], he⟩,
    ⟨m.token.text, ?_⟩, ?_, ?_⟩
  · rw [hmarks]
    simp
  · intro s hsm
    rw [hmarks] at hsm
    rcases List.mem_append.1 hsm with h | h
    · exact absurd h (hws.not_mem (by decide))
    · rcases List.mem_cons.1 h with h | h
      · obtain ⟨-, rfl⟩ := Prod.mk.inj h
        exact hs.spelled.assignOp hk
      · exact absurd h (hws'.not_mem (by decide))
  · simp [hws.specifiers, hmark.specifiers, hws'.specifiers, hk, TokenKind.specifier?]

theorem head_dropWhile {ms ls : List Nest} {n : Nest} (h : ms = ns.dropWhile q)
    (hn : ms = n :: ls) : q n = false := by
  have := List.head?_dropWhile_not q ns
  rw [← h, hn] at this
  simpa using this

theorem not_isWhitespace_of_not_isIntro {n : Nest} (h : isIntro n = false) :
    n.isWhitespace = false := (Bool.or_eq_false_iff.1 h).2

section Assignment

/-- What stands in front of a name: blanks and the specifiers. -/
structure Introduces (found : List Specifier) (ts : List Tree) : Prop where
  nodes : nodesOf ts = []
  specifiers : Tree.specifiers ts = found
  compatible : Specifier.Compatible found
  operators : ∀ s, (.assignOp, s) ∉ marks ts

variable {found : List Specifier} {ts us vs e : List Tree} (h : Introduces found ts)
  (hv : Margin vs)

include h hv

theorem conforms_undefine (hu : found.contains .undefine = true) (he : textOf e ≠ []) :
    Node.Conforms (k := .assignment) ⟨ts ++ (.node .expression e :: vs)⟩ := by
  have hspec : Node.specifiers (k := .assignment) ⟨ts ++ (.node .expression e :: vs)⟩ = found := by
    simp [Node.specifiers_eq, h.specifiers, hv.specifiers]
  have hop : Node.token? (k := .assignment) ⟨ts ++ (.node .expression e :: vs)⟩ .assignOp =
      none := by
    refine (Node.token?_eq_none _ _).2 fun s hm => ?_
    simp only [marks_append, marks_node, List.mem_append] at hm
    rcases hm with hm | hm
    · exact h.operators s hm
    · exact hv.not_mem (by decide) hm
  refine ⟨⟨⟨e⟩, ?_, he⟩, ?_, .inl ⟨?_, ?_, ?_, ?_⟩⟩
  · simp [Node.subject?, Node.node?, Node.nodes_eq, h.nodes, NodeKind.pick]
  · rw [hspec]
    exact h.compatible
  · rwa [Node.isUndefine, hspec]
  · simp [Node.nodeKinds, kinds_of_nodesOf h.nodes, hv.kinds]
  · rw [Node.operator?, hop]
    rfl
  · rw [Node.value?, hop]
    rfl

theorem conforms_assigned (hu : found.contains .undefine = false) (ha : Assigned us) :
    Node.Conforms (k := .assignment) ⟨ts ++ (us ++ (.node .expression e :: vs))⟩ := by
  have hspec : Node.specifiers (k := .assignment)
      ⟨ts ++ (us ++ (.node .expression e :: vs))⟩ = found := by
    simp [Node.specifiers_eq, h.specifiers, ha.specifiers, hv.specifiers]
  obtain ⟨name, hn, hne⟩ := ha.name
  obtain ⟨s, hs⟩ := ha.operator
  have hop : (Node.token? (k := .assignment)
      ⟨ts ++ (us ++ (.node .expression e :: vs))⟩ .assignOp).isSome = true :=
    (Node.token?_isSome _ _).2 ⟨s, by simp [hs]⟩
  obtain ⟨s', hs'⟩ := Option.isSome_iff_exists.1 hop
  have hm := Node.mem_of_token? hs'
  simp only [marks_append, marks_node, List.mem_append] at hm
  refine ⟨⟨⟨name⟩, ?_, hne⟩, ?_, .inr ⟨?_, ?_, ?_, ?_⟩⟩
  · simp [Node.subject?, Node.node?, Node.nodes_eq, h.nodes, hn, NodeKind.pick]
  · rw [hspec]
    exact h.compatible
  · rwa [Node.isUndefine, hspec]
  · simp [Node.nodeKinds, kinds_of_nodesOf h.nodes, kinds_of_one hn, hv.kinds]
  · rw [Node.operator?, hs']
    rcases hm with hm | hm | hm
    · exact absurd hm (h.operators s')
    · exact ha.operators s' hm
    · exact absurd hm (hv.not_mem (by decide))
  · rw [Node.value?, hs']
    simp [Node.nodes_eq, h.nodes, hn, hv.nodes, NodeKind.pick]

end Assignment

theorem builds_assignment : Builds k assignment ns (Whole .assignment) := by
  refine builds_within (by decide) (builds_bind builds_skipLeading fun _ _ ms ts₁ _ hm => ?_)
  obtain ⟨-, h₁⟩ := hm
  refine builds_bind builds_specifiers fun found _ ms ts₂ _ hm => ?_
  obtain ⟨hms, hi, hc, hf, hk⟩ := hm
  have hin : Introduces found (ts₁ ++ ts₂) := by
    refine ⟨by simp [h₁.nodes, hi], by simp [h₁.specifiers, hf], hc, fun s hm => ?_⟩
    rw [marks_append] at hm
    rcases List.mem_append.1 hm with hm | hm
    · exact h₁.not_mem (by decide) hm
    · rcases hk _ hm with hk | ⟨_, hk⟩ <;> cases hk
  refine builds_bind (builds_refuse (by decide)) fun _ _ ms' _ _ hm => ?_
  obtain ⟨rfl, rfl, n, ls, rfl, hl, hcm, ha⟩ := hm
  have hw := not_isWhitespace_of_not_isIntro (head_dropWhile hms rfl)
  have hb : Builds .assignment (if found.contains .undefine then pure () else assigned) (n :: ls)
      fun _ ls' ts => found.contains .undefine = true ∧ ls' = n :: ls ∧ ts = [] ∨
        found.contains .undefine = false ∧ (∀ m ∈ ls'.head?, m.isWhitespace = false) ∧
          Assigned ts :=
    builds_ite (fun hu => builds_pure (.inl ⟨hu, rfl, rfl⟩)) fun hu =>
      (builds_assigned hw hl ha).mono fun _ _ _ h => .inr ⟨by simpa using hu, h⟩
  refine builds_bind hb fun _ _ ms₄ ts₃ _ h₃ => ?_
  have hns : ∀ m ∈ ms₄.head?, m.isWhitespace = false := by
    rcases h₃ with ⟨-, rfl, -⟩ | ⟨-, hns, -⟩
    · simpa using hw
    · exact hns
  refine builds_bind (builds_expression hns (.inl fun _ h => h)) fun _ _ ms₅ ts₄ _ h₄ => ?_
  obtain ⟨-, e, rfl, he⟩ := h₄
  refine (builds_endOfLine rfl).mono ?_
  rintro _ ls' ts₅ ⟨rfl, h₅, -⟩
  refine ⟨?_, rfl, _, rfl⟩
  rw [List.nil_append, ← List.append_assoc]
  rcases h₃ with ⟨hu, rfl, rfl⟩ | ⟨hu, -, ha⟩
  · exact conforms_undefine hin h₅ hu (he n ls rfl hw hl hcm)
  · exact conforms_assigned hin h₅ hu ha

theorem not_isWhitespace_of_not_isLeading {n : Nest} (h : n.kind.isLeading = false) :
    n.isWhitespace = false := by
  cases hw : n.isWhitespace with
  | false => rfl
  | true =>
    rw [show n.kind = .whitespace by simpa [Nest.isWhitespace] using hw] at h
    cases h

theorem builds_functionLine {n : Nest} {ls : List Nest} (hn : Line.afterLeading ns = n :: ls)
    (hl : n.isLineBreak = false) (hc : n.isComment = false) :
    Builds k functionLine ns (Whole .functionLine) := by
  refine builds_within (by decide) (builds_bind builds_skipLeading fun _ _ ms ts₁ _ hm => ?_)
  obtain ⟨rfl, h₁⟩ := hm
  have hw := not_isWhitespace_of_not_isLeading (head_dropWhile rfl hn)
  have hns : ∀ m ∈ (Line.afterLeading ns).head?, m.isWhitespace = false := by simpa [hn] using hw
  refine builds_bind (builds_expression hns (.inl fun _ h => h)) fun _ _ ms ts₂ _ hm => ?_
  obtain ⟨-, e, rfl, he⟩ := hm
  refine (builds_endOfLine rfl).mono ?_
  rintro _ ls' ts₃ ⟨rfl, h₃, -⟩
  refine ⟨⟨?_, ⟨e⟩, ?_, he n ls hn hw hl hc⟩, rfl, _, rfl⟩
  · simp [Node.nodeKinds, h₁.kinds, h₃.kinds]
  · simp [Node.subject?, Node.node?, Node.nodes_eq, h₁.nodes, h₃.nodes, NodeKind.pick]

theorem builds_directiveWords : Builds k directiveWords ns fun _ _ ts =>
    WordsOf (nodesOf ts) ∧ Tree.specifiers ts = [] ∧
      (∀ n ms, ns = n :: ms → n.isWhitespace = false → n.isLineBreak = false →
        n.isComment = false → nodesOf ts ≠ []) := by
  refine builds_endsOr_bind (builds_ite (fun h => ?_) fun _ => ?_)
  · refine builds_pure ⟨nofun, rfl, ?_⟩
    rintro n ms rfl - hl hc
    simp [hl, hc] at h
  · refine builds_words.mono ?_
    rintro _ ls ts ⟨-, h₂, h₃, h₄⟩
    refine ⟨h₂, specifiers_eq_nil fun m hm => ?_, fun n ms hn hw hl hc => h₄ n ms hn hw hl hc rfl⟩
    rw [h₃ m hm]
    rfl

theorem builds_exportLine {n : Nest} {ls : List Nest} (hn : Line.afterLeading ns = n :: ls)
    {s : Specifier} (hk : n.kind = .keyword (.specifier s)) (hs : s = .exported ∨ s = .unexported) :
    Builds k exportLine ns (Whole .exportLine) := by
  refine builds_within (by decide) (builds_bind builds_skipLeading fun _ _ ms ts₁ _ hm => ?_)
  obtain ⟨rfl, h₁⟩ := hm
  rw [hn]
  refine builds_bind (builds_advance (by rw [hk]; rfl)) fun _ _ ms ts₂ _ hm => ?_
  obtain ⟨rfl, h₂⟩ := hm
  refine builds_bind builds_skipWhitespace fun _ _ ms ts₃ _ hm => ?_
  obtain ⟨rfl, h₃⟩ := hm
  refine builds_bind builds_directiveWords fun _ _ ms ts₄ _ hm => ?_
  obtain ⟨hw, hm, -⟩ := hm
  refine (builds_endOfLine rfl).mono ?_
  rintro _ ls' ts₅ ⟨rfl, h₅, -⟩
  refine ⟨⟨?_, WordsOf.holds ?_⟩, rfl, _, rfl⟩
  · have he : Node.specifiers (k := .exportLine) ⟨ts₁ ++ (ts₂ ++ (ts₃ ++ (ts₄ ++ ts₅)))⟩ = [s] := by
      simp [Node.specifiers_eq, h₁.specifiers, h₂.specifiers, h₃.specifiers, h₅.specifiers, hm, hk,
        TokenKind.specifier?]
    rw [he]
    exact hs.imp (congrArg fun s => [s]) (congrArg fun s => [s])
  · simpa [h₁.nodes, h₂.nodes, h₃.nodes, h₅.nodes] using hw

theorem builds_includeLine {n : Nest} {ls : List Nest} (hn : Line.afterLeading ns = n :: ls)
    (hk : n.kind = .keyword .includeFile) : Builds k includeLine ns (Whole .includeLine) := by
  refine builds_within (by decide) (builds_bind builds_skipLeading fun _ _ ms ts₁ _ hm => ?_)
  obtain ⟨rfl, h₁⟩ := hm
  rw [hn]
  refine builds_bind (builds_advance (by rw [hk]; rfl)) fun _ _ ms ts₂ _ hm => ?_
  obtain ⟨rfl, h₂⟩ := hm
  refine builds_bind builds_skipWhitespace fun _ _ ms ts₃ _ hm => ?_
  obtain ⟨hms, h₃⟩ := hm
  refine builds_bind (builds_refuse (by decide)) fun _ _ ms' ts₄ _ hm => ?_
  obtain ⟨rfl, rfl, m, ls', rfl, hl, hc, -⟩ := hm
  refine builds_bind builds_directiveWords fun _ _ ms ts₄ _ hm => ?_
  obtain ⟨hw, -, hne⟩ := hm
  have hne := hne m ls' rfl (head_dropWhile hms rfl) hl hc
  refine (builds_endOfLine rfl).mono ?_
  rintro _ ls' ts₅ ⟨rfl, h₅, -⟩
  have hi : nodesOf (ts₁ ++ (ts₂ ++ (ts₃ ++ ([] ++ (ts₄ ++ ts₅))))) = nodesOf ts₄ := by
    simp [h₁.nodes, h₂.nodes, h₃.nodes, h₅.nodes]
  refine ⟨⟨(Node.token?_isSome _ _).2 ⟨n.token.text, ?_⟩, WordsOf.holds ?_, WordsOf.ne_nil ?_ ?_⟩,
    rfl, _, rfl⟩
  · simp [h₂.marks, hk]
  · rwa [hi]
  · rwa [hi]
  · rwa [hi]

theorem builds_command {n : Nest} (hb : NodeKind.recipe.allows n.kind = true) {q : Token → Bool}
    (hq : q n.token = true) : Builds .recipe command (n :: ns) fun _ ms ts =>
      ms = [] ∧ kinds ts = [.expression] ∧ LedBy q ts := by
  refine builds_of_sound fun hl => ?_
  obtain ⟨-, htrees⟩ := hl.head.eq_leaf hb
  refine builds_bind (builds_take hb) fun _ _ _ ts₁ hs₁ hm => ?_
  obtain ⟨rfl, rfl⟩ := hm
  refine builds_bind builds_skipWhitespace fun _ _ ms ts₂ hs₂ hm => ?_
  obtain ⟨hms, h₂⟩ := hm
  have hns : ∀ m ∈ ms.head?, m.isWhitespace = false := hms ▸ Nest.head?_dropWhile_blanks _
  refine builds_bind (builds_expression hns (.inr (.inl rfl))) fun _ _ _ ts₃ hs₃ hm => ?_
  obtain ⟨rfl, e, rfl, -⟩ := hm
  refine builds_bind builds_skipWhitespace fun _ _ ls ts₄ hs₄ hm => ?_
  obtain ⟨hls, h₄⟩ := hm
  have hd := Nest.drop_span ms
  rw [← hls] at hd
  rw [hs₁, hs₂, hs₃, hs₄] at hl
  refine (builds_advanceIf fun _ => bare_of_isLineBreak).mono ?_
  rintro _ ms' ts₅ h₅
  have hi : nodesOf ts₅ = [] := by
    obtain ⟨m, -, -, hm⟩ | ⟨-, -, rfl⟩ := h₅
    · exact hm.nodes
    · rfl
  have hend : ms' = [] := by
    obtain ⟨m, hb, rfl, -⟩ | ⟨hn, rfl, -⟩ := h₅
    · exact hl.suffix.suffix.suffix.suffix.single.eq_nil hb
    · cases ms' with
      | nil => rfl
      | cons m ms' => exact absurd (hd.symm.trans hn) (by decide)
  refine ⟨hend, ?_, n.first, hq, htrees ▸ List.prefix_append _ _⟩
  simp [htrees, h₂.kinds, h₄.kinds, kinds_of_nodesOf hi]

end Line

end Parser

end MakeTree
