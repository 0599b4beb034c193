import MakeTree.Proofs.Grammar.Definition
import MakeTree.Proofs.Nest.Regroup
import MakeTree.Proofs.Nest.Trimmed

/-!
What parsers build, to the tree. `Gives p ns Q` says that `p`, if it succeeds in front of the nests
`ns`, builds trees with `Q` of its value, the nests it leaves and these trees. Nothing is said of
runs that fail, so what a later parser needs to find can be taken as found (`gives_expect`).
-/

namespace MakeTree

namespace Nest

/-- The trees of a run of blanks, or of a word. -/
def runTrees (run : List Nest) : List Tree :=
  if run.all isWhitespace then treesOf run else [.node .expression (treesOf run)]

/-- The trees of words with blanks between them. -/
def wordTrees (ns : List Nest) : List Tree := (wordRuns ns).flatMap runTrees

def endsLine (n : Nest) : Bool := n.isLineBreak || n.isComment

theorem endsLine_of_isWhitespace {n : Nest} (h : n.isWhitespace = true) : n.endsLine = false := by
  have hk : n.kind = .whitespace := beq_iff_eq.1 h
  simp [endsLine, isLineBreak, isComment, hk]

/-- The nests with `q` in front of the first without. -/
structure Skipped (q : Nest → Bool) (us rest : List Nest) : Prop where
  all : ∀ n ∈ us, q n = true
  next : ∀ n ∈ rest.head?, q n = false

theorem skipped_takeWhile (q : Nest → Bool) (ns : List Nest) :
    Skipped q (ns.takeWhile q) (ns.dropWhile q) where
  all n hn := List.mem_takeWhile_imp hn
  next n hn := by
    have h := List.head?_dropWhile_not q ns
    rw [hn] at h
    simpa using h

theorem Skipped.dropWhile {q : Nest → Bool} {us rest : List Nest} (h : Skipped q us rest) :
    (us ++ rest).dropWhile q = rest := by
  rw [List.dropWhile_append_of_pos h.all]
  cases rest with
  | nil => rfl
  | cons n rest => exact List.dropWhile_cons_of_neg (by simp [h.next n rfl])

/-- A run on one line up to the first that is a stop. Blanks at the end are not part of it. -/
structure Spanned (stop : Nest → Bool) (us rest : List Nest) : Prop where
  all : ∀ n ∈ us, n.isLineBreak = false ∧ stop n = false
  last : ∀ n ∈ us.getLast?, n.isWhitespace = false
  next : ∀ n ∈ (rest.dropWhile isWhitespace).head?, n.isLineBreak = true ∨ stop n = true

theorem spanned_span {stop : Nest → Bool} (hs : ∀ n, n.isWhitespace = true → stop n = false)
    (ns : List Nest) : Spanned stop (span stop ns) (ns.drop (span stop ns).length) where
  all n hn := by simpa using List.mem_takeWhile_imp ((trimEnd_isPrefix _).subset hn)
  last := trimEnd_getLast? _
  next n hn := by
    rw [dropWhile_drop_span hs] at hn
    have h := List.head?_dropWhile_not (fun n : Nest => !n.isLineBreak && !stop n) ns
    rw [hn] at h
    simpa [imp_iff_not_or] using h

theorem Spanned.ne_nil {stop : Nest → Bool} {us rest : List Nest} (h : Spanned stop us rest)
    {n : Nest} {ns : List Nest} (hn : us ++ rest = n :: ns) (hw : n.isWhitespace = false)
    (hl : n.isLineBreak = false) (hs : stop n = false) : us ≠ [] := by
  rintro rfl
  have hnext := h.next
  rw [show rest = n :: ns from hn, List.dropWhile_cons_of_neg (by simp [hw])] at hnext
  rcases hnext n rfl with hb | hb
  · rw [hl] at hb
    cases hb
  · rw [hs] at hb
    cases hb

end Nest

namespace Parser

variable {α β : Type}

def Gives (p : Parser α) (ns : List Nest) (Q : α → List Nest → List Tree → Prop) : Prop :=
  ∀ outer es a s, p ⟨ns, outer, es⟩ = .ok a s → ∃ ts, s.built = outer ++ ts ∧ Q a s.unread ts

variable {ns : List Nest} {p : Parser α} {f : α → Parser β} {q : Nest → Bool}
  {Q : α → List Nest → List Tree → Prop} {W : β → List Nest → List Tree → Prop}

theorem Gives.of_takes (h : Gives p ns Q) {a : α} {ms : List Nest} {ts : List Tree}
    (ht : Takes p ns a ms ts) : Q a ms ts := by
  obtain ⟨es, ht⟩ := ht [] []
  obtain ⟨us, hus, hq⟩ := h [] [] _ _ ht
  obtain rfl : ts = us := hus
  exact hq

theorem Gives.mono {Q' : α → List Nest → List Tree → Prop} (h : Gives p ns Q)
    (hQ : ∀ a ms ts, Q a ms ts → Q' a ms ts) : Gives p ns Q' := by
  intro outer es a s hp
  obtain ⟨ts, hb, hq⟩ := h outer es a s hp
  exact ⟨ts, hb, hQ _ _ _ hq⟩

theorem gives_pure {a : α} (h : Q a ns []) : Gives (pure a) ns Q := by
  intro outer es b s hp
  cases hp
  exact ⟨[], (List.append_nil _).symm, h⟩

theorem gives_bind (hp : Gives p ns Q) (hf : ∀ a ms ts, Q a ms ts →
    Gives (f a) ms fun b ls us => W b ls (ts ++ us)) : Gives (p >>= f) ns W := by
  intro outer es b s h
  obtain ⟨a, ⟨ms, built, es'⟩, hr, h⟩ := bind_ok h
  obtain ⟨ts, rfl, hq⟩ := hp outer es a _ hr
  obtain ⟨us, hb, hw⟩ := hf a ms ts hq (outer ++ ts) es' b s h
  exact ⟨ts ++ us, by rw [hb, List.append_assoc], hw⟩

theorem gives_within {k : NodeKind} (h : Gives p ns Q) :
    Gives (within k p) ns fun a ms ts => ∃ us, ts = [.node k us] ∧ Q a ms us := by
  intro outer es a s hp
  obtain ⟨s', hr, hu, hb⟩ := within_ok hp
  obtain ⟨us, hus, hq⟩ := h [] es a s' hr
  rw [List.nil_append] at hus
  exact ⟨[.node k us], by rw [hb, hus], us, rfl, hu ▸ hq⟩

theorem gives_ite {c : Prop} [Decidable c] {p' : Parser α} (h : c → Gives p ns Q)
    (h' : ¬ c → Gives p' ns Q) : Gives (if c then p else p') ns Q := by
  by_cases hc : c
  · rw [if_pos hc]
    exact h hc
  · rw [if_neg hc]
    exact h' hc

theorem gives_fail {expected : List Expected} : Gives (fail expected) ns Q := by
  intro outer es a s hp
  cases hp

theorem gives_unread_bind {f : List Nest → Parser β} (h : Gives (f ns) ns W) :
    Gives (unread >>= f) ns W := h

theorem gives_kind?_bind {f : Option TokenKind → Parser β}
    (h : Gives (f (ns.head?.map Nest.kind)) ns W) : Gives (kind? >>= f) ns W := h

theorem gives_nextIs_bind {f : Bool → Parser β} (h : Gives (f (ns.head?.any q)) ns W) :
    Gives (nextIs q >>= f) ns W := h

theorem gives_endsOr_bind {f : Bool → Parser β}
    (h : Gives (f (ns.head?.all fun n => n.isLineBreak || n.isComment || q n)) ns W) :
    Gives (endsOr q >>= f) ns W := h

section Basic

variable {expected : List Expected}

theorem gives_move (us ms : List Nest) : Gives (move us.length) (us ++ ms)
    fun _ ls ts => ls = ms ∧ ts = Nest.treesOf us := by
  intro outer es a s hp
  cases hp
  exact ⟨Nest.treesOf us, by simp, by simp, rfl⟩

theorem gives_moveWhile : Gives (moveWhile q) ns fun _ ms ts =>
    ∃ us, ns = us ++ ms ∧ ts = Nest.treesOf us ∧ Nest.Skipped q us ms := by
  have h : Gives (moveWhile q) ns fun _ ms ts =>
      ms = ns.dropWhile q ∧ ts = Nest.treesOf (ns.takeWhile q) := by
    have h := gives_move (ns.takeWhile q) (ns.dropWhile q)
    rwa [List.takeWhile_append_dropWhile] at h
  refine h.mono ?_
  rintro _ ms ts ⟨rfl, rfl⟩
  exact ⟨_, List.takeWhile_append_dropWhile.symm, rfl, Nest.skipped_takeWhile q ns⟩

theorem gives_advance (n : Nest) (ms : List Nest) :
    Gives advance (n :: ms) fun _ ls ts => ls = ms ∧ ts = Nest.treesOf [n] :=
  gives_move [n] ms

theorem gives_advanceIf : Gives (advanceIf q) ns fun _ ms ts =>
    (∃ n, q n = true ∧ ns = n :: ms ∧ ts = Nest.treesOf [n]) ∨
      ns.head?.any q = false ∧ ms = ns ∧ ts = [] := by
  refine gives_nextIs_bind ?_
  cases ns with
  | nil => exact gives_pure (.inr ⟨rfl, rfl, rfl⟩)
  | cons n ns =>
    refine gives_ite (fun h => ?_) fun h => gives_pure (.inr ⟨by simpa using h, rfl, rfl⟩)
    refine (gives_advance n ns).mono ?_
    rintro _ ms ts ⟨rfl, rfl⟩
    exact .inl ⟨n, h, rfl, rfl⟩

theorem gives_expect : Gives (expect q expected) ns fun _ ms ts =>
    ∃ n, q n = true ∧ ns = n :: ms ∧ ts = Nest.treesOf [n] := by
  refine gives_nextIs_bind ?_
  cases ns with
  | nil => exact gives_fail
  | cons n ns =>
    refine gives_ite (fun h => ?_) fun _ => gives_fail
    refine (gives_advance n ns).mono ?_
    rintro _ ms ts ⟨rfl, rfl⟩
    exact ⟨n, h, rfl, rfl⟩

theorem gives_refuse : Gives (refuse q expected) ns fun _ ms ts => ms = ns ∧ ts = [] ∧
    ∃ n ls, ns = n :: ls ∧ n.isLineBreak = false ∧ n.isComment = false ∧ q n = false := by
  refine gives_endsOr_bind ?_
  cases ns with
  | nil => exact gives_fail
  | cons n ns =>
    refine gives_ite (fun _ => gives_fail) fun h => ?_
    simp only [List.head?_cons, Option.all_some, Bool.or_eq_true, not_or, Bool.not_eq_true] at h
    exact gives_pure ⟨rfl, rfl, n, ns, rfl, h.1.1, h.1.2, h.2⟩

theorem gives_endsLine : Gives endOfLine ns fun _ ms ts => ∃ us, ns = us ++ ms ∧
    ts = Nest.treesOf us ∧
    (∀ n ∈ us.dropWhile Nest.isWhitespace, n.isComment = true ∨ n.isLineBreak = true) ∧
    (ms ≠ [] → ∃ vs n, us = vs ++ [n] ∧ n.isLineBreak = true) := by
  refine gives_bind gives_moveWhile fun _ ms ts hm => ?_
  obtain ⟨us, rfl, rfl, hus⟩ := hm
  refine gives_bind gives_advanceIf fun _ ls ts hc => ?_
  obtain ⟨vs, rfl, rfl, hall⟩ : ∃ vs, ms = vs ++ ls ∧ ts = Nest.treesOf vs ∧
      ∀ n ∈ vs, n.isComment = true := by
    obtain ⟨n, hn, rfl, rfl⟩ | ⟨-, rfl, rfl⟩ := hc
    · exact ⟨[n], rfl, rfl, by simpa using hn⟩
    · exact ⟨[], rfl, rfl, nofun⟩
  have hvs : (us ++ vs).dropWhile Nest.isWhitespace = vs := by
    refine Nest.Skipped.dropWhile ⟨hus.all, fun n hn => hus.next n ?_⟩
    rw [List.head?_append, show vs.head? = some n from hn]
    rfl
  refine gives_unread_bind ?_
  cases ls with
  | nil =>
    refine gives_pure ⟨us ++ vs, (List.append_assoc us vs []).symm, ?_, fun n hn => .inl ?_, nofun⟩
    · rw [Nest.treesOf_append, List.append_nil]
    · rw [hvs] at hn
      exact hall n hn
  | cons n ls =>
    refine gives_expect.mono ?_
    rintro _ ls' ws ⟨m, hm, he, rfl⟩
    obtain ⟨rfl, rfl⟩ := List.cons.inj he
    refine ⟨(us ++ vs) ++ [n], by simp, ?_, fun k hk => ?_, fun _ => ⟨us ++ vs, n, rfl, hm⟩⟩
    · rw [Nest.treesOf_append, Nest.treesOf_append, List.append_assoc]
    · rw [List.append_assoc] at hk
      have hnext : Nest.Skipped Nest.isWhitespace us (vs ++ [n]) := by
        refine ⟨hus.all, fun m hm => hus.next m ?_⟩
        simpa [List.head?_append] using hm
      rw [hnext.dropWhile] at hk
      rcases List.mem_append.1 hk with hk | hk
      · exact .inl (hall k hk)
      · exact .inr (List.mem_singleton.1 hk ▸ hm)

theorem gives_endOfLine (hs : Nest.Single ns) : Gives endOfLine ns fun _ ms ts =>
    ms = [] ∧ ts = Nest.treesOf ns ∧
      ∀ n ∈ ns.dropWhile Nest.isWhitespace, n.isComment = true ∨ n.isLineBreak = true := by
  refine gives_endsLine.mono ?_
  rintro _ ms ts ⟨us, rfl, rfl, hall, hbreak⟩
  obtain rfl : ms = [] := by
    by_contra hne
    obtain ⟨vs, n, rfl, hn⟩ := hbreak hne
    rw [List.append_assoc] at hs
    exact hne (hs.suffix.eq_nil hn)
  rw [List.append_nil]
  exact ⟨rfl, rfl, hall⟩

end Basic

section Expression

theorem gives_expressionOf (us ms : List Nest) : Gives (expressionOf us) (us ++ ms)
    fun _ ls ts => ls = ms ∧ ts = [.node .expression (Nest.treesOf us)] := by
  intro outer es a s hp
  obtain ⟨-, hunread, hbuilt⟩ := expressionOf_ok hp
  exact ⟨_, hbuilt, hunread, rfl⟩

theorem gives_first {us : List Nest} (h : us <+: ns) : Gives (expressionOf us) ns
    fun _ ms ts => ns = us ++ ms ∧ ms = ns.drop us.length ∧
      ts = [.node .expression (Nest.treesOf us)] := by
  obtain ⟨vs, rfl⟩ := h
  refine (gives_expressionOf us vs).mono ?_
  rintro _ ms ts ⟨rfl, rfl⟩
  exact ⟨rfl, List.drop_left.symm, rfl⟩

theorem gives_expression (hq : ∀ n, n.isWhitespace = true → q n = false) :
    Gives (expression q) ns fun _ ms ts => ∃ us, ns = us ++ ms ∧
      ts = [.node .expression (Nest.treesOf us)] ∧ Nest.Spanned q us ms := by
  refine gives_unread_bind ((gives_first (Nest.span_isPrefix q ns)).mono ?_)
  rintro _ ms ts ⟨h, rfl, rfl⟩
  exact ⟨_, h, rfl, Nest.spanned_span hq ns⟩

theorem gives_operand : Gives (operand q) ns fun _ ms ts =>
    ns = Nest.trimEnd (Nest.takeOperand q 0 ns) ++ ms ∧
      ts = [.node .expression (Nest.treesOf (Nest.trimEnd (Nest.takeOperand q 0 ns)))] := by
  have hp : Nest.trimEnd (Nest.takeOperand q 0 ns) <+: ns :=
    (Nest.trimEnd_isPrefix _).trans (Nest.takeOperand_isPrefix q 0 ns)
  exact gives_unread_bind ((gives_first hp).mono fun _ _ _ h => ⟨h.1, h.2.2⟩)

theorem gives_runs (runs : List (List Nest)) (ms : List Nest) :
    Gives (runs.forM fun run : List Nest =>
      if run.all Nest.isWhitespace then move run.length else expressionOf run)
      (runs.flatten ++ ms) fun _ ls ts => ls = ms ∧ ts = runs.flatMap Nest.runTrees := by
  induction runs with
  | nil => exact gives_pure ⟨rfl, rfl⟩
  | cons run runs ih =>
    have hrun : Gives (if run.all Nest.isWhitespace then move run.length else expressionOf run)
        (run ++ (runs.flatten ++ ms))
        fun _ ls ts => ls = runs.flatten ++ ms ∧ ts = Nest.runTrees run := by
      unfold Nest.runTrees
      refine gives_ite (fun h => ?_) fun h => ?_
      · rw [if_pos h]
        exact gives_move run _
      · rw [if_neg h]
        exact gives_expressionOf run _
    rw [List.flatten_cons, List.append_assoc]
    refine gives_bind hrun fun _ ls ts hls => ?_
    obtain ⟨rfl, rfl⟩ := hls
    refine ih.mono ?_
    rintro _ ls us ⟨rfl, rfl⟩
    exact ⟨rfl, rfl⟩

theorem gives_words (hq : ∀ n, n.isWhitespace = true → q n = false) :
    Gives (words q) ns fun _ ms ts => ∃ us, ns = us ++ ms ∧ ts = Nest.wordTrees us ∧
      Nest.Spanned (fun n => n.isComment || q n) us ms := by
  refine gives_unread_bind ?_
  have hq (n : Nest) (h : n.isWhitespace = true) : (n.isComment || q n) = false := by
    have hk : n.kind = .whitespace := beq_iff_eq.1 h
    simp [Nest.isComment, hk, hq n h]
  have hs := Nest.spanned_span hq ns
  set us := Nest.span (fun n => n.isComment || q n) ns
  have hd : us ++ ns.drop us.length = ns :=
    List.prefix_iff_eq_append.1 (Nest.span_isPrefix _ ns)
  have h := gives_runs (Nest.wordRuns us) (ns.drop us.length)
  rw [show (Nest.wordRuns us).flatten = us from List.flatten_splitBy _ us, hd] at h
  refine h.mono ?_
  rintro _ ms ts ⟨rfl, rfl⟩
  exact ⟨us, hd.symm, rfl, hs⟩

end Expression

end Parser

end MakeTree
