import MakeTree.Grammar.Expression
import Mathlib.Data.List.SplitBy

/-!
Nests without a blank at either end (`Nest.Trimmed`), as expressions are made of: what comes behind
blanks that were skipped, without the blanks behind it (`Nest.trimmed_span`), and words
(`Nest.trimmed_run`).
-/

namespace MakeTree.Nest

variable {ns us run : List Nest}

theorem trimEnd_getLast? (ns : List Nest) : ∀ n ∈ (trimEnd ns).getLast?, n.isWhitespace = false := by
  induction ns with
  | nil => exact fun _ hn => by cases hn
  | cons n ns ih =>
    unfold trimEnd
    cases ht : trimEnd ns with
    | nil =>
      by_cases hn : n.isWhitespace = true
      · simp [hn]
      · simp [hn]
    | cons m ms =>
      rw [ht] at ih
      rwa [List.getLast?_cons_cons]

/-- The nests neither start nor end with a blank. -/
structure Trimmed (ns : List Nest) : Prop where
  first : ∀ n ∈ ns.head?, n.isWhitespace = false
  last : ∀ n ∈ ns.getLast?, n.isWhitespace = false

theorem head?_dropWhile_blanks (ns : List Nest) :
    ∀ n ∈ (ns.dropWhile isWhitespace).head?, n.isWhitespace = false := by
  intro n hn
  have h := List.head?_dropWhile_not isWhitespace ns
  rw [hn] at h
  simpa using h

theorem trimmed_trimEnd (h : us <+: ns) (hn : ∀ n ∈ ns.head?, n.isWhitespace = false) :
    Trimmed (trimEnd us) := by
  refine ⟨fun m hm => ?_, trimEnd_getLast? us⟩
  obtain ⟨vs, rfl⟩ := (trimEnd_isPrefix us).trans h
  apply hn
  rw [List.head?_append, hm]
  rfl

theorem trimmed_span {stop : Nest → Bool} (hn : ∀ n ∈ ns.head?, n.isWhitespace = false) :
    Trimmed (span stop ns) :=
  trimmed_trimEnd (List.takeWhile_prefix _) hn

theorem isWhitespace_run (h : run ∈ wordRuns ns) : ∃ b, ∀ n ∈ run, n.isWhitespace = b := by
  obtain ⟨n, ms, rfl⟩ := List.exists_cons_of_ne_nil (List.ne_nil_of_mem_splitBy h)
  have hc := List.isChain_of_mem_splitBy h
  have : IsTrans Nest fun m n => (m.isWhitespace == n.isWhitespace) = true :=
    ⟨fun _ _ _ h h' => by rw [beq_iff_eq] at h h' ⊢; exact h.trans h'⟩
  refine ⟨n.isWhitespace, fun m hm => ?_⟩
  rcases List.mem_cons.1 hm with rfl | hm
  · rfl
  · have hn := List.rel_of_pairwise_cons (List.isChain_iff_pairwise.1 hc) hm
    exact (beq_iff_eq.1 hn).symm

theorem not_isWhitespace_run (h : run ∈ wordRuns ns) (hw : ¬ run.all isWhitespace = true) :
    ∀ n ∈ run, n.isWhitespace = false := by
  obtain ⟨b, hb⟩ := isWhitespace_run h
  cases b with
  | false => exact hb
  | true => exact absurd (List.all_eq_true.2 hb) hw

theorem trimmed_run (h : run ∈ wordRuns ns) (hw : ¬ run.all isWhitespace = true) : Trimmed run where
  first n hn := not_isWhitespace_run h hw n (List.mem_of_mem_head? hn)
  last n hn := not_isWhitespace_run h hw n (List.mem_of_getLast? hn)

end MakeTree.Nest
