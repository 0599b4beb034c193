import MakeTree.Proofs.Grammar.Soundness

/-!
The extent of what is parsed. The trees of a task hold its line and those of the lines that it
takes (`Parses.extent`), nothing else and nothing twice.
-/

namespace MakeTree

theorem Context.node_ne (ctx : Context) : ctx.node ≠ .condition := by cases ctx <;> decide

theorem Context.branch_ne (ctx : Context) : ctx.branch ≠ .condition := by cases ctx <;> decide

namespace Parser

/-- Wherever they stand, but for conditions, the trees hold the nests. -/
def Spans (ns : List Nest) (ts : List Tree) : Prop :=
  ∀ k, k ≠ .condition → Reading (fun _ => True) k (Nest.flattenAll ns) ts

theorem Held.spans {ns : List Nest} {ts : List Tree} (h : Held ns ts) : Spans ns ts :=
  fun k hk => (h k hk).mono fun _ _ => trivial

namespace Spans

variable {ms ns : List Nest} {ts us : List Tree}

theorem nil : Spans [] [] := fun k _ => .nil k

theorem append (h : Spans ms ts) (h' : Spans ns us) : Spans (ms ++ ns) (ts ++ us) := by
  intro k hk
  rw [Nest.flattenAll_append]
  exact (h k hk).append (h' k hk)

theorem node (h : Spans ns ts) {k : NodeKind} (hk : k ≠ .condition) : Spans ns [.node k ts] :=
  fun _ _ => .node trivial (h k hk)

theorem lines {line : Line} {used used' : List Line} (h : Spans (line ++ used.flatten) ts)
    (h' : Spans used'.flatten us) : Spans (line :: (used ++ used')).flatten (ts ++ us) := by
  have hs := h.append h'
  rwa [List.append_assoc, ← List.flatten_append, ← List.flatten_cons] at hs

end Spans

theorem Held.alone {line : Line} {ts : List Tree} (h : Held line ts) :
    Spans (line ++ ([] : List Line).flatten) ts := by
  rw [List.flatten_nil, List.append_nil]
  exact h.spans

/-- The line a task starts on. -/
def Task.line : Task → Line
  | .statement line => line
  | .item line => line
  | .conditional _ line => line
  | .closing _ line => line
  | .branch _ => []
  | .recipes => []
  | .file => []

theorem Parses.extent {task : Task} {lines rest : List Line} {ts : List Tree}
    (h : Parses task lines ts rest) :
    ∃ used, lines = used ++ rest ∧ Spans (task.line ++ used.flatten) ts := by
  induction h with
  | alone _ held _ => exact ⟨_, rfl, held.spans⟩
  | rule _ _ held _ ih =>
    obtain ⟨used, hu, hs⟩ := ih
    exact ⟨used, hu, (held.spans.append hs).node (by decide)⟩
  | statementConditional _ _ ih => exact ih
  | item _ _ held _ => exact ⟨[], rfl, held.alone⟩
  | itemConditional _ _ ih => exact ih
  | @conditional ctx line mid lines after rest hd br cl _ held _ _ _ ihb ihc =>
    obtain ⟨used, hu, hs⟩ := ihb
    obtain ⟨used', hu', hs'⟩ := ihc
    refine ⟨used ++ mid :: used', by simp [hu, hu'], ?_⟩
    rw [List.flatten_append, List.flatten_cons]
    exact (held.spans.append ((hs.node ctx.branch_ne).append hs')).node ctx.node_ne
  | closingEndif _ _ held _ => exact ⟨[], rfl, held.alone⟩
  | @closingChained ctx us line lines rest hd ts _ _ held _ _ _ ih =>
    obtain ⟨used, hu, hs⟩ := ih
    refine ⟨used, hu, ?_⟩
    rw [Task.line, List.append_assoc]
    exact (held.spans.append hs).node (by decide)
  | @closingOtherwise ctx us line mid lines after rest hd el br ts _ _ held _ _ _ held' _ _ _ _
      ihb ihc =>
    obtain ⟨used, hu, hs⟩ := ihb
    obtain ⟨used', hu', hs'⟩ := ihc
    refine ⟨used ++ mid :: used', by simp [hu, hu'], ?_⟩
    have he := (held.spans.append (held'.spans.append (hs.node ctx.branch_ne))).node
      (k := .elseBranch) (by decide)
    simpa [Task.line] using he.append hs'
  | branchEnd => exact ⟨[], rfl, .nil⟩
  | @branchEntry ctx line lines mid rest ts us _ _ _ ih ihb =>
    obtain ⟨used, rfl, hs⟩ := ih
    obtain ⟨used', rfl, hs'⟩ := ihb
    refine ⟨line :: (used ++ used'), by simp, ?_⟩
    have hl : (Task.entry ctx line).line = line := by cases ctx <;> rfl
    rw [hl] at hs
    exact hs.lines hs'
  | @recipesItem line lines mid rest ts us _ _ _ ih ihr =>
    obtain ⟨used, rfl, hs⟩ := ih
    obtain ⟨used', rfl, hs'⟩ := ihr
    exact ⟨line :: (used ++ used'), by simp, hs.lines hs'⟩
  | fileEnd => exact ⟨[], rfl, .nil⟩
  | @fileStatement line lines mid rest ts us _ _ ih ihf =>
    obtain ⟨used, rfl, hs⟩ := ih
    obtain ⟨used', rfl, hs'⟩ := ihf
    exact ⟨line :: (used ++ used'), by simp, hs.lines hs'⟩
  | recipesEnd => exact ⟨[], rfl, .nil⟩

end Parser

end MakeTree
