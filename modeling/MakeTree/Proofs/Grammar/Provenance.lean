import MakeTree.Proofs.Grammar.Extent
import MakeTree.Proofs.Nest.Segment
import MakeTree.Proofs.Tree.Places

/-!
Where the statements of a tree come from. What stands on the top level of a text or in a branch is a
statement that was parsed as such, from a line of the text on that starts where the statement stands
(`Parses.entries`, `Parses.every`).
-/

namespace MakeTree

namespace Parser

/-- The tree is a statement that starts on one of the lines, and stands where the line does. -/
def StatementAt (lines : List Line) (p : Placed) : Prop :=
  ∃ line ls rest, (line :: ls) <:+ lines ∧ Nest.Seated p.start (line :: ls).flatten ∧
    Parses (.statement line) ls [p.tree] rest

/-- The nodes among the trees are statements that start on the lines. -/
def Entries (lines : List Line) (ps : List Placed) : Prop :=
  ∀ p ∈ ps, ¬ p.tree.IsLeaf → StatementAt lines p

variable {lines rest : List Line} {ts : List Tree} {ps qs : List Placed}

theorem Entries.mono {ls : List Line} (h : Entries ls ps) (hs : ls <:+ lines) :
    Entries lines ps := by
  intro p hp hl
  obtain ⟨line, ls', rest, hsuf, hp⟩ := h p hp hl
  exact ⟨line, ls', rest, hsuf.trans hs, hp⟩

theorem Entries.append (h : Entries lines ps) (h' : Entries lines qs) :
    Entries lines (ps ++ qs) :=
  fun p hp => (List.mem_append.1 hp).elim (h p) (h' p)

section Seats

variable {start : Nat}

theorem Spans.seat {ms ns : List Nest} (h : Spans ms ts) (hs : Nest.Seated start (ms ++ ns)) :
    Nest.Seated (start + (Tree.textOf ts).byteSize) ns := by
  obtain ⟨h₁, h₂⟩ := hs.split
  rwa [(h .root (by decide)).textOf h₁]

theorem Held.seat {ms ns : List Nest} (h : Held ms ts) (hs : Nest.Seated start (ms ++ ns)) :
    Nest.Seated (start + (Tree.textOf ts).byteSize) ns :=
  h.spans.seat hs

theorem Parses.seat {task : Task} (h : Parses task lines ts rest)
    (hs : Nest.Seated start (task.line ++ lines.flatten)) :
    Nest.Seated (start + (Tree.textOf ts).byteSize) rest.flatten := by
  obtain ⟨used, rfl, hspan⟩ := h.extent
  rw [List.flatten_append, ← List.append_assoc] at hs
  exact hspan.seat hs

theorem Parses.statement_trees {line : Line} (h : Parses (.statement line) lines ts rest) :
    Tree.Statement ts := by
  generalize ht : Task.statement line = task at h
  cases h with
  | alone _ _ hs => exact hs
  | rule => exact .inl ⟨_, _, rfl⟩
  | statementConditional _ h =>
    cases h
    exact .inl ⟨_, _, rfl⟩
  | _ => cases ht

theorem Parses.statement_entries {line : Line} (h : Parses (.statement line) lines ts rest)
    (hs : Nest.Seated start (line :: lines).flatten) (depth : Nat) :
    Entries (line :: lines) (Tree.seats depth start ts) := by
  intro p hp hleaf
  rcases h.statement_trees with ⟨k', us', rfl⟩ | hl
  · obtain rfl := List.mem_singleton.1 hp
    exact ⟨line, lines, rest, List.suffix_refl _, hs, h⟩
  · refine absurd (hl p.tree ?_) hleaf
    rw [← Tree.map_tree_seats depth start ts]
    exact List.mem_map_of_mem hp

/-- What stands in a branch of statements or on the top level. -/
theorem Parses.entries {task : Task} (h : Parses task lines ts rest)
    (ht : task = .branch .statements ∨ task = .file) (hs : Nest.Seated start lines.flatten)
    (depth : Nat) : Entries lines (Tree.seats depth start ts) := by
  induction h generalizing start with
  | branchEnd => exact nofun
  | fileEnd => exact nofun
  | @branchEntry ctx line lines mid rest ts us _ h _ _ ihb =>
    obtain rfl : ctx = .statements := by
      rcases ht with ht | ht
      · cases ht
        rfl
      · cases ht
    rw [Tree.seats_append]
    exact (h.statement_entries hs depth).append
      ((ihb ht (h.seat hs)).mono (h.suffix.trans (List.suffix_cons _ _)))
  | fileStatement h _ _ ihf =>
    rw [Tree.seats_append]
    exact (h.statement_entries hs depth).append
      ((ihf ht (h.seat hs)).mono (h.suffix.trans (List.suffix_cons _ _)))
  | _ =>
    rcases ht with ht | ht
    · cases ht
    · cases ht

variable {kind : NodeKind} (hkind : ¬ kind.Inner)

include hkind

theorem Held.every {ns : List Nest} (h : Held ns ts) (Q : List Placed → Prop) (depth : Nat) :
    Tree.EveryAt kind Q depth start ts :=
  .of_every ((h .root (by decide)).every hkind _)

theorem every_node {k : NodeKind} {Q : List Placed → Prop} {depth : Nat}
    (h : Tree.EveryAt kind Q (depth + 1) start ts) (hk : k.Inner) :
    Tree.EveryAt kind Q depth start [.node k ts] :=
  h.node fun he => absurd (he ▸ hk) hkind

theorem Parses.branch_node {ctx : Context} (hb : Parses (.branch ctx) lines ts rest)
    (hs : Nest.Seated start lines.flatten) {depth : Nat}
    (h : Tree.EveryAt kind (Entries lines) (depth + 1) start ts) :
    Tree.EveryAt kind (Entries lines) depth start [.node ctx.branch ts] := by
  cases ctx with
  | statements => exact h.node fun _ => hb.entries (.inl rfl) hs _
  | recipe => exact every_node hkind h ⟨by decide, by decide⟩

/-- What stands in any branch. There is no root inside of a tree. -/
theorem Parses.every {task : Task} (h : Parses task lines ts rest)
    (hs : Nest.Seated start (task.line ++ lines.flatten)) (depth : Nat) :
    Tree.EveryAt kind (Entries lines) depth start ts := by
  have mono {ls lines : List Line} {depth start : Nat} {ts : List Tree}
      (h : Tree.EveryAt kind (Entries ls) depth start ts) (hs : ls <:+ lines) :
      Tree.EveryAt kind (Entries lines) depth start ts :=
    h.mono fun _ he => he.mono hs
  have inner (ctx : Context) : ctx.node.Inner := by cases ctx <;> exact ⟨by decide, by decide⟩
  induction h generalizing start depth with
  | alone _ held _ => exact held.every hkind _ _
  | rule _ _ held _ ih =>
    exact every_node hkind ((held.every hkind _ _).append (ih (held.seat hs) _))
      ⟨by decide, by decide⟩
  | statementConditional _ _ ih => exact ih hs depth
  | item _ _ held _ => exact held.every hkind _ _
  | itemConditional _ _ ih => exact ih hs depth
  | @conditional ctx line mid lines after rest hd br cl _ held _ hb hc ihb ihc =>
    have hsuf : after <:+ lines := (List.suffix_cons mid after).trans hb.suffix
    have hbs := held.seat hs
    have hbr := hb.branch_node hkind hbs (ihb hbs (depth + 1 + 1))
    have hcs : Nest.Seated _ (mid ++ after.flatten) := hb.seat hbs
    have htext : Tree.textOf [.node ctx.branch br] = Tree.textOf br := List.append_nil _
    rw [← htext] at hcs
    exact every_node hkind ((held.every hkind _ _).append
      (hbr.append (mono (ihc hcs (depth + 1)) hsuf))) (inner ctx)
  | closingEndif _ _ held _ => exact held.every hkind _ _
  | @closingChained ctx us line lines rest hd ts _ _ held _ _ _ ih =>
    rw [Task.line, List.append_assoc] at hs
    exact every_node hkind ((held.every hkind _ _).append (ih (held.seat hs) _))
      ⟨by decide, by decide⟩
  | @closingOtherwise ctx us line mid lines after rest hd el br ts _ _ held _ _ _ held' _ hb _ _
      ihb ihc =>
    have hsuf : after <:+ lines := (List.suffix_cons mid after).trans hb.suffix
    rw [Task.line, List.append_assoc] at hs
    have hls := held.seat hs
    have hbs := held'.seat hls
    have hbr := hb.branch_node hkind hbs (ihb hbs (depth + 1 + 1))
    have hcs : Nest.Seated _ (mid ++ after.flatten) := hb.seat hbs
    have htext : start + (Tree.textOf [.node .elseBranch
        (hd ++ (el ++ [.node ctx.branch br]))]).byteSize =
        start + (Tree.textOf hd).byteSize + (Tree.textOf el).byteSize +
          (Tree.textOf br).byteSize := by
      simp [Tree.textOf, Tree.text, Nat.add_assoc]
    rw [← htext] at hcs
    have hel := every_node hkind (k := .elseBranch)
      ((held.every hkind _ _).append ((held'.every hkind _ _).append hbr)) ⟨by decide, by decide⟩
    exact hel.append (mono (ihc hcs depth) hsuf)
  | branchEnd => exact .nil
  | @branchEntry ctx line lines mid rest ts us _ h _ ih ihb =>
    have hl : (Task.entry ctx line).line = line := by cases ctx <;> rfl
    have hs : Nest.Seated start ((Task.entry ctx line).line ++ lines.flatten) := hl.symm ▸ hs
    exact (mono (ih hs depth) (List.suffix_cons _ _)).append
      (mono (ihb (h.seat hs) depth) (h.suffix.trans (List.suffix_cons _ _)))
  | recipesEnd => exact .nil
  | recipesItem _ hi _ ih ihr =>
    exact (mono (ih hs depth) (List.suffix_cons _ _)).append
      (mono (ihr (hi.seat hs) depth) (hi.suffix.trans (List.suffix_cons _ _)))
  | fileEnd => exact .nil
  | fileStatement h _ ih ihf =>
    exact (mono (ih hs depth) (List.suffix_cons _ _)).append
      (mono (ihf (h.seat hs) depth) (h.suffix.trans (List.suffix_cons _ _)))

end Seats

end Parser

end MakeTree
