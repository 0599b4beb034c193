import MakeTree.Proofs.Nest.Reading

/-!
The layout of an expansion only groups what stands between its brackets (`layout_regroups`): names
and arguments become expressions, and the leaves stay what they are.
-/

namespace MakeTree

/-- The second trees are the first with stretches of them made into expressions. -/
inductive Regroups : List Tree → List Tree → Prop
  | refl (ts : List Tree) : Regroups ts ts
  | append {ts us ts' us' : List Tree} (h : Regroups ts us) (h' : Regroups ts' us') :
      Regroups (ts ++ ts') (us ++ us')
  | expression (ts : List Tree) : Regroups ts [.node .expression ts]

namespace Regroups

variable {ts us : List Tree}

theorem textOf (h : Regroups ts us) : Tree.textOf us = Tree.textOf ts := by
  induction h with
  | refl => rfl
  | append _ _ ih ih' => rw [Tree.textOf_append, Tree.textOf_append, ih, ih']
  | expression ts => exact List.append_nil _

end Regroups

namespace Tree

theorem leavesOf_append (ts us : List Tree) : leavesOf (ts ++ us) = leavesOf ts ++ leavesOf us := by
  induction ts with
  | nil => rfl
  | cons t ts ih => rw [List.cons_append, leavesOf, leavesOf, ih, List.append_assoc]

end Tree

theorem Regroups.leavesOf {ts us : List Tree} (h : Regroups ts us) :
    Tree.leavesOf us = Tree.leavesOf ts := by
  induction h with
  | refl => rfl
  | append _ _ ih ih' => rw [Tree.leavesOf_append, Tree.leavesOf_append, ih, ih']
  | expression ts => exact List.append_nil _

namespace Part

variable {ps : List Part}

theorem treesOf_append (ps qs : List Part) : treesOf (ps ++ qs) = treesOf ps ++ treesOf qs :=
  List.flatMap_append

theorem arguments_regroups (depth : Nat) (argument : List Tree) (ps : List Part) :
    Regroups (argument ++ treesOf ps) (arguments depth argument ps) := by
  induction ps generalizing depth argument with
  | nil =>
    rw [show treesOf [] = [] from rfl, List.append_nil]
    exact .expression argument
  | cons p ps ih =>
    have hp : treesOf (p :: ps) = p.trees ++ treesOf ps := rfl
    rw [hp, arguments]
    split
    · exact (Regroups.expression argument).append ((Regroups.refl p.trees).append (ih 0 []))
    · rw [← List.append_assoc]
      exact ih _ _

theorem layout_regroups (ps : List Part) : Regroups (treesOf ps) (layout ps) := by
  have h := splitName_append 0 ps
  unfold layout
  set blanks := (splitName 0 ps).2.takeWhile (·.mark == .blank)
  have hd : blanks ++ (splitName 0 ps).2.drop blanks.length = (splitName 0 ps).2 :=
    List.prefix_iff_eq_append.1 (List.takeWhile_prefix _)
  conv => lhs; rw [← h, treesOf_append, ← hd, treesOf_append]
  refine (Regroups.expression _).append ((Regroups.refl _).append ?_)
  split
  · next he =>
    rw [List.isEmpty_iff.1 he]
    exact .refl []
  · exact arguments_regroups 0 [] _

end Part

namespace Nest

theorem treesOf_append (ms ns : List Nest) : treesOf (ms ++ ns) = treesOf ms ++ treesOf ns := by
  induction ms with
  | nil => rfl
  | cons m ms ih =>
    show m.trees ++ treesOf (ms ++ ns) = m.trees ++ treesOf ms ++ treesOf ns
    rw [ih, List.append_assoc]

end Nest

end MakeTree
