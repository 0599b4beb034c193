import MakeTree.Proofs.Nest.Regroup

/-!
Where the nodes of a tree stand. A subtree stays within the text of the tree (`Tree.placed_within`),
and if it takes up room it is a child of one node only (`Tree.parent_unique`). What holds of the
nodes of a kind holds of those of trees one after the other (`Tree.Every`), also if it is about their
places (`Tree.EveryAt`).
-/

namespace MakeTree

namespace Tree

/-- One tree stands in another, at any depth. -/
inductive Subtree : Tree → Tree → Prop
  | refl (t : Tree) : Subtree t t
  | child {s t : Tree} {k : NodeKind} {us : List Tree} (ht : t ∈ us) (h : Subtree s t) :
      Subtree s (.node k us)

mutual

theorem subtree_of_placed {p : Placed} {t : Tree} {depth start : Nat}
    (h : p ∈ t.placed depth start) : Subtree p.tree t := by
  match t with
  | leaf k s =>
    obtain rfl := List.mem_singleton.1 h
    exact .refl _
  | node k ts =>
    rcases List.mem_cons.1 h with rfl | h
    · exact .refl _
    · obtain ⟨t, ht, hs⟩ := subtree_of_placedOf h
      exact .child ht hs

theorem subtree_of_placedOf {p : Placed} {ts : List Tree} {depth start : Nat}
    (h : p ∈ placedOf depth start ts) : ∃ t ∈ ts, Subtree p.tree t := by
  match ts with
  | [] => cases h
  | t :: ts =>
    rcases List.mem_append.1 h with h | h
    · exact ⟨t, List.mem_cons_self, subtree_of_placed h⟩
    · obtain ⟨u, hu, hs⟩ := subtree_of_placedOf h
      exact ⟨u, List.mem_cons_of_mem t hu, hs⟩

end

theorem Subtree.trans {s t u : Tree} (h : Subtree s t) (h' : Subtree t u) : Subtree s u := by
  induction h' with
  | refl => exact h
  | child ht _ ih => exact .child ht ih

theorem Subtree.leaves_subset {s t : Tree} (h : Subtree s t) : s.leaves ⊆ t.leaves := by
  induction h with
  | refl => exact List.Subset.refl _
  | child ht _ ih =>
    intro l hl
    obtain ⟨vs, ws, rfl⟩ := List.append_of_mem ht
    rw [leaves, leavesOf_append, leavesOf]
    exact List.mem_append_right _ (List.mem_append_left _ (ih hl))

theorem placedOf_append (depth start : Nat) (ts us : List Tree) : placedOf depth start (ts ++ us) =
    placedOf depth start ts ++ placedOf depth (start + (textOf ts).byteSize) us := by
  induction ts generalizing start with
  | nil => rfl
  | cons t ts ih =>
    rw [List.cons_append, placedOf, placedOf, ih, textOf, Text.byteSize_append, List.append_assoc,
      Nat.add_assoc]

theorem placedOf_node (depth start : Nat) (k : NodeKind) (ts : List Tree) :
    placedOf depth start [.node k ts] =
      ⟨depth, start, .node k ts⟩ :: placedOf (depth + 1) start ts :=
  List.append_nil _

/-- Trees in a row, each with its place. -/
def seats (depth start : Nat) : List Tree → List Placed
  | [] => []
  | t :: ts => ⟨depth, start, t⟩ :: seats depth (start + t.text.byteSize) ts

theorem seats_append (depth start : Nat) (ts us : List Tree) : seats depth start (ts ++ us) =
    seats depth start ts ++ seats depth (start + (textOf ts).byteSize) us := by
  induction ts generalizing start with
  | nil => rfl
  | cons t ts ih =>
    rw [List.cons_append, seats, seats, ih, textOf, Text.byteSize_append, List.cons_append,
      Nat.add_assoc]

theorem map_tree_seats (depth start : Nat) (ts : List Tree) :
    (seats depth start ts).map Placed.tree = ts := by
  induction ts generalizing start with
  | nil => rfl
  | cons t ts ih => rw [seats, List.map_cons, ih]

end Tree

/-- The tree and what stands in it, each with its place. -/
def Placed.subtrees (p : Placed) : List Placed := p.tree.placed p.depth p.start

def Placed.parts (p : Placed) : List Placed := Tree.seats (p.depth + 1) p.start p.tree.children

namespace Tree

mutual

theorem placed_parent {p : Placed} {t : Tree} {depth start : Nat} (h : p ∈ t.placed depth start) :
    p = ⟨depth, start, t⟩ ∨ ∃ q ∈ t.placed depth start, p ∈ q.parts := by
  match t with
  | leaf k s => exact .inl (List.mem_singleton.1 h)
  | node k ts =>
    rcases List.mem_cons.1 h with rfl | h
    · exact .inl rfl
    · rcases placedOf_parent h with h | ⟨q, hq, h⟩
      · exact .inr ⟨_, List.mem_cons_self, h⟩
      · exact .inr ⟨q, List.mem_cons_of_mem _ hq, h⟩

theorem placedOf_parent {p : Placed} {ts : List Tree} {depth start : Nat}
    (h : p ∈ placedOf depth start ts) :
    p ∈ seats depth start ts ∨ ∃ q ∈ placedOf depth start ts, p ∈ q.parts := by
  match ts with
  | [] => cases h
  | t :: ts =>
    rcases List.mem_append.1 h with h | h
    · rcases placed_parent h with rfl | ⟨q, hq, h⟩
      · exact .inl List.mem_cons_self
      · exact .inr ⟨q, List.mem_append_left _ hq, h⟩
    · rcases placedOf_parent h with h | ⟨q, hq, h⟩
      · exact .inl (List.mem_cons_of_mem _ h)
      · exact .inr ⟨q, List.mem_append_right _ hq, h⟩

end

theorem mem_placed (t : Tree) (depth start : Nat) : ⟨depth, start, t⟩ ∈ t.placed depth start := by
  cases t <;> exact List.mem_cons_self

mutual

theorem placed_within {p : Placed} {t : Tree} {depth start : Nat} (h : p ∈ t.placed depth start) :
    depth ≤ p.depth ∧ start ≤ p.start ∧ p.stop ≤ start + t.text.byteSize := by
  match t with
  | leaf k s =>
    obtain rfl := List.mem_singleton.1 h
    exact ⟨le_rfl, le_rfl, le_rfl⟩
  | node k ts =>
    rcases List.mem_cons.1 h with rfl | h
    · exact ⟨le_rfl, le_rfl, le_rfl⟩
    · have := placedOf_within h
      exact ⟨Nat.le_of_succ_le this.1, this.2⟩

theorem placedOf_within {p : Placed} {ts : List Tree} {depth start : Nat}
    (h : p ∈ placedOf depth start ts) :
    depth ≤ p.depth ∧ start ≤ p.start ∧ p.stop ≤ start + (textOf ts).byteSize := by
  match ts with
  | [] => cases h
  | t :: ts =>
    rw [textOf, Text.byteSize_append]
    rcases List.mem_append.1 h with h | h
    · have := placed_within h
      omega
    · have := placedOf_within h
      omega

end

mutual

theorem placed_trans {p : Placed} {t : Tree} {depth start : Nat} (h : p ∈ t.placed depth start) :
    p.subtrees ⊆ t.placed depth start := by
  match t with
  | leaf k s =>
    obtain rfl := List.mem_singleton.1 h
    exact List.Subset.refl _
  | node k ts =>
    rcases List.mem_cons.1 h with rfl | h
    · exact List.Subset.refl _
    · exact List.subset_cons_of_subset _ (placedOf_trans h)

theorem placedOf_trans {p : Placed} {ts : List Tree} {depth start : Nat}
    (h : p ∈ placedOf depth start ts) :
    p.subtrees ⊆ placedOf depth start ts := by
  match ts with
  | [] => cases h
  | t :: ts =>
    rcases List.mem_append.1 h with h | h
    · exact List.subset_append_of_subset_left _ (placed_trans h)
    · exact List.subset_append_of_subset_right _ (placedOf_trans h)

end

theorem mem_seats {p : Placed} {ts : List Tree} {depth start : Nat} :
    p ∈ seats depth start ts ↔
      ∃ us vs, ts = us ++ p.tree :: vs ∧ p = ⟨depth, start + (textOf us).byteSize, p.tree⟩ := by
  constructor
  · intro h
    induction ts generalizing start with
    | nil => cases h
    | cons t ts ih =>
      rcases List.mem_cons.1 h with rfl | h
      · exact ⟨[], ts, rfl, rfl⟩
      · obtain ⟨us, vs, hts, hp⟩ := ih h
        refine ⟨t :: us, vs, by rw [hts, List.cons_append], hp.trans ?_⟩
        rw [textOf, Text.byteSize_append, Nat.add_assoc]
  · rintro ⟨us, vs, hts, hp⟩
    rw [hts, seats_append, seats, ← hp]
    exact List.mem_append_right _ List.mem_cons_self

theorem seats_subset (depth start : Nat) (ts : List Tree) :
    seats depth start ts ⊆ placedOf depth start ts := by
  induction ts generalizing start with
  | nil => exact List.nil_subset _
  | cons t ts ih =>
    refine List.cons_subset.2 ⟨List.mem_append_left _ (mem_placed t depth start), ?_⟩
    exact List.subset_append_of_subset_right _ (ih _)

theorem parts_subset (p : Placed) : p.parts ⊆ p.subtrees := by
  obtain ⟨depth, start, t⟩ := p
  cases t with
  | leaf k s => exact List.nil_subset _
  | node k ts => exact List.subset_cons_of_subset _ (seats_subset (depth + 1) start ts)

theorem depth_of_mem_parts {p q : Placed} (h : q ∈ p.parts) : q.depth = p.depth + 1 := by
  obtain ⟨us, vs, -, hq⟩ := mem_seats.1 h
  rw [hq]

mutual

/-- What takes up room is a child of one node only. -/
theorem parent_unique {p p' q : Placed} {t : Tree} {depth start : Nat}
    (h : p ∈ t.placed depth start) (h' : p' ∈ t.placed depth start) (hq : q ∈ p.parts)
    (hq' : q ∈ p'.parts) (hlt : q.start < q.stop) : p = p' := by
  have hd : p.depth = p'.depth :=
    Nat.succ.inj ((depth_of_mem_parts hq).symm.trans (depth_of_mem_parts hq'))
  match t with
  | leaf k s => rw [List.mem_singleton.1 h, List.mem_singleton.1 h']
  | node k ts =>
    rcases List.mem_cons.1 h with rfl | h
    · rcases List.mem_cons.1 h' with rfl | h'
      · rfl
      · exact absurd (hd.ge.trans' (placedOf_within h').1) (Nat.not_succ_le_self depth)
    · rcases List.mem_cons.1 h' with rfl | h'
      · exact absurd (hd.le.trans' (placedOf_within h).1) (Nat.not_succ_le_self depth)
      · exact parent_uniqueOf h h' hq hq' hlt

theorem parent_uniqueOf {p p' q : Placed} {ts : List Tree} {depth start : Nat}
    (h : p ∈ placedOf depth start ts) (h' : p' ∈ placedOf depth start ts) (hq : q ∈ p.parts)
    (hq' : q ∈ p'.parts) (hlt : q.start < q.stop) : p = p' := by
  match ts with
  | [] => cases h
  | t :: ts =>
    rcases List.mem_append.1 h with h | h
    · rcases List.mem_append.1 h' with h' | h'
      · exact parent_unique h h' hq hq' hlt
      · have := placed_within (placed_trans h (parts_subset p hq))
        have := placedOf_within (placedOf_trans h' (parts_subset p' hq'))
        omega
    · rcases List.mem_append.1 h' with h' | h'
      · have := placedOf_within (placedOf_trans h (parts_subset p hq))
        have := placed_within (placed_trans h' (parts_subset p' hq'))
        omega
      · exact parent_uniqueOf h h' hq hq' hlt

end

theorem Subtree.placed {s t : Tree} (h : Subtree s t) (depth start : Nat) :
    ∃ p ∈ t.placed depth start, p.tree = s := by
  induction h generalizing depth start with
  | refl => exact ⟨_, mem_placed _ depth start, rfl⟩
  | child hu _ ih =>
    obtain ⟨vs, ws, rfl⟩ := List.append_of_mem hu
    obtain ⟨p, hp, he⟩ := ih (depth + 1) (start + (textOf vs).byteSize)
    refine ⟨p, List.mem_cons_of_mem _ ?_, he⟩
    rw [placedOf_append]
    exact List.mem_append_right _ (List.mem_append_left _ hp)

/-- `Q` holds of the children of every node of the kind. -/
def Every (kind : NodeKind) (Q : List Tree → Prop) (ts : List Tree) : Prop :=
  ∀ t ∈ ts, ∀ us, Subtree (.node kind us) t → Q us

namespace Every

variable {kind : NodeKind} {Q : List Tree → Prop} {ts us : List Tree}

theorem nil : Every kind Q [] := nofun

theorem append (h : Every kind Q ts) (h' : Every kind Q us) : Every kind Q (ts ++ us) :=
  fun t ht => (List.mem_append.1 ht).elim (h t) (h' t)

theorem node {k : NodeKind} (h : Every kind Q ts) (hk : k = kind → Q ts) :
    Every kind Q [.node k ts] := by
  intro t ht us hs
  obtain rfl := List.mem_singleton.1 ht
  cases hs with
  | refl => exact hk rfl
  | child ht hs => exact h _ ht us hs

theorem of_leaves (h : ∀ t ∈ ts, t.IsLeaf) : Every kind Q ts := by
  intro t ht us hs
  obtain ⟨k, s, rfl⟩ := h t ht
  cases hs

end Every

/-- `Q` holds of the parts of every node of the kind. -/
def EveryAt (kind : NodeKind) (Q : List Placed → Prop) (depth start : Nat) (ts : List Tree) :
    Prop := ∀ q ∈ placedOf depth start ts, q.tree.kind = .node kind → Q q.parts

namespace EveryAt

variable {kind : NodeKind} {Q Q' : List Placed → Prop} {depth start : Nat} {ts us : List Tree}

theorem nil : EveryAt kind Q depth start [] := nofun

theorem append (h : EveryAt kind Q depth start ts)
    (h' : EveryAt kind Q depth (start + (textOf ts).byteSize) us) :
    EveryAt kind Q depth start (ts ++ us) := by
  intro q hq
  rw [placedOf_append] at hq
  exact (List.mem_append.1 hq).elim (h q) (h' q)

theorem node {k : NodeKind} (h : EveryAt kind Q (depth + 1) start ts)
    (hk : k = kind → Q (seats (depth + 1) start ts)) : EveryAt kind Q depth start [.node k ts] := by
  intro q hq hkind
  rw [placedOf_node] at hq
  rcases List.mem_cons.1 hq with rfl | hq
  · exact hk (Kind.node.inj hkind)
  · exact h q hq hkind

theorem mono (h : EveryAt kind Q depth start ts) (hQ : ∀ ps, Q ps → Q' ps) :
    EveryAt kind Q' depth start ts :=
  fun q hq hk => hQ _ (h q hq hk)

theorem of_every (h : Every kind (fun _ => False) ts) : EveryAt kind Q depth start ts := by
  intro q hq hk
  obtain ⟨t, ht, hs⟩ := subtree_of_placedOf hq
  generalize q.tree = u at hk hs
  cases u with
  | leaf => cases hk
  | node j us =>
    obtain rfl := Kind.node.inj hk
    exact (h t ht us hs).elim

end EveryAt

end Tree

theorem Reading.every {P : NodeKind → Prop} {k kind : NodeKind} {ns : List Nest} {ts : List Tree}
    (h : Reading P k ns ts) (hk : ¬ P kind) (Q : List Tree → Prop) : Tree.Every kind Q ts := by
  induction h with
  | nil => exact .nil
  | append _ _ ih ih' => exact ih.append ih'
  | node hj _ ih => exact ih.node fun h => absurd (h ▸ hj) hk
  | leaf k x => exact .of_leaves fun t ht => Lexeme.isLeaf_of_mem_leaves ht
  | raw x _ => exact .of_leaves fun t ht => Lexeme.isLeaf_of_mem_leaves ht
  | quoted x trailing _ ih =>
    have hopen : Tree.Every kind Q x.openQuote :=
      .of_leaves fun t ht => Lexeme.isLeaf_of_mem_openQuote ht
    have htrail : Tree.Every kind Q (trailing.map Trivia.tree) :=
      .of_leaves fun t ht => Lexeme.isLeaf_of_mem_leading ht
    refine ((hopen.append ih).append htrail).append (.of_leaves fun t ht => ?_)
    exact ⟨_, _, List.mem_singleton.1 ht⟩
  | operand x he =>
    have hopen : Tree.Every kind Q x.openQuote :=
      .of_leaves fun t ht => Lexeme.isLeaf_of_mem_openQuote ht
    have hin : Tree.Every kind Q
        [.node .expression [.leaf (.token .plainText) x.token.inside.rest]] := by
      refine Tree.Every.node (.of_leaves fun t ht => ?_) fun h => absurd (h ▸ he) hk
      exact ⟨_, _, List.mem_singleton.1 ht⟩
    refine hopen.append (hin.append (.of_leaves fun t ht => ?_))
    exact ⟨_, _, List.mem_singleton.1 ht⟩

end MakeTree
