import MakeTree.Proofs.Grammar.Rows
import MakeTree.Proofs.Tree.Places

/-!
The statements of a tree in order. What is a child of the root or of a branch is an entry
(`Tree.mem_entries`), and the entries come as they do among all subtrees (`Tree.entries_sublist`).
A tree starts with the token that the nests start with that it holds (`Reading.leadOf`).
-/

namespace MakeTree

/-- The root and the branches hold statements. -/
def NodeKind.holdsStatements (k : NodeKind) : Bool := k == .root || k == .branch

/-- The kind of the token, unless it is a blank. -/
def LeafKind.lead? : LeafKind → Option TokenKind
  | token k => if k.isLeading then none else some k
  | quote => some .stringLiteral
  | continuation => none
  | skipped => none

/-- The kind of the first nest that is no blank. -/
def Nest.lead? (ns : List Nest) : Option TokenKind :=
  (ns.find? fun n => !n.kind.isLeading).map kind

namespace Tree

/-- The kind of the first token that is no blank. -/
def leadOf (ts : List Tree) : Option TokenKind := (leavesOf ts).findSome? fun l => l.1.lead?

mutual

/-- The nodes that are children of the root or of a branch, each before those inside it; the tree
itself is such a child if it stands `here`. -/
def entriesAt (here : Bool) (depth start : Nat) : Tree → List Placed
  | leaf .. => []
  | node k ts =>
    let inner := entriesOf k.holdsStatements (depth + 1) start ts
    if here then ⟨depth, start, node k ts⟩ :: inner else inner

def entriesOf (here : Bool) (depth start : Nat) : List Tree → List Placed
  | [] => []
  | t :: ts =>
    t.entriesAt here depth start ++ entriesOf here depth (start + t.text.byteSize) ts

end

def entries (t : Tree) : List Placed := t.entriesAt false 0 0

section Entries

variable {here : Bool} {depth start : Nat}

theorem entriesOf_append (ts us : List Tree) : entriesOf here depth start (ts ++ us) =
    entriesOf here depth start ts ++
      entriesOf here depth (start + (textOf ts).byteSize) us := by
  induction ts generalizing start with
  | nil => rfl
  | cons t ts ih =>
    rw [List.cons_append, entriesOf, entriesOf, ih, textOf, Text.byteSize_append,
      List.append_assoc, Nat.add_assoc]

theorem entriesOf_node (k : NodeKind) (ts : List Tree) : entriesOf false depth start [.node k ts] =
    entriesOf k.holdsStatements (depth + 1) start ts := by
  rw [entriesOf, entriesOf, List.append_nil, entriesAt]
  rfl

theorem entriesOf_entry (k : NodeKind) (ts : List Tree) : entriesOf true depth start [.node k ts] =
    ⟨depth, start, .node k ts⟩ :: entriesOf false depth start [.node k ts] := by
  rw [entriesOf_node, entriesOf, entriesOf, List.append_nil, entriesAt]
  rfl

theorem entriesOf_leaves {ts : List Tree} (h : ∀ t ∈ ts, t.IsLeaf) :
    entriesOf here depth start ts = [] := by
  induction ts generalizing start with
  | nil => rfl
  | cons t ts ih =>
    obtain ⟨k, s, rfl⟩ := h t List.mem_cons_self
    rw [entriesOf, entriesAt, ih fun u hu => h u (List.mem_cons_of_mem _ hu)]
    rfl

mutual

theorem entriesAt_sublist (here : Bool) (depth start : Nat) (t : Tree) :
    (t.entriesAt here depth start).Sublist (t.placed depth start) := by
  match t with
  | leaf k s => exact List.nil_sublist _
  | node k ts =>
    have hinner := entriesOf_sublist k.holdsStatements (depth + 1) start ts
    rw [entriesAt, placed]
    cases here with
    | true => exact hinner.cons_cons _
    | false => exact hinner.cons _

theorem entriesOf_sublist (here : Bool) (depth start : Nat) (ts : List Tree) :
    (entriesOf here depth start ts).Sublist (placedOf depth start ts) := by
  match ts with
  | [] => exact List.nil_sublist _
  | t :: ts =>
    exact (entriesAt_sublist here depth start t).append
      (entriesOf_sublist here depth (start + t.text.byteSize) ts)

end

theorem entries_sublist (t : Tree) : t.entries.Sublist t.subtrees := entriesAt_sublist false 0 0 t

/-- The place is that of a child of the root or of a branch. -/
def InBlock (ps : List Placed) (p : Placed) : Prop :=
  ∃ q ∈ ps, (q.tree.kind = .node .root ∨ q.tree.kind = .node .branch) ∧ p ∈ q.parts

theorem inBlock_append {ps qs : List Placed} {p : Placed} :
    InBlock (ps ++ qs) p ↔ InBlock ps p ∨ InBlock qs p := by
  simp only [InBlock, List.mem_append, or_and_right, exists_or]

theorem inBlock_node {k : NodeKind} {ts : List Tree} {ps : List Placed} {p : Placed} :
    InBlock (⟨depth, start, .node k ts⟩ :: ps) p ↔
      (k.holdsStatements = true ∧ p ∈ seats (depth + 1) start ts) ∨ InBlock ps p := by
  have hk : ((Tree.node k ts).kind = .node .root ∨ (Tree.node k ts).kind = .node .branch) ↔
      k.holdsStatements = true := by
    cases k with
    | root => simp [kind, NodeKind.holdsStatements]
    | branch => simp [kind, NodeKind.holdsStatements]
    | _ => simp [kind, NodeKind.holdsStatements]
  rw [InBlock, List.exists_mem_cons_iff]
  exact or_congr (and_congr_left' hk) Iff.rfl

mutual

theorem mem_entriesAt (here : Bool) (depth start : Nat) (t : Tree) {p : Placed} :
    p ∈ t.entriesAt here depth start ↔
      ((here = true ∧ p = ⟨depth, start, t⟩) ∨ InBlock (t.placed depth start) p) ∧
        ¬ p.tree.IsLeaf := by
  match t with
  | leaf k s =>
    refine iff_of_false List.not_mem_nil ?_
    rintro ⟨⟨-, rfl⟩ | ⟨q, hq, hk, -⟩, hl⟩
    · exact hl ⟨k, s, rfl⟩
    · obtain rfl := List.mem_singleton.1 hq
      exact hk.elim nofun nofun
  | node k ts =>
    have hinner : p ∈ entriesOf k.holdsStatements (depth + 1) start ts ↔
        InBlock ((Tree.node k ts).placed depth start) p ∧ ¬ p.tree.IsLeaf := by
      rw [mem_entriesOf, placed, inBlock_node]
    have hself : (p = ⟨depth, start, .node k ts⟩) → ¬ p.tree.IsLeaf := by
      rintro rfl
      nofun
    rw [entriesAt]
    cases here with
    | true => simp only [if_true, List.mem_cons, hinner, true_and, or_and_right,
        and_iff_left_of_imp hself]
    | false => simpa using hinner

theorem mem_entriesOf (here : Bool) (depth start : Nat) (ts : List Tree) {p : Placed} :
    p ∈ entriesOf here depth start ts ↔
      ((here = true ∧ p ∈ seats depth start ts) ∨ InBlock (placedOf depth start ts) p) ∧
        ¬ p.tree.IsLeaf := by
  match ts with
  | [] => simp [entriesOf, seats, placedOf, InBlock]
  | t :: ts =>
    rw [entriesOf, List.mem_append, mem_entriesAt, mem_entriesOf, seats, placedOf, inBlock_append,
      List.mem_cons]
    tauto

end

/-- The statements of a tree are the nodes that are children of the root or of a branch. -/
theorem mem_entries {t : Tree} {p : Placed} :
    p ∈ t.entries ↔ InBlock t.subtrees p ∧ ¬ p.tree.IsLeaf := by
  rw [entries, mem_entriesAt]
  simp [subtrees]

end Entries

mutual

theorem entriesAt_eq_nil {t : Tree} (h : ∀ k us, Subtree (.node k us) t →
    k.holdsStatements = false) (depth start : Nat) : t.entriesAt false depth start = [] := by
  match t with
  | leaf k s => rfl
  | node k ts =>
    have hk : k.holdsStatements = false := h k ts (.refl _)
    rw [entriesAt, hk]
    exact entriesOf_eq_nil (fun u hu j us hs => h j us (.child hu hs)) (depth + 1) start

theorem entriesOf_eq_nil {ts : List Tree} (h : ∀ t ∈ ts, ∀ k us, Subtree (.node k us) t →
    k.holdsStatements = false) (depth start : Nat) : entriesOf false depth start ts = [] := by
  match ts with
  | [] => rfl
  | t :: ts =>
    rw [entriesOf, entriesAt_eq_nil (h t List.mem_cons_self),
      entriesOf_eq_nil fun u hu => h u (List.mem_cons_of_mem t hu)]
    rfl

end

theorem leadOf_append (ts us : List Tree) : leadOf (ts ++ us) = (leadOf ts).or (leadOf us) := by
  rw [leadOf, leavesOf_append, List.findSome?_append]
  rfl

theorem leadOf_node (k : NodeKind) (ts : List Tree) : leadOf [.node k ts] = leadOf ts := by
  rw [leadOf, leavesOf, leavesOf, List.append_nil]
  rfl

theorem leadOf_trivia (vs : List Trivia) : leadOf (vs.map Trivia.tree) = none := by
  induction vs with
  | nil => rfl
  | cons v vs ih =>
    rw [List.map_cons, ← List.singleton_append, leadOf_append, ih]
    cases v <;> rfl

end Tree

namespace Nest

mutual

theorem Closed.isFlat {n : Nest} (h : n.Closed) : ∀ m ∈ n.flatten, m.IsFlat := by
  intro m hm
  match n with
  | leaf x =>
    rw [List.mem_singleton.1 hm]
    exact .inl rfl
  | quoted x inside trailing =>
    rw [List.mem_singleton.1 hm]
    exact .inr ⟨h, rfl⟩
  | raw x =>
    rw [List.mem_singleton.1 hm]
    exact .inr ⟨h, rfl⟩
  | expansion opener body closer =>
    rcases List.mem_cons.1 hm with rfl | hm
    · exact .inl rfl
    · rcases List.mem_append.1 hm with hm | hm
      · exact ClosedAll.isFlat h.2.1 m hm
      · rw [List.mem_singleton.1 hm]
        exact .inl rfl

theorem ClosedAll.isFlat {ns : List Nest} (h : ClosedAll ns) : ∀ m ∈ flattenAll ns, m.IsFlat := by
  intro m hm
  match ns with
  | [] => cases hm
  | n :: ns =>
    rcases List.mem_append.1 hm with hm | hm
    · exact Closed.isFlat h.1 m hm
    · exact ClosedAll.isFlat h.2 m hm

end

theorem lead?_append (ms ns : List Nest) : lead? (ms ++ ns) = (lead? ms).or (lead? ns) := by
  rw [lead?, lead?, lead?, List.find?_append]
  cases ms.find? fun n => !n.kind.isLeading with
  | none => simp
  | some n => rfl

theorem lead?_singleton (n : Nest) : lead? [n] = (LeafKind.token n.kind).lead? := by
  rw [lead?, LeafKind.lead?]
  cases hk : n.kind.isLeading with
  | true => simp [hk]
  | false => simp [hk]

theorem lead?_flattenAll {line : Line} (hc : ClosedAll line) {n : Nest} {ns : List Nest}
    (ha : Line.afterLeading line = n :: ns) (ms : List Nest) :
    lead? (flattenAll (line ++ ms)) = some n.kind := by
  have hfirst : lead? (flattenAll line) = some n.kind := by
    have hdrop := dropWhile_flattenAll (p := TokenKind.isLeading) rfl hc
    have hhead := head_flattenAll (n :: ns)
    rw [show line.dropWhile (fun m => m.kind.isLeading) = n :: ns from ha] at hdrop
    rw [← hdrop] at hhead
    rw [lead?, List.find?_eq_head?_dropWhile_not]
    simpa using hhead
  rw [flattenAll_append, lead?_append, hfirst]
  rfl

end Nest

theorem Reading.leadOf {P : NodeKind → Prop} {k : NodeKind} {ns : List Nest} {ts : List Tree}
    (h : Reading P k ns ts) (hf : ∀ n ∈ ns, n.IsFlat) : Tree.leadOf ts = Nest.lead? ns := by
  have quote (x : Lexeme) (ts : List Tree) :
      Tree.leadOf (x.openQuote ++ ts) = some .stringLiteral := by
    rw [Lexeme.openQuote, Tree.leadOf_append, Tree.leadOf_append, Tree.leadOf_trivia]
    rfl
  have leaves (x : Lexeme) : Tree.leadOf x.leaves = (LeafKind.token x.token.kind).lead? := by
    rw [Lexeme.leaves, Tree.leadOf_append, Tree.leadOf_trivia, Option.none_or]
    show [_].findSome? _ = _
    simp
  induction h with
  | nil => rfl
  | append _ _ ih ih' =>
    rw [Tree.leadOf_append, Nest.lead?_append, ih fun n hn => hf n (List.mem_append_left _ hn),
      ih' fun n hn => hf n (List.mem_append_right _ hn)]
  | node _ _ ih => rw [Tree.leadOf_node, ih hf]
  | leaf k x => exact (leaves x).trans (Nest.lead?_singleton (.leaf x)).symm
  | raw x _ => exact (leaves x).trans (Nest.lead?_singleton (.raw x)).symm
  | @quoted _ x inside trailing _ _ _ =>
    have hk : (Nest.quoted x inside trailing).kind = .stringLiteral := by
      obtain h | ⟨hk, -⟩ := hf _ List.mem_cons_self
      · cases h
      · exact hk
    rw [Nest.lead?_singleton, hk, List.append_assoc, List.append_assoc, quote]
    rfl
  | operand x _ =>
    have hk : (Nest.raw x).kind = .stringLiteral := by
      obtain h | ⟨hk, -⟩ := hf _ List.mem_cons_self
      · cases h
      · exact hk
    rw [Nest.lead?_singleton, hk, quote]
    rfl

end MakeTree
