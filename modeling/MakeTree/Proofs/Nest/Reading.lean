import MakeTree.Proofs.Nest.Flat

/-!
How trees hold nests. `Reading P k ns ts` says that the trees `ts`, children of a node of kind `k`,
hold the flat nests `ns` one after the other: quoted literals as quotes around what their inside
holds, literals that were not read again as one leaf, or as quotes around one in a condition. The
nodes on the way satisfy `P`. The trees of nests hold the nests (`reading_trees`).
-/

namespace MakeTree

def Tree.IsLeaf (t : Tree) : Prop := ∃ k s, t = leaf k s

namespace Lexeme

theorem isLeaf_of_mem_leading {t : Tree} {vs : List Trivia} (h : t ∈ vs.map Trivia.tree) :
    t.IsLeaf := by
  obtain ⟨v, -, rfl⟩ := List.mem_map.1 h
  cases v with
  | continuation s => exact ⟨_, _, rfl⟩
  | skipped c => exact ⟨_, _, rfl⟩

theorem isLeaf_of_mem_leaves {t : Tree} {x : Lexeme} (h : t ∈ x.leaves) : t.IsLeaf := by
  rcases List.mem_append.1 h with h | h
  · exact isLeaf_of_mem_leading h
  · exact ⟨_, _, List.mem_singleton.1 h⟩

theorem isLeaf_of_mem_openQuote {t : Tree} {x : Lexeme} (h : t ∈ x.openQuote) : t.IsLeaf := by
  rcases List.mem_append.1 h with h | h
  · exact isLeaf_of_mem_leading h
  · exact ⟨_, _, List.mem_singleton.1 h⟩

end Lexeme

inductive Reading (P : NodeKind → Prop) : NodeKind → List Nest → List Tree → Prop
  | nil (k : NodeKind) : Reading P k [] []
  | append {k : NodeKind} {ms ns : List Nest} {ts us : List Tree} (h : Reading P k ms ts)
      (h' : Reading P k ns us) : Reading P k (ms ++ ns) (ts ++ us)
  | node {j k : NodeKind} {ns : List Nest} {ts : List Tree} (hj : P j) (h : Reading P j ns ts) :
      Reading P k ns [.node j ts]
  | leaf (k : NodeKind) (x : Lexeme) : Reading P k [.leaf x] x.leaves
  | quoted {k : NodeKind} (x : Lexeme) {inside : List Nest} (trailing : List Trivia)
      {ts : List Tree} (h : Reading P k (Nest.flattenAll inside) ts) :
      Reading P k [.quoted x inside trailing]
        (x.openQuote ++ ts ++ trailing.map Trivia.tree ++ [x.closeQuote])
  | raw {k : NodeKind} (x : Lexeme) (hk : k ≠ .condition) : Reading P k [.raw x] x.leaves
  | operand (x : Lexeme) (h : P .expression) : Reading P .condition [.raw x] (x.openQuote ++
      [.node .expression [.leaf (.token .plainText) x.token.inside.rest], x.closeQuote])

namespace Reading

variable {P Q : NodeKind → Prop} {k : NodeKind} {ms ns : List Nest} {ts us : List Tree}

theorem mono (h : Reading P k ns ts) (hPQ : ∀ j, P j → Q j) : Reading Q k ns ts := by
  induction h with
  | nil k => exact .nil k
  | append _ _ ih ih' => exact ih.append ih'
  | node hj _ ih => exact .node (hPQ _ hj) ih
  | leaf k x => exact .leaf k x
  | quoted x trailing _ ih => exact .quoted x trailing ih
  | raw x hk => exact .raw x hk
  | operand x h => exact .operand x (hPQ _ h)

theorem lexeme (hx : P .expansion) (k : NodeKind) (x : Lexeme) :
    Reading P k [.leaf x] x.trees := by
  unfold Lexeme.trees
  split
  · exact .node hx (.leaf _ x)
  · exact .leaf k x

end Reading

/-- The parts hold the nests wherever they stand, but for conditions. -/
inductive PartsReading (P : NodeKind → Prop) : List Nest → List Part → Prop
  | nil : PartsReading P [] []
  | cons {ms ns : List Nest} {p : Part} {ps : List Part}
      (h : ∀ k, k ≠ .condition → Reading P k ms p.trees) (hs : PartsReading P ns ps) :
      PartsReading P (ms ++ ns) (p :: ps)

namespace Part

theorem splitName_append (depth : Nat) (ps : List Part) :
    (splitName depth ps).1 ++ (splitName depth ps).2 = ps := by
  induction ps generalizing depth with
  | nil => rfl
  | cons p ps ih =>
    unfold splitName
    split
    · rfl
    · rw [List.cons_append, ih]

end Part

namespace PartsReading

variable {P : NodeKind → Prop} {ns : List Nest} {ps qs : List Part}

theorem split (h : PartsReading P ns (ps ++ qs)) :
    ∃ ms ms', ns = ms ++ ms' ∧ PartsReading P ms ps ∧ PartsReading P ms' qs := by
  induction ps generalizing ns with
  | nil => exact ⟨[], ns, rfl, .nil, h⟩
  | cons p ps ih =>
    cases h with
    | @cons ls _ _ _ hp hs =>
      obtain ⟨ms, ms', rfl, h₁, h₂⟩ := ih hs
      exact ⟨ls ++ ms, ms', (List.append_assoc _ _ _).symm, .cons hp h₁, h₂⟩

theorem treesOf (h : PartsReading P ns ps) {k : NodeKind} (hk : k ≠ .condition) :
    Reading P k ns (Part.treesOf ps) := by
  induction h with
  | nil => exact .nil k
  | cons hp _ ih => exact (hp k hk).append ih

theorem arguments (he : P .expression) (h : PartsReading P ns ps) {ms : List Nest}
    {argument : List Tree} (ha : Reading P .expression ms argument) (depth : Nat) :
    Reading P .expansion (ms ++ ns) (Part.arguments depth argument ps) := by
  induction h generalizing ms argument depth with
  | nil =>
    rw [List.append_nil]
    exact .node he ha
  | @cons ls ns p ps hp _ ih =>
    unfold Part.arguments
    split
    · exact (Reading.node he ha).append
        ((hp _ (by decide)).append (ih (.nil _) 0))
    · rw [← List.append_assoc]
      exact ih (ha.append (hp _ (by decide))) _

theorem layout (he : P .expression) (h : PartsReading P ns ps) :
    Reading P .expansion ns (Part.layout ps) := by
  rw [← Part.splitName_append 0 ps] at h
  obtain ⟨name, rest, rfl, hname, hrest⟩ := h.split
  unfold Part.layout
  refine (Reading.node he (hname.treesOf (by decide))).append ?_
  set blanks := (Part.splitName 0 ps).2.takeWhile (·.mark == .blank) with hb
  have hd : blanks ++ (Part.splitName 0 ps).2.drop blanks.length = (Part.splitName 0 ps).2 :=
    List.prefix_iff_eq_append.1 (List.takeWhile_prefix _)
  rw [← hd] at hrest
  obtain ⟨ms, ms', rfl, h₁, h₂⟩ := hrest.split
  refine (h₁.treesOf (by decide)).append ?_
  split
  · next hn =>
    rw [List.isEmpty_iff.1 hn] at h₂
    cases h₂
    exact .nil _
  · exact arguments he h₂ (.nil _) 0

end PartsReading

namespace Nest

variable {P : NodeKind → Prop}

mutual

theorem reading_trees (he : P .expression) (hx : P .expansion) (n : Nest) {k : NodeKind}
    (hk : k ≠ .condition) : Reading P k n.flatten n.trees := by
  match n with
  | leaf x => exact .lexeme hx k x
  | quoted x inside trailing =>
    exact .quoted x trailing ((reading_parts he hx inside).treesOf hk)
  | raw x => exact .raw x hk
  | expansion opener body closer =>
    have hb := (reading_parts he hx body).layout he
    exact .node hx (((Reading.leaf _ opener).append hb).append (.leaf _ closer))

theorem reading_parts (he : P .expression) (hx : P .expansion) (ns : List Nest) :
    PartsReading P (flattenAll ns) (parts ns) := by
  match ns with
  | [] => exact .nil
  | n :: ns => exact .cons (fun k hk => reading_trees he hx n hk) (reading_parts he hx ns)

end

theorem reading_treesOf (he : P .expression) (hx : P .expansion) (ns : List Nest) {k : NodeKind}
    (hk : k ≠ .condition) : Reading P k (flattenAll ns) (treesOf ns) :=
  (reading_parts he hx ns).treesOf hk

end Nest

end MakeTree
