import MakeTree.Proofs.Nest.Brackets
import MakeTree.Proofs.Nest.Laid
import MakeTree.Proofs.Nest.Regroup
import MakeTree.Proofs.TokenFidelity

/-!
Where the brackets of nests are in their trees. The opener of each expansion is the first token of
one EXPANSION node, and of no other; its closer is the last leaf of that node (`located_treesOf`).
-/

namespace MakeTree

/-- The leaf that a token makes below a node of kind `parent`. -/
def Token.spot (t : Token) (parent : NodeKind) : Spot :=
  ⟨.token t.kind, t.text, t.position.offset, parent⟩

theorem Lexeme.Stands.offset_lt {x : Lexeme} {start : Nat} (h : x.Stands start)
    (ht : x.token.text ≠ []) : x.token.position.offset < start + x.text.byteSize := by
  have := Text.byteSize_pos ht
  rw [h.offset, Lexeme.text, Text.byteSize_append]
  omega

/-- Where an expansion starts, and its children. -/
def Placed.expansion? (p : Placed) : Option (Nat × List Tree) :=
  match p.tree with
  | .leaf .. => none
  | .node k ts => if k = .expansion then some (p.start, ts) else none

theorem Placed.expansion?_eq_some {p : Placed} {e : Nat × List Tree} (h : p.expansion? = some e) :
    p.start = e.1 ∧ p.tree = .node .expansion e.2 := by
  unfold expansion? at h
  split at h
  · cases h
  · next ht =>
    split at h
    · next hk =>
      cases h
      exact ⟨rfl, by rw [ht, hk]⟩
    · cases h

namespace Tree

mutual

/-- The expansions in a tree: where each starts, and its children. -/
def expansions (start : Nat) : Tree → List (Nat × List Tree)
  | leaf .. => []
  | node k ts =>
    if k = .expansion then (start, ts) :: expansionsOf start ts else expansionsOf start ts

def expansionsOf (start : Nat) : List Tree → List (Nat × List Tree)
  | [] => []
  | t :: ts => t.expansions start ++ expansionsOf (start + t.text.byteSize) ts

end

/-- The first token of an expansion. -/
def opening? (e : Nat × List Tree) : Option Spot :=
  ((spotsOf .expansion e.1 e.2).filter Spot.ofToken).head?

/-- The last leaf of an expansion. -/
def closing? (e : Nat × List Tree) : Option Spot := (spotsOf .expansion e.1 e.2).getLast?

/-- The expansions that start with the token. -/
def openedBy (x : Token) (es : List (Nat × List Tree)) : List (Nat × List Tree) :=
  es.filter fun e => opening? e == some (x.spot .expansion)

/-- Among the trees, which start at the offset, `x` opens just one expansion, and `y` ends it. -/
structure Located (start : Nat) (ts : List Tree) (x y : Token) : Prop where
  text : x.text ≠ []
  node : ∃ e, openedBy x (expansionsOf start ts) = [e] ∧ closing? e = some (y.spot .expansion)

variable {start : Nat} {ts us : List Tree} {x y : Token}

theorem expansionsOf_append (start : Nat) (ts us : List Tree) : expansionsOf start (ts ++ us) =
    expansionsOf start ts ++ expansionsOf (start + (textOf ts).byteSize) us := by
  induction ts generalizing start with
  | nil => rfl
  | cons t ts ih =>
    rw [List.cons_append, expansionsOf, expansionsOf, ih, textOf, Text.byteSize_append,
      List.append_assoc, Nat.add_assoc]

theorem expansionsOf_node {k : NodeKind} (hk : k ≠ .expansion) :
    expansionsOf start [.node k ts] = expansionsOf start ts := by
  rw [expansionsOf, expansions, if_neg hk]
  exact List.append_nil _

theorem expansionsOf_expansion :
    expansionsOf start [.node .expansion ts] = (start, ts) :: expansionsOf start ts := by
  rw [expansionsOf, expansions, if_pos rfl]
  exact List.append_nil _

theorem expansionsOf_leaves (h : ∀ t ∈ ts, t.IsLeaf) : expansionsOf start ts = [] := by
  induction ts generalizing start with
  | nil => rfl
  | cons t ts ih =>
    obtain ⟨k, s, rfl⟩ := h t List.mem_cons_self
    exact ih fun u hu => h u (List.mem_cons_of_mem _ hu)

mutual

theorem filterMap_placed (depth start : Nat) (t : Tree) :
    (t.placed depth start).filterMap Placed.expansion? = t.expansions start := by
  match t with
  | leaf k s => rfl
  | node k ts =>
    rw [placed, expansions, List.filterMap_cons, filterMap_placedOf]
    by_cases hk : k = .expansion
    · simp [Placed.expansion?, hk]
    · simp [Placed.expansion?, hk]

theorem filterMap_placedOf (depth start : Nat) (ts : List Tree) :
    (placedOf depth start ts).filterMap Placed.expansion? = expansionsOf start ts := by
  match ts with
  | [] => rfl
  | t :: ts =>
    rw [placedOf, expansionsOf, List.filterMap_append, filterMap_placed, filterMap_placedOf]

end

section Bounds

theorem spotsOf_bounds {parent : NodeKind} {s : Spot} (h : s ∈ spotsOf parent start ts) :
    start ≤ s.offset ∧ s.offset + s.text.byteSize ≤ start + (textOf ts).byteSize := by
  obtain ⟨q, hq, ho, ht⟩ := placedOf_of_spotsOf h 0
  obtain ⟨-, hstart, hstop⟩ := placedOf_within hq
  rw [Placed.stop, ht, ho] at hstop
  exact ⟨ho ▸ hstart, hstop⟩

theorem expansionsOf_bounds {e : Nat × List Tree} (h : e ∈ expansionsOf start ts) {s : Spot}
    (hs : s ∈ spotsOf .expansion e.1 e.2) :
    start ≤ s.offset ∧ s.offset + s.text.byteSize ≤ start + (textOf ts).byteSize := by
  rw [← filterMap_placedOf 0] at h
  obtain ⟨p, hp, he⟩ := List.mem_filterMap.1 h
  obtain ⟨hstart, htree⟩ := Placed.expansion?_eq_some he
  have hw := placedOf_within hp
  rw [Placed.stop, htree, hstart, Tree.text] at hw
  have := spotsOf_bounds hs
  omega

theorem openedBy_bounds {e : Nat × List Tree} (h : e ∈ openedBy x (expansionsOf start ts)) :
    start ≤ x.position.offset ∧
      x.position.offset + x.text.byteSize ≤ start + (textOf ts).byteSize := by
  obtain ⟨he, ho⟩ := List.mem_filter.1 h
  have hs := List.mem_of_mem_head? (Option.mem_def.2 (beq_iff_eq.1 ho))
  exact expansionsOf_bounds he (List.mem_filter.1 hs).1

theorem openedBy_eq_nil (hx : x.text ≠ []) (h : x.position.offset < start ∨
    start + (textOf ts).byteSize ≤ x.position.offset) :
    openedBy x (expansionsOf start ts) = [] := by
  refine List.eq_nil_iff_forall_not_mem.2 fun e he => ?_
  have := openedBy_bounds he
  have := Text.byteSize_pos hx
  omega

end Bounds

theorem openedBy_append (es es' : List (Nat × List Tree)) :
    openedBy x (es ++ es') = openedBy x es ++ openedBy x es' := List.filter_append ..

namespace Located

theorem bounds (h : Located start ts x y) : start ≤ x.position.offset ∧
    x.position.offset + x.text.byteSize ≤ start + (textOf ts).byteSize := by
  obtain ⟨-, e, he, -⟩ := h
  exact openedBy_bounds (he ▸ List.mem_singleton_self e)

theorem left (h : Located start ts x y) : Located start (ts ++ us) x y := by
  have hb := h.bounds
  have := Text.byteSize_pos h.text
  obtain ⟨hx, e, he, hc⟩ := h
  refine ⟨hx, e, ?_, hc⟩
  rw [expansionsOf_append, openedBy_append, he, openedBy_eq_nil hx (.inl (by omega))]
  rfl

theorem right (h : Located (start + (textOf ts).byteSize) us x y) :
    Located start (ts ++ us) x y := by
  have hb := h.bounds
  obtain ⟨hx, e, he, hc⟩ := h
  refine ⟨hx, e, ?_, hc⟩
  rw [expansionsOf_append, openedBy_append, he, openedBy_eq_nil hx (.inr hb.1)]
  rfl

theorem of_eq (h : Located start ts x y) (he : expansionsOf start us = expansionsOf start ts) :
    Located start us x y := ⟨h.text, he ▸ h.node⟩

theorem expansion (h : Located start ts x y)
    (ho : opening? (start, ts) ≠ some (x.spot .expansion)) :
    Located start [.node .expansion ts] x y := by
  obtain ⟨hx, e, he, hc⟩ := h
  refine ⟨hx, e, ?_, hc⟩
  rw [expansionsOf_expansion, openedBy, List.filter_cons_of_neg (by simpa using ho)]
  exact he

end Located

section Leaves

variable {o c : Lexeme}

theorem spotsOf_leaves (parent : NodeKind) (ho : o.Stands start) : spotsOf parent start o.leaves =
    spotsOf parent start (o.leading.map Trivia.tree) ++ [o.token.spot parent] := by
  rw [Lexeme.leaves, Accounts.spotsOf_append, Lexeme.textOf_trivia, ← ho.offset]
  rfl

theorem opening?_leaves (ho : o.Stands start) (us : List Tree) :
    opening? (start, o.leaves ++ us) = some (o.token.spot .expansion) := by
  have hn : (spotsOf .expansion start (o.leading.map Trivia.tree)).filter Spot.ofToken = [] :=
    (Accounts.trivia ho.leading).spells.nil_iff
  rw [opening?, Accounts.spotsOf_append, spotsOf_leaves _ ho, List.append_assoc, List.filter_append,
    hn]
  rfl

theorem closing?_leaves (hc : c.Stands (start + (textOf ts).byteSize)) :
    closing? (start, ts ++ c.leaves) = some (c.token.spot .expansion) := by
  rw [closing?, Accounts.spotsOf_append, spotsOf_leaves _ hc, ← List.append_assoc,
    List.getLast?_concat]

end Leaves

end Tree

theorem Regroups.expansionsOf {ts us : List Tree} (h : Regroups ts us) (start : Nat) :
    Tree.expansionsOf start us = Tree.expansionsOf start ts := by
  induction h generalizing start with
  | refl => rfl
  | append h _ ih ih' => rw [Tree.expansionsOf_append, Tree.expansionsOf_append, ih, ih', h.textOf]
  | expression ts => exact Tree.expansionsOf_node (by decide)

namespace Nest

open MakeTree.Tree

theorem textOf_trees {n : Nest} {xs : List Lexeme} {start : Nat}
    (hx : xs.map ofLexeme = n.flatten) (hs : Lexeme.Seated start xs) :
    Tree.textOf n.trees = Lexeme.textOf xs :=
  (reading_trees (P := fun _ => True) trivial trivial n (k := .root) nofun).text hx.symm hs

theorem textOf_treesOf {ns : List Nest} {xs : List Lexeme} {start : Nat}
    (hx : xs.map ofLexeme = flattenAll ns) (hs : Lexeme.Seated start xs) :
    Tree.textOf (treesOf ns) = Lexeme.textOf xs :=
  (reading_treesOf (P := fun _ => True) trivial trivial ns (k := .root) nofun).text hx.symm hs

theorem located_expansion {opener closer : Lexeme} {us : List Tree} {start : Nat}
    (ho : opener.Stands start) (hot : opener.token.text ≠ [])
    (hc : closer.Stands (start + (opener.text.byteSize + (Tree.textOf us).byteSize))) :
    Located start [.node .expansion (opener.leaves ++ us ++ closer.leaves)] opener.token
      closer.token := by
  have hto : Tree.textOf opener.leaves = opener.text := Lexeme.textOf_leaves opener
  have leafless (x : Lexeme) (s : Nat) : expansionsOf s x.leaves = [] :=
    expansionsOf_leaves fun _ => Lexeme.isLeaf_of_mem_leaves
  refine ⟨hot, (start, opener.leaves ++ us ++ closer.leaves), ?_, ?_⟩
  · rw [expansionsOf_expansion, openedBy, List.filter_cons_of_pos, ← openedBy]
    · rw [expansionsOf_append, expansionsOf_append, leafless, leafless, List.append_nil,
        List.nil_append, hto, openedBy_eq_nil hot (.inl (ho.offset_lt hot))]
    · rw [List.append_assoc, opening?_leaves ho]
      exact beq_self_eq_true _
  · refine closing?_leaves ?_
    rwa [Tree.textOf_append, hto, Text.byteSize_append]

mutual

theorem located_trees {n : Nest} (hn : n.Sound) {xs : List Lexeme} {start : Nat}
    (hx : xs.map ofLexeme = n.flatten) (hs : Lexeme.Seated start xs) :
    ∀ b ∈ n.brackets, Located start n.trees b.1.token b.2.token := by
  match n with
  | leaf x => exact fun _ hb => absurd hb List.not_mem_nil
  | quoted x inside trailing => exact fun _ hb => absurd hb List.not_mem_nil
  | raw x => exact fun _ hb => absurd hb List.not_mem_nil
  | expansion opener body closer =>
    obtain ⟨ys, rfl, hy⟩ := map_ofLexeme_eq_expansion hx
    obtain ⟨⟨ho, -⟩, hs⟩ := Lexeme.seated_append.1 hs
    obtain ⟨hbody, hc, -⟩ := Lexeme.seated_append.1 hs
    have hone : Lexeme.textOf [opener] = opener.text := List.append_nil _
    rw [hone] at hbody hc
    have hr := Part.layout_regroups (parts body)
    have htext : Tree.textOf (Part.layout (parts body)) = Lexeme.textOf ys :=
      hr.textOf.trans (textOf_treesOf hy hbody)
    intro b hb
    rcases List.mem_cons.1 hb with rfl | hb
    · refine located_expansion ho hn.1.text ?_
      rwa [htext, ← Nat.add_assoc]
    · -- the expansion itself starts at its own opener, in front of all that its body holds
      have hin := (located_treesOf hn.2.2.1 hy hbody b hb).of_eq (hr.expansionsOf _)
      rw [← Lexeme.textOf_leaves] at hin
      refine hin.right.left.expansion fun he => ?_
      rw [List.append_assoc, opening?_leaves ho] at he
      have heq : opener.token.position.offset = b.1.token.position.offset :=
        congrArg Spot.offset (Option.some.inj he)
      have hlt := ho.offset_lt hn.1.text
      have hle := hin.bounds.1
      rw [Lexeme.textOf_leaves] at hle
      omega

theorem located_treesOf {ns : List Nest} (hn : SoundAll ns) {xs : List Lexeme} {start : Nat}
    (hx : xs.map ofLexeme = flattenAll ns) (hs : Lexeme.Seated start xs) :
    ∀ b ∈ bracketsOf ns, Located start (treesOf ns) b.1.token b.2.token := by
  match ns with
  | [] => exact fun _ hb => absurd hb List.not_mem_nil
  | n :: ns =>
    obtain ⟨ys, zs, rfl, ⟨hy, h₁⟩, hz, h₂⟩ := Lexeme.seated_split hx hs
    intro b hb
    show Located start (n.trees ++ treesOf ns) _ _
    rcases List.mem_append.1 hb with hb | hb
    · exact (located_trees hn.1 hy h₁ b hb).left
    · refine .right ?_
      rw [textOf_trees hy h₁]
      exact located_treesOf hn.2 hz h₂ b hb

end

end Nest

/-- What nests hold, and where it is found. It is found in the trees of a part of the nests just as in
those of all, and nodes that are no expansions may stand around. -/
structure Nest.Finds {β : Type} (items : List Nest → List β)
    (R : β → Nat → List Lexeme → List Tree → Prop) : Prop where
  append : ∀ ms ns, items (ms ++ ns) = items ms ++ items ns
  nil : items [] = []
  leaf : ∀ x, items [.leaf x] = []
  quoted : ∀ x inside trailing, items [.quoted x inside trailing] = []
  raw : ∀ x, items [.raw x] = []
  left : ∀ {b start xs ys ts us}, R b start xs ts → R b start (xs ++ ys) (ts ++ us)
  right : ∀ {b start xs ys ts us}, Tree.textOf ts = Lexeme.textOf xs →
    R b (start + (Lexeme.textOf xs).byteSize) ys us → R b start (xs ++ ys) (ts ++ us)
  of_eq : ∀ {b start xs ts us}, R b start xs ts →
    Tree.expansionsOf start us = Tree.expansionsOf start ts → R b start xs us
  treesOf : ∀ {ns start xs}, SoundAll ns → xs.map ofLexeme = flattenAll ns →
    Lexeme.Seated start xs → ∀ b ∈ items ns, R b start xs (treesOf ns)

namespace Laid

open MakeTree.Tree

variable {k : NodeKind} {ns : List Nest} {ts : List Tree} {xs : List Lexeme} {start : Nat}

theorem finds {β : Type} {items : List Nest → List β} {R : β → Nat → List Lexeme → List Tree → Prop}
    (hf : Nest.Finds items R) (h : Laid k ns ts) (hx : xs.map Nest.ofLexeme = Nest.flattenAll ns)
    (hs : Lexeme.Seated start xs) : ∀ b ∈ items ns, R b start xs ts := by
  induction h generalizing xs start with
  | nil => simp [hf.nil]
  | @append k ms ns ts us h _ ih ih' =>
    rw [Nest.flattenAll_append] at hx
    obtain ⟨ys, zs, rfl, ⟨hy, h₁⟩, hz, h₂⟩ := Lexeme.seated_split hx hs
    intro b hb
    rw [hf.append] at hb
    rcases List.mem_append.1 hb with hb | hb
    · exact hf.left (ih hy h₁ b hb)
    · exact hf.right (h.text hy h₁) (ih' hz h₂ b hb)
  | @node j k ns ts h hc _ ih =>
    exact fun b hb => hf.of_eq (ih hx hs b hb) (expansionsOf_node (h.ne_expansion hc))
  | leaf => simp [hf.leaf]
  | contents hn => exact hf.treesOf hn hx hs
  | @lookup _ ns hn =>
    intro b hb
    have hname : R b start xs [.node .expression (Nest.treesOf ns)] :=
      hf.of_eq (hf.treesOf hn hx hs b hb) (expansionsOf_node (by decide))
    exact hf.of_eq hname (expansionsOf_node (by decide))
  | quoted => simp [hf.quoted]
  | raw => simp [hf.raw]
  | @definition k us ns ms hd te name h _ hn _ _ ih ih' =>
    rw [Nest.flattenAll_append, Nest.flattenAll_append] at hx
    obtain ⟨ys, xs, rfl, ⟨hy, h₁⟩, hx, hs⟩ := Lexeme.seated_split hx hs
    obtain ⟨zs, ws, rfl, ⟨hz, h₂⟩, hw, h₃⟩ := Lexeme.seated_split hx hs
    have hbody : textOf [.node .expression (Nest.treesOf ns)] = Lexeme.textOf zs :=
      (List.append_nil _).trans (Nest.textOf_treesOf hz h₂)
    intro b hb
    rw [hf.append, hf.append] at hb
    refine hf.of_eq ?_ (expansionsOf_node (by decide))
    rcases List.mem_append.1 hb with hb | hb
    · exact hf.left (ih hy h₁ b hb)
    · refine hf.right (h.text hy h₁) ?_
      rw [← List.singleton_append]
      rcases List.mem_append.1 hb with hb | hb
      · exact hf.left (hf.of_eq (hf.treesOf hn hz h₂ b hb) (expansionsOf_node (by decide)))
      · exact hf.right hbody (ih' hw h₃ b hb)

theorem finds_located : Nest.Finds Nest.bracketsOf
    fun b start _ ts => Located start ts b.1.token b.2.token where
  append := Nest.bracketsOf_append
  nil := rfl
  leaf _ := rfl
  quoted _ _ _ := rfl
  raw _ := rfl
  left h := h.left
  right ht h := .right (ht ▸ h)
  of_eq h he := h.of_eq he
  treesOf hn hx hs := Nest.located_treesOf hn hx hs

/-- Every expansion of the nests is where its opener and its closer are. -/
theorem located (h : Laid k ns ts) (hx : xs.map Nest.ofLexeme = Nest.flattenAll ns)
    (hs : Lexeme.Seated start xs) :
    ∀ b ∈ Nest.bracketsOf ns, Located start ts b.1.token b.2.token :=
  h.finds finds_located hx hs

end Laid

end MakeTree
