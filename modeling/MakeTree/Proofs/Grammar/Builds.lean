import MakeTree.Proofs.Grammar.Extent
import MakeTree.Proofs.Nest.Laid

/-!
What parsers build, and why they refuse. `Builds k p ns Q` says that `p`, started in front of `ns`,
either takes some first nests of these and lays them out as children of a node of kind `k`, with `Q`
of its value, the nests it leaves and the trees, or refuses one of the tokens or their end
(`Blames`).
-/

namespace MakeTree

/-- A line as it comes of a text: no line break but at the end, sound nests, and a comment at most
in front of the line break. -/
structure Line.Sound (line : Line) : Prop where
  single : Nest.Single line
  nests : Nest.SoundAll line
  comments : Nest.CommentsEnd line

namespace Line.Sound

variable {us ns : List Nest}

theorem suffix (h : Line.Sound (us ++ ns)) : Line.Sound ns where
  single := h.single.suffix
  nests := Nest.soundAll_iff.2 fun n hn =>
    Nest.soundAll_iff.1 h.nests n (List.mem_append_right us hn)
  comments := h.comments.right

theorem left (h : Line.Sound (us ++ ns)) : Nest.SoundAll us :=
  Nest.soundAll_iff.2 fun n hn => Nest.soundAll_iff.1 h.nests n (List.mem_append_left ns hn)

theorem head {n : Nest} (h : Line.Sound (n :: ns)) : n.Sound := h.nests.1

end Line.Sound

/-- What may be missing. A conditional is parsed only where its keyword is known to stand, and the
fragments of an expression only while there are any. -/
def Expected.Missable (expected : List Expected) : Prop :=
  .conditional ∉ expected ∧ .expression ∉ expected

/-- What is waited for where no expansion is open. -/
def Expected.Ordinary (expected : List Expected) : Prop :=
  .token .expansionSuffix ∉ expected ∧ Expected.Missable expected

instance (expected : List Expected) : Decidable (Expected.Missable expected) :=
  inferInstanceAs (Decidable (_ ∧ _))

instance (expected : List Expected) : Decidable (Expected.Ordinary expected) :=
  inferInstanceAs (Decidable (_ ∧ _))

/-- Why nests are refused: for one of their tokens, which closes no expansion, or for their end,
where nothing is waited for to close one. At a line break, that may be what is missing. -/
inductive Blames (ns : List Nest) : ParseError → Prop
  | token {n : Nest} (hn : n ∈ Nest.flattenAll ns) (hk : n.kind ≠ .expansionSuffix)
      {expected : List Expected} (he : .token .expansionSuffix ∈ expected → n.kind = .lineBreak)
      (hc : Expected.Missable expected) : Blames ns (.unexpectedToken n.token expected)
  | atEnd {expected : List Expected} (he : .token .expansionSuffix ∉ expected)
      (hc : Expected.Missable expected) : Blames ns (.unexpectedEnd expected)

namespace Blames

variable {ns : List Nest} {e : ParseError}

theorem mono {ms : List Nest} (h : Blames ms e)
    (hs : ∀ n ∈ Nest.flattenAll ms, n ∈ Nest.flattenAll ns) : Blames ns e := by
  cases h with
  | token hn hk he hc => exact .token (hs _ hn) hk he hc
  | atEnd he hc => exact .atEnd he hc

theorem suffix {us ms : List Nest} (h : Blames ms e) : Blames (us ++ ms) e :=
  h.mono fun n hn => by
    rw [Nest.flattenAll_append]
    exact List.mem_append_right _ hn

theorem left {us ms : List Nest} (h : Blames us e) : Blames (us ++ ms) e :=
  h.mono fun n hn => by
    rw [Nest.flattenAll_append]
    exact List.mem_append_left _ hn

theorem head {n : Nest} {ms : List Nest} (h : n.Sound) {expected : List Expected}
    (he : Expected.Ordinary expected) :
    Blames (n :: ms) (.unexpectedToken n.token expected) := by
  have blame {m : Nest} (hm : m ∈ n.flatten) (ht : m.token = n.token)
      (hk : n.kind ≠ .expansionSuffix) : Blames (n :: ms) (.unexpectedToken n.token expected) :=
    ht ▸ .token (List.mem_append_left _ hm) (by rwa [Nest.kind, ht]) (fun h => absurd h he.1) he.2
  cases n with
  | leaf x => exact blame List.mem_cons_self rfl h.2.2.1
  | quoted x inside trailing =>
    exact blame List.mem_cons_self rfl fun hk => absurd (hk.symm.trans h.2.1) (by decide)
  | raw x => exact blame List.mem_cons_self rfl fun hk => absurd (hk.symm.trans h.2) (by decide)
  | expansion opener body closer =>
    refine blame (m := .leaf opener) List.mem_cons_self rfl fun hk => ?_
    exact absurd (hk.symm.trans h.2.1) (by decide)

end Blames

namespace Tree

/-- What stands beside the parts of a statement: blanks, a comment, the end of the line. -/
structure Margin (ts : List Tree) : Prop where
  nodes : nodesOf ts = []
  marks : ∀ m ∈ marks ts, m.1 = .whitespace ∨ m.1 = .recipePrefix ∨ m.1 = .comment ∨
    m.1 = .lineBreak

theorem Margin.nil : Margin [] := ⟨rfl, nofun⟩

theorem Margin.append {ts us : List Tree} (h : Margin ts) (h' : Margin us) : Margin (ts ++ us) := by
  constructor
  · rw [nodesOf_append, h.nodes, h'.nodes]
    rfl
  · intro m hm
    rw [marks_append] at hm
    exact (List.mem_append.1 hm).elim (h.marks m) (h'.marks m)

section Margin

variable {ts : List Tree} (h : Margin ts)

include h

theorem Margin.kinds : Tree.kinds ts = [] := kinds_of_nodesOf h.nodes

theorem Margin.not_mem {j : TokenKind} {s : Text} (hj : ¬ (j = .whitespace ∨ j = .recipePrefix ∨
    j = .comment ∨ j = .lineBreak)) : (j, s) ∉ Tree.marks ts := fun hm => hj (h.marks _ hm)

theorem Margin.specifiers : Tree.specifiers ts = [] := by
  refine specifiers_eq_nil fun m hm => ?_
  rcases h.marks m hm with hk | hk | hk | hk <;> rw [hk] <;> rfl

end Margin

/-- The leaf of one nest. -/
structure LeafOf (n : Nest) (ts : List Tree) : Prop where
  nodes : nodesOf ts = []
  marks : marks ts = [(n.kind, n.token.text)]

/-- What the first token of the trees is, behind what the lexer passes over. -/
def LedBy (q : Token → Bool) (ts : List Tree) : Prop :=
  ∃ x : Lexeme, q x.token = true ∧ x.leaves <+: ts

theorem LeafOf.kinds {n : Nest} {ts : List Tree} (h : LeafOf n ts) : Tree.kinds ts = [] :=
  kinds_of_nodesOf h.nodes

theorem LeafOf.specifiers {n : Nest} {ts : List Tree} (h : LeafOf n ts) :
    Tree.specifiers ts = n.kind.specifier?.toList := by
  rw [Tree.specifiers, h.marks, List.filterMap_cons, List.filterMap_nil]
  cases n.kind.specifier? <;> rfl

theorem LeafOf.margin {n : Nest} {ts : List Tree} (h : LeafOf n ts) (hk : n.kind = .whitespace ∨
    n.kind = .recipePrefix ∨ n.kind = .comment ∨ n.kind = .lineBreak) : Margin ts := by
  refine ⟨h.nodes, fun m hm => ?_⟩
  rw [h.marks] at hm
  rw [List.mem_singleton.1 hm]
  exact hk

end Tree

namespace Nest

open MakeTree.Tree

variable {k : NodeKind}

theorem Sound.eq_leaf {n : Nest} (h : n.Sound) (hb : k.allows n.kind = true) :
    n = leaf n.first ∧ n.trees = n.first.leaves := by
  have ne {t : TokenKind} (ht : n.kind = t) : k.allows t = true := ht ▸ hb
  cases n with
  | leaf x =>
    have hk : x.token.kind ≠ .varRef := fun hk => absurd (ne hk) nofun
    exact ⟨rfl, by simp [trees, Lexeme.trees, Lexeme.isReference, hk, first]⟩
  | quoted x inside trailing => exact absurd (ne h.2.1) nofun
  | raw x => exact absurd (ne h.2) nofun
  | expansion opener body closer => exact absurd (ne h.2.1) nofun

theorem Sound.bare {n : Nest} (h : n.Sound) (hb : k.allows n.kind = true) :
    Laid k [n] n.trees ∧ LeafOf n n.trees := by
  obtain ⟨hn, ht⟩ := h.eq_leaf hb
  rw [ht]
  refine ⟨?_, nodesOf_leaves _, marks_leaves _⟩
  conv => enter [2]; rw [hn]
  exact .leaf n.first hb

theorem bares {us : List Nest} (h : SoundAll us) (hb : ∀ n ∈ us, k.allows n.kind = true) :
    Laid k us (treesOf us) ∧ nodesOf (treesOf us) = [] ∧
      marks (treesOf us) = us.map fun n => (n.kind, n.token.text) := by
  induction us with
  | nil => exact ⟨.nil k, rfl, rfl⟩
  | cons n us ih =>
    obtain ⟨hn, hm⟩ := h.1.bare (hb n List.mem_cons_self)
    obtain ⟨h₁, h₂, h₃⟩ := ih h.2 fun m hm => hb m (List.mem_cons_of_mem n hm)
    have he : treesOf (n :: us) = n.trees ++ treesOf us := rfl
    rw [he, nodesOf_append, marks_append, hm.nodes, hm.marks, h₂, h₃]
    exact ⟨hn.append h₁, rfl, rfl⟩

end Nest

namespace Parser

open MakeTree.Tree

variable {α β : Type}

/-- What comes of a run that started in front of `ns` with `outer` built. -/
def Yields (k : NodeKind) (ns : List Nest) (Q : α → List Nest → List Tree → Prop)
    (outer : List Tree) : EStateM.Result ParseError Cursor α → Prop
  | .ok a s => ∃ us ts, ns = us ++ s.unread ∧ s.built = outer ++ ts ∧ Laid k us ts ∧
      Q a s.unread ts
  | .error e _ => Blames ns e

def Builds (k : NodeKind) (p : Parser α) (ns : List Nest)
    (Q : α → List Nest → List Tree → Prop) : Prop :=
  Line.Sound ns → ∀ outer es, Yields k ns Q outer (p ⟨ns, outer, es⟩)

variable {k : NodeKind} {ns : List Nest} {p : Parser α} {f : α → Parser β}
  {Q : α → List Nest → List Tree → Prop} {W : β → List Nest → List Tree → Prop}

theorem Builds.of_takes (h : Builds k p ns Q) (hl : Line.Sound ns) {a : α} {ms : List Nest}
    {ts : List Tree} (ht : Takes p ns a ms ts) : Q a ms ts := by
  obtain ⟨es, ht⟩ := ht [] []
  have hy := h hl [] []
  rw [ht] at hy
  obtain ⟨us, ts', -, hb, -, hq⟩ := hy
  obtain rfl : ts = ts' := hb
  exact hq

theorem Builds.mono {Q' : α → List Nest → List Tree → Prop} (h : Builds k p ns Q)
    (hQ : ∀ a ms ts, Q a ms ts → Q' a ms ts) : Builds k p ns Q' := by
  intro hl outer es
  have hp := h hl outer es
  cases hr : p ⟨ns, outer, es⟩ with
  | ok a s =>
    rw [hr] at hp
    obtain ⟨us, ts, h₁, h₂, h₃, h₄⟩ := hp
    exact ⟨us, ts, h₁, h₂, h₃, hQ _ _ _ h₄⟩
  | error e s =>
    rw [hr] at hp
    exact hp

theorem builds_of_sound (h : Line.Sound ns → Builds k p ns Q) : Builds k p ns Q :=
  fun hl => h hl hl

theorem builds_pure {a : α} (h : Q a ns []) : Builds k (pure a) ns Q :=
  fun _ outer _ => ⟨[], [], rfl, (List.append_nil outer).symm, .nil k, h⟩

theorem builds_bind (hp : Builds k p ns Q) (hf : ∀ a us ms ts, ns = us ++ ms → Q a ms ts →
    Builds k (f a) ms (fun b ls vs => W b ls (ts ++ vs))) : Builds k (p >>= f) ns W := by
  intro hl outer es
  have hp := hp hl outer es
  show Yields k ns W outer (EStateM.bind p f _)
  unfold EStateM.bind
  cases hr : p ⟨ns, outer, es⟩ with
  | error e s =>
    rw [hr] at hp
    exact hp
  | ok a s =>
    rw [hr] at hp
    obtain ⟨us, ts, hns, hb, hlaid, hq⟩ := hp
    obtain ⟨ms, built, es'⟩ := s
    simp only at hns hb hq
    subst hns hb
    have hf := hf a us ms ts rfl hq hl.suffix (outer ++ ts) es'
    show Yields k (us ++ ms) W outer (f a ⟨ms, outer ++ ts, es'⟩)
    cases hr' : f a ⟨ms, outer ++ ts, es'⟩ with
    | error e s =>
      rw [hr'] at hf
      exact hf.suffix
    | ok b s =>
      rw [hr'] at hf
      obtain ⟨vs, ws, h₁, h₂, h₃, h₄⟩ := hf
      refine ⟨us ++ vs, ts ++ ws, ?_, ?_, hlaid.append h₃, h₄⟩
      · rw [h₁, List.append_assoc]
      · rw [h₂, List.append_assoc]

/-- What builds the children of a node, which are laid out as if it was of kind `i`, builds the
node. -/
theorem builds_within_of {i j : NodeKind} {V : α → List Nest → List Tree → Prop}
    (h : Builds i p ns V) (hQ : ∀ a us ms ts, ns = us ++ ms → Laid i us ts → V a ms ts →
      Laid k us [.node j ts] ∧ Q a ms [.node j ts]) : Builds k (within j p) ns Q := by
  intro hl outer es
  have hp := h hl [] es
  rw [within_eq]
  cases hr : p ⟨ns, [], es⟩ with
  | error e s =>
    rw [hr] at hp
    exact hp
  | ok a s =>
    rw [hr] at hp
    obtain ⟨us, ts, h₁, h₂, h₃, h₄⟩ := hp
    rw [List.nil_append] at h₂
    exact ⟨us, [.node j ts], h₁, by rw [h₂], hQ a us _ ts h₁ h₃ h₄⟩

theorem builds_within {j : NodeKind} (hj : j ≠ .expression)
    (h : Builds j p ns fun a ms ts => Node.Conforms (k := j) ⟨ts⟩ ∧ Q a ms [.node j ts]) :
    Builds k (within j p) ns Q :=
  builds_within_of h fun _ _ _ _ _ hl hQ =>
    ⟨hl.node hQ.1 fun he => absurd he hj, hQ.2⟩

theorem builds_ite {c : Prop} [Decidable c] {q : Parser α} (h : c → Builds k p ns Q)
    (h' : ¬ c → Builds k q ns Q) : Builds k (if c then p else q) ns Q := by
  by_cases hc : c
  · rw [if_pos hc]
    exact h hc
  · rw [if_neg hc]
    exact h' hc

theorem builds_unread_bind {f : List Nest → Parser β} (h : Builds k (f ns) ns W) :
    Builds k (unread >>= f) ns W := h

theorem builds_kind?_bind {f : Option TokenKind → Parser β}
    (h : Builds k (f (ns.head?.map Nest.kind)) ns W) : Builds k (kind? >>= f) ns W := h

theorem builds_nextIs_bind {q : Nest → Bool} {f : Bool → Parser β}
    (h : Builds k (f (ns.head?.any q)) ns W) : Builds k (nextIs q >>= f) ns W := h

theorem builds_endsOr_bind {q : Nest → Bool} {f : Bool → Parser β}
    (h : Builds k (f (ns.head?.all fun n => n.isLineBreak || n.isComment || q n)) ns W) :
    Builds k (endsOr q >>= f) ns W := h

section Basic

variable {expected : List Expected} {q : Nest → Bool}

theorem builds_failAt {us ms : List Nest} (hn : ns = us ++ ms)
    (he : Expected.Ordinary expected) : Builds k (failAt ms expected) ns Q := by
  intro hl outer es
  subst hn
  cases ms with
  | nil => exact .atEnd he.1 he.2
  | cons n ms => exact (Blames.head hl.suffix.head he).suffix

theorem builds_fail (he : Expected.Ordinary expected) : Builds k (fail expected) ns Q :=
  builds_unread_bind (builds_failAt (List.nil_append ns).symm he)

theorem builds_move {us ms : List Nest} (hb : ∀ n ∈ us, k.allows n.kind = true) :
    Builds k (move us.length) (us ++ ms) fun _ ls ts => ls = ms ∧ nodesOf ts = [] ∧
      marks ts = us.map fun n => (n.kind, n.token.text) := by
  intro hl outer es
  obtain ⟨h₁, h₂, h₃⟩ := Nest.bares hl.left hb
  refine ⟨us, Nest.treesOf us, ?_, ?_, h₁, ?_, h₂, h₃⟩
  · simp
  · simp
  · simp

theorem builds_moveWhile (hb : ∀ n, q n = true → k.allows n.kind = true) :
    Builds k (moveWhile q) ns fun _ ms ts => ms = ns.dropWhile q ∧ nodesOf ts = [] ∧
      marks ts = (ns.takeWhile q).map fun n => (n.kind, n.token.text) := by
  have h : Builds k (move (ns.takeWhile q).length) (ns.takeWhile q ++ ns.dropWhile q)
      fun _ ms ts => ms = ns.dropWhile q ∧ nodesOf ts = [] ∧
        marks ts = (ns.takeWhile q).map fun n => (n.kind, n.token.text) :=
    builds_move fun n hn => hb n (List.mem_takeWhile_imp hn)
  rwa [List.takeWhile_append_dropWhile] at h

theorem builds_margin (hq : ∀ n, q n = true → n.kind = .whitespace ∨ n.kind = .recipePrefix) :
    Builds k (moveWhile q) ns fun _ ms ts => ms = ns.dropWhile q ∧ Margin ts := by
  have hb (n : Nest) (hn : q n = true) : k.allows n.kind = true := by
    rcases hq n hn with h | h <;> rw [h] <;> rfl
  refine (builds_moveWhile hb).mono ?_
  rintro _ ms ts ⟨h₁, h₂, h₃⟩
  refine ⟨h₁, h₂, fun m hm => ?_⟩
  rw [h₃] at hm
  obtain ⟨n, hn, rfl⟩ := List.mem_map.1 hm
  exact (hq n (List.mem_takeWhile_imp hn)).imp_right .inl

theorem builds_skipWhitespace : Builds k skipWhitespace ns fun _ ms ts =>
    ms = ns.dropWhile Nest.isWhitespace ∧ Margin ts :=
  builds_margin fun n hn => .inl (by simpa [Nest.isWhitespace] using hn)

theorem builds_skipLeading : Builds k skipLeading ns fun _ ms ts =>
    ms = Line.afterLeading ns ∧ Margin ts := by
  refine builds_margin fun n hn => ?_
  unfold TokenKind.isLeading at hn
  split at hn
  · next h => exact .inl h
  · next h => exact .inr h
  · cases hn

theorem builds_take {n : Nest} {ms : List Nest} (hb : k.allows n.kind = true) :
    Builds k advance (n :: ms) fun _ ls ts => ls = ms ∧ ts = n.trees := by
  intro hl outer es
  have hb := (hl.head.bare hb).1
  exact ⟨[n], n.trees, rfl, congrArg (outer ++ ·) (List.append_nil n.trees), hb, rfl, rfl⟩

theorem builds_advance {n : Nest} {ms : List Nest} (hb : k.allows n.kind = true) :
    Builds k advance (n :: ms) fun _ ls ts => ls = ms ∧ LeafOf n ts := by
  refine builds_of_sound fun hl => (builds_take hb).mono ?_
  rintro _ ls ts ⟨rfl, rfl⟩
  exact ⟨rfl, (hl.head.bare hb).2⟩

theorem builds_advanceIf (hb : ∀ n, q n = true → k.allows n.kind = true) :
    Builds k (advanceIf q) ns fun _ ms ts =>
      (∃ n, q n = true ∧ ns = n :: ms ∧ LeafOf n ts) ∨
        ns.head?.any q = false ∧ ms = ns ∧ ts = [] := by
  refine builds_nextIs_bind ?_
  cases ns with
  | nil => exact builds_pure (.inr ⟨rfl, rfl, rfl⟩)
  | cons n ns =>
    refine builds_ite (fun h => ?_) fun h => builds_pure (.inr ⟨by simpa using h, rfl, rfl⟩)
    refine (builds_advance (hb n h)).mono ?_
    rintro _ ls ts ⟨rfl, hm⟩
    exact .inl ⟨n, h, rfl, hm⟩

theorem builds_expect (hb : ∀ n, q n = true → k.allows n.kind = true)
    (he : Expected.Ordinary expected) : Builds k (expect q expected) ns fun _ ms ts =>
      ∃ n, n.Sound ∧ q n = true ∧ ns = n :: ms ∧ LeafOf n ts := by
  refine builds_of_sound fun hl => builds_nextIs_bind ?_
  cases ns with
  | nil => exact builds_fail he
  | cons n ns =>
    refine builds_ite (fun h => ?_) fun _ => builds_fail he
    refine (builds_advance (hb n h)).mono ?_
    rintro _ ls ts ⟨rfl, hm⟩
    exact ⟨n, hl.head, h, rfl, hm⟩

theorem builds_refuse (he : Expected.Ordinary expected) :
    Builds k (refuse q expected) ns fun _ ms ts => ms = ns ∧ ts = [] ∧ ∃ n ls, ns = n :: ls ∧
      n.isLineBreak = false ∧ n.isComment = false ∧ q n = false := by
  refine builds_endsOr_bind ?_
  cases ns with
  | nil => exact builds_fail he
  | cons n ns =>
    refine builds_ite (fun _ => builds_fail he) fun h => ?_
    simp only [List.head?_cons, Option.all_some, Bool.or_eq_true, not_or, Bool.not_eq_true] at h
    exact builds_pure ⟨rfl, rfl, n, ns, rfl, h.1.1, h.1.2, h.2⟩

theorem bare_of_isComment (hk : k.bearsComments = true) {n : Nest} (h : n.isComment = true) :
    k.allows n.kind = true := by
  rw [show n.kind = .comment by simpa [Nest.isComment] using h]
  exact hk

theorem bare_of_isLineBreak {n : Nest} (h : n.isLineBreak = true) : k.allows n.kind = true := by
  rw [show n.kind = .lineBreak by simpa [Nest.isLineBreak] using h]
  rfl

theorem builds_endOfLine (hk : k.bearsComments = true) :
    Builds k endOfLine ns fun _ ms ts => ms = [] ∧ Margin ts ∧
      ((ns.dropWhile Nest.isWhitespace).head?.any Nest.isComment = true →
        ∃ s, (.comment, s) ∈ marks ts) := by
  refine builds_of_sound fun hl => ?_
  refine builds_bind builds_skipWhitespace fun _ us ms ts hms hm => ?_
  obtain ⟨rfl, hw⟩ := hm
  rw [hms] at hl
  refine builds_bind (builds_advanceIf fun _ => bare_of_isComment hk) fun _ vs ls us hls hc => ?_
  have hcm : Margin us := by
    obtain ⟨n, hn, -, hm⟩ | ⟨-, -, rfl⟩ := hc
    · exact hm.margin (.inr (.inr (.inl (by simpa [Nest.isComment] using hn))))
    · exact .nil
  have hcs (ws : List Tree)
      (hh : (ns.dropWhile Nest.isWhitespace).head?.any Nest.isComment = true) :
      ∃ s, (.comment, s) ∈ marks (ts ++ (us ++ ws)) := by
    obtain ⟨n, hn, -, hm⟩ | ⟨hn, -⟩ := hc
    · have hk : n.kind = .comment := by simpa [Nest.isComment] using hn
      exact ⟨n.token.text, by simp [hm.marks, hk]⟩
    · rw [hn] at hh
      cases hh
  refine builds_unread_bind ?_
  cases hls' : ls with
  | nil => exact builds_pure ⟨rfl, hw.append (hcm.append .nil), hcs []⟩
  | cons n ls' =>
    refine (builds_expect (fun _ => bare_of_isLineBreak) (by decide)).mono ?_
    rintro _ ls₂ ws ⟨m, -, hm, he, hmark⟩
    obtain ⟨rfl, rfl⟩ := List.cons.inj he
    rw [hls, hls'] at hl
    have hb : Margin ws := hmark.margin (.inr (.inr (.inr (by simpa [Nest.isLineBreak] using hm))))
    exact ⟨hl.suffix.suffix.single.eq_nil hm, hw.append (hcm.append hb), hcs ws⟩

end Basic

end Parser

end MakeTree
