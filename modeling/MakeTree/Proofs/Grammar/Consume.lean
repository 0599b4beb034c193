import MakeTree.Grammar.Statement
import MakeTree.Proofs.Nest.Pairing
import MakeTree.Proofs.Grammar.ReadFragments

/-!
What a parser that succeeds has taken off its line. `Consumes R p ns Q` says that `p`, started in
front of `ns`, takes some first nests of these and builds trees that `R` relates to them, and that
`Q` holds of its value and of the nests it leaves. The rules are proved for every `R` that goes
along with the steps parsers are made of (`Reads`).
-/

namespace MakeTree

/-- The kinds of node that stay on one line or hold a definition. -/
def NodeKind.Inner (k : NodeKind) : Prop := k ≠ .root ∧ k ≠ .branch

namespace Nest

/-- At most the last nest is a line break. -/
def Single (ns : List Nest) : Prop :=
  ∀ us n ms, ns = us ++ n :: ms → n.isLineBreak = true → ms = []

theorem Single.suffix {us ns : List Nest} (h : Single (us ++ ns)) : Single ns := by
  rintro vs n ms rfl hn
  exact h (us ++ vs) n ms (List.append_assoc _ _ _).symm hn

theorem Single.tail {n : Nest} {ns : List Nest} (h : Single (n :: ns)) : Single ns := by
  have h : Single ([n] ++ ns) := h
  exact h.suffix

theorem Single.eq_nil {n : Nest} {ns : List Nest} (h : Single (n :: ns))
    (hn : n.isLineBreak = true) : ns = [] := h [] n ns rfl hn

theorem kind_of_isText {n : Nest} {s : Text} (h : n.isText s = true) : n.kind = .plainText := by
  simp only [isText, Token.isText, Bool.and_eq_true, beq_iff_eq] at h
  exact h.1

/-- A nest that may be moved by itself into a node of kind `k`. -/
def Movable (k : NodeKind) (n : Nest) : Prop :=
  n.kind ≠ .expansionPrefix ∧ (k = .condition → n.kind ≠ .stringLiteral)

theorem movable_of_kind {k : NodeKind} {n : Nest} {t : TokenKind} (h : n.kind = t)
    (h₁ : t ≠ .expansionPrefix) (h₂ : t ≠ .stringLiteral) : n.Movable k :=
  ⟨h ▸ h₁, fun _ => h ▸ h₂⟩

theorem movable_of_isText {k : NodeKind} {n : Nest} {s : Text} (h : n.isText s = true) :
    n.Movable k :=
  movable_of_kind (kind_of_isText h) (by decide) (by decide)

theorem movable_of_isWhitespace {k : NodeKind} {n : Nest} (h : n.isWhitespace = true) :
    n.Movable k :=
  movable_of_kind (by simpa [isWhitespace] using h) (by decide) (by decide)

theorem movable_of_isLineBreak {k : NodeKind} {n : Nest} (h : n.isLineBreak = true) :
    n.Movable k :=
  movable_of_kind (by simpa [isLineBreak] using h) (by decide) (by decide)

theorem movable_of_isComment {k : NodeKind} {n : Nest} (h : n.isComment = true) : n.Movable k :=
  movable_of_kind (by simpa [isComment] using h) (by decide) (by decide)

theorem movable_of_isAssignOp {k : NodeKind} {n : Nest} (h : n.isAssignOp = true) :
    n.Movable k :=
  movable_of_kind (by simpa [isAssignOp] using h) (by decide) (by decide)

theorem movable_of_isColon {k : NodeKind} {n : Nest} (h : n.isColon = true) : n.Movable k :=
  movable_of_kind (by simpa [isColon] using h) (by decide) (by decide)

theorem movable_of_isLeading {k : NodeKind} {n : Nest} (h : n.kind.isLeading = true) :
    n.Movable k := by
  constructor
  · intro hk
    rw [hk] at h
    cases h
  · intro _ hk
    rw [hk] at h
    cases h

end Nest

namespace Parser

variable {α β : Type}

def Consumes (R : List Nest → List Tree → Prop) (p : Parser α) (ns : List Nest)
    (Q : α → List Nest → Prop) : Prop :=
  ∀ outer es a s, p ⟨ns, outer, es⟩ = .ok a s →
    ∃ us ts, ns = us ++ s.unread ∧ s.built = outer ++ ts ∧ R us ts ∧ Q a s.unread

/-- Relations that go along with what parsers do. -/
structure Reads (R : NodeKind → List Nest → List Tree → Prop) : Prop where
  nil : ∀ k, R k [] []
  append : ∀ {k ms ns ts us}, R k ms ts → R k ns us → R k (ms ++ ns) (ts ++ us)
  node : ∀ {j k ns ts}, j.Inner → R j ns ts → R k ns [.node j ts]
  single : ∀ {k n}, n.Movable k → R k [n] n.trees
  /-- the contents of an expression, in which no expansion breaks the line -/
  contents : ∀ {ns}, (∀ n ∈ ns, n.Closed → Solid n) → R .expression ns (Nest.treesOf ns)
  quoted : ∀ x inside trailing, R .condition [.quoted x inside trailing]
    (x.openQuote ++ [.node .expression (Nest.treesOf inside)] ++
      trailing.map Trivia.tree ++ [x.closeQuote])
  raw : ∀ x, R .condition [.raw x] (x.openQuote ++
    [.node .expression [.leaf (.token .plainText) x.token.inside.rest], x.closeQuote])

variable {R : NodeKind → List Nest → List Tree → Prop} {k : NodeKind} {ns : List Nest}
  {Q : α → List Nest → Prop} {W : β → List Nest → Prop} {p : Parser α} {f : α → Parser β}

theorem Consumes.mono {S : List Nest → List Tree → Prop} {Q' : α → List Nest → Prop}
    (h : Consumes S p ns Q) (hQ : ∀ a ms, Q a ms → Q' a ms) : Consumes S p ns Q' := by
  intro outer es a s hp
  obtain ⟨us, ts, h₁, h₂, h₃, h₄⟩ := h outer es a s hp
  exact ⟨us, ts, h₁, h₂, h₃, hQ _ _ h₄⟩

theorem consumes_failAt {S : List Nest → List Tree → Prop} (ms : List Nest)
    (expected : List Expected) : Consumes S (failAt ms expected) ns Q := by
  intro outer es a s hp
  cases hp

theorem consumes_fail {S : List Nest → List Tree → Prop} (expected : List Expected) :
    Consumes S (fail expected) ns Q := by
  intro outer es a s hp
  cases hp

theorem consumes_unread_bind {S : List Nest → List Tree → Prop} {f : List Nest → Parser β}
    (h : Consumes S (f ns) ns W) : Consumes S (unread >>= f) ns W := h

theorem consumes_kind?_bind {S : List Nest → List Tree → Prop}
    {f : Option TokenKind → Parser β} (h : Consumes S (f (ns.head?.map Nest.kind)) ns W) :
    Consumes S (kind? >>= f) ns W := h

theorem consumes_nextIs_bind {S : List Nest → List Tree → Prop} {q : Nest → Bool}
    {f : Bool → Parser β} (h : Consumes S (f (ns.head?.any q)) ns W) :
    Consumes S (nextIs q >>= f) ns W := h

theorem consumes_endsOr_bind {S : List Nest → List Tree → Prop} {q : Nest → Bool}
    {f : Bool → Parser β}
    (h : Consumes S (f (ns.head?.all fun n => n.isLineBreak || n.isComment || q n)) ns W) :
    Consumes S (endsOr q >>= f) ns W := h

theorem consumes_move {S : List Nest → List Tree → Prop} {us ms : List Nest}
    (h : S us (Nest.treesOf us)) :
    Consumes S (move us.length) (us ++ ms) (fun _ ls => ls = ms) := by
  intro outer es a s hp
  cases hp
  refine ⟨us, Nest.treesOf us, ?_, ?_, h, ?_⟩
  · simp
  · simp
  · simp

section Reads

variable (hR : Reads R)

include hR

theorem consumes_pure {a : α} (h : Q a ns) : Consumes (R k) (pure a) ns Q := by
  intro outer es b s hp
  cases hp
  exact ⟨[], [], rfl, (List.append_nil _).symm, hR.nil k, h⟩

theorem consumes_bind (hp : Consumes (R k) p ns Q)
    (hf : ∀ a us ms, ns = us ++ ms → Q a ms → Consumes (R k) (f a) ms W) :
    Consumes (R k) (p >>= f) ns W := by
  intro outer es b s h
  obtain ⟨a, ⟨ms, built, es'⟩, hr, h⟩ := bind_ok h
  obtain ⟨us, ts, h₁, h₂, h₃, h₄⟩ := hp outer es a _ hr
  obtain ⟨vs, ws, h₁', h₂', h₃', h₄'⟩ := hf a us ms h₁ h₄ built es' b s h
  simp only at h₁ h₂ h₁'
  refine ⟨us ++ vs, ts ++ ws, ?_, ?_, hR.append h₃ h₃', h₄'⟩
  · rw [h₁, h₁', List.append_assoc]
  · rw [h₂', h₂, List.append_assoc]

theorem consumes_within {j : NodeKind} (hj : j.Inner) (h : Consumes (R j) p ns Q) :
    Consumes (R k) (within j p) ns Q := by
  intro outer es a s hp
  obtain ⟨s', hr, hu, hb⟩ := within_ok hp
  obtain ⟨us, ts, h₁, h₂, h₃, h₄⟩ := h [] es a s' hr
  rw [List.nil_append] at h₂
  rw [← hu] at h₁ h₄
  exact ⟨us, _, h₁, hb, hR.node hj (h₂ ▸ h₃), h₄⟩

theorem reads_singles {ms : List Nest} (h : ∀ n ∈ ms, n.Movable k) : R k ms (Nest.treesOf ms) := by
  induction ms with
  | nil => exact hR.nil k
  | cons m ms ih =>
    exact hR.append (hR.single (h m List.mem_cons_self))
      (ih fun n hn => h n (List.mem_cons_of_mem m hn))

theorem consumes_moveWhile {q : Nest → Bool} (hq : ∀ n, q n = true → n.Movable k) :
    Consumes (R k) (moveWhile q) ns (fun _ ms => ms = ns.dropWhile q) := by
  have hr : R k (ns.takeWhile q) (Nest.treesOf (ns.takeWhile q)) :=
    reads_singles hR fun n hn => hq n (List.mem_takeWhile_imp hn)
  have h : Consumes (R k) (move (ns.takeWhile q).length) (ns.takeWhile q ++ ns.dropWhile q)
      (fun _ ms => ms = ns.dropWhile q) := consumes_move hr
  rwa [List.takeWhile_append_dropWhile] at h

theorem consumes_advance (h : ∀ n ∈ ns.head?, n.Movable k) :
    Consumes (R k) advance ns (fun _ ms => ms = ns.tail) := by
  cases ns with
  | nil =>
    intro outer es a s hp
    cases hp
    exact ⟨[], [], rfl, rfl, hR.nil k, rfl⟩
  | cons n ns =>
    have hr : R k [n] (Nest.treesOf [n]) := reads_singles hR fun m hm => by
      obtain rfl := List.mem_singleton.1 hm
      exact h m rfl
    exact consumes_move hr

end Reads

end Parser

end MakeTree
