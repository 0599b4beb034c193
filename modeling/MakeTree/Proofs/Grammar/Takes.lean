import MakeTree.Proofs.Grammar.RuleConsume
import MakeTree.Proofs.Grammar.StatementSimulation
import MakeTree.Proofs.Nest.Reading

/-!
Successful runs, whatever was built before. What a parser does does not depend on that, so one
successful run (`takes_of_ok`) tells of all; `Takes` composes as parsers do. What a rule has taken
its trees hold (`reads_held`), and expansions it has taken end on their line (`reads_solid`).
-/

namespace MakeTree

namespace Parser

open Likeness

variable {α β : Type}

/-- From the line `ns`, `p` takes what it builds `ts` of, leaves `ms` and gives `a`. -/
def Takes (p : Parser α) (ns : List Nest) (a : α) (ms : List Nest) (ts : List Tree) : Prop :=
  ∀ outer es, ∃ es', p ⟨ns, outer, es⟩ = .ok a ⟨ms, outer ++ ts, es'⟩

/-- What the parser does does not depend on what was built before. -/
abbrev Uniform (p : Parser α) : Prop := Sim .same Eq p p

section Takes

variable {p : Parser α} {f : α → Parser β} {ns ms ls : List Nest} {ts us : List Tree} {a : α}
  {b : β}

theorem takes_of_ok (hp : Uniform p) {outer : List Tree} {es : List Event} {s : Cursor}
    (h : p ⟨ns, outer, es⟩ = .ok a s) :
    ∃ ts, s.built = outer ++ ts ∧ Takes p ns a s.unread ts := by
  have hs (outer' es') := hp ns ns (.of_seams (same_nests ns)
    (seams_of_nests (fun {us vs} (h : us = vs) => congrArg _ h.symm) (same_nests ns) _))
    outer outer' es es'
  rw [h] at hs
  obtain ⟨ts, ht⟩ : ∃ ts, s.built = outer ++ ts := by
    have hs := hs [] []
    generalize p ⟨ns, [], []⟩ = r at hs
    cases hs with
    | ok hv hr ht => exact ⟨_, rfl⟩
  refine ⟨ts, ht, fun outer' es' => ?_⟩
  have hs := hs outer' es'
  generalize p ⟨ns, outer', es'⟩ = r at hs
  cases hs with
  | @ok _ _ ms ms' ts' us' _ es₂ hv hr hf =>
    obtain rfl : ts' = ts := List.append_cancel_left ht
    refine ⟨es₂, ?_⟩
    rw [Match.eq_all ms hr.nests, ← hv, show us' = ts' from hf.symm]

theorem takes_pure : Takes (pure a) ns a ns [] :=
  fun outer es => ⟨es, by rw [List.append_nil]; rfl⟩

theorem takes_load (line : List Nest) : Takes (load line) ns () line [] :=
  fun outer es => ⟨es, by rw [List.append_nil]; rfl⟩

theorem takes_build (ts : List Tree) : Takes (build ts) ns () ns ts :=
  fun _ es => ⟨es, rfl⟩

theorem Takes.bind (h : Takes p ns a ms ts) (hf : Takes (f a) ms b ls us) :
    Takes (p >>= f) ns b ls (ts ++ us) := by
  intro outer es
  obtain ⟨es₁, h₁⟩ := h outer es
  obtain ⟨es₂, h₂⟩ := hf (outer ++ ts) es₁
  refine ⟨es₂, ?_⟩
  show EStateM.bind p f _ = _
  rw [EStateM.bind, h₁, ← List.append_assoc]
  exact h₂

theorem Takes.then (h : Takes p ns a ms []) (hf : Takes (f a) ms b ls us) :
    Takes (p >>= f) ns b ls us := h.bind hf

theorem Takes.within (h : Takes p ns a ms ts) (k : NodeKind) :
    Takes (within k p) ns a ms [.node k ts] := by
  intro outer es
  obtain ⟨es', h⟩ := h [] es
  refine ⟨es', ?_⟩
  rw [within_eq, h]
  rfl

theorem takes_unread_bind {f : List Nest → Parser β} (h : Takes (f ns) ns b ls us) :
    Takes (unread >>= f) ns b ls us := h

theorem takes_kind?_bind {f : Option TokenKind → Parser β}
    (h : Takes (f (ns.head?.map Nest.kind)) ns b ls us) : Takes (kind? >>= f) ns b ls us := h

end Takes

/-- Wherever they stand, but for conditions, the trees hold the nests. -/
def Held (ns : List Nest) (ts : List Tree) : Prop :=
  ∀ k, k ≠ .condition → Reading NodeKind.Inner k (Nest.flattenAll ns) ts

/-- The same where they stand, of nests without a bracket of their own. -/
def HeldBy (k : NodeKind) (us : List Nest) (ts : List Tree) : Prop :=
  Nest.ClosedAll us → Reading NodeKind.Inner k (Nest.flattenAll us) ts

def SolidIn (_ : NodeKind) (us : List Nest) (_ : List Tree) : Prop :=
  Nest.ClosedAll us → ∀ n ∈ us, Solid n

section Reads

theorem flattenAll_singleton (n : Nest) : Nest.flattenAll [n] = n.flatten :=
  List.append_nil _

theorem inner_expression : NodeKind.Inner .expression := ⟨by decide, by decide⟩

theorem inner_expansion : NodeKind.Inner .expansion := ⟨by decide, by decide⟩

theorem reads_held : Reads HeldBy where
  nil k _ := .nil k
  append h h' hc := by
    rw [Nest.flattenAll_append]
    obtain ⟨h₁, h₂⟩ := Nest.closedAll_append.1 hc
    exact (h h₁).append (h' h₂)
  node hj h hc := .node hj (h hc)
  single := by
    intro k n hm hc
    rw [flattenAll_singleton]
    by_cases hk : k = .condition
    · cases n with
      | leaf x => exact .lexeme inner_expansion k x
      | quoted x inside trailing => exact absurd hc.1 (hm.2 hk)
      | raw x => exact absurd hc.1 (hm.2 hk)
      | expansion opener body closer => exact absurd hc.1.1 hm.1
    · exact Nest.reading_trees inner_expression inner_expansion n hk
  contents _ _ := Nest.reading_treesOf inner_expression inner_expansion _ (by decide)
  quoted x inside trailing _ := .quoted x trailing <| .node inner_expression <|
    Nest.reading_treesOf inner_expression inner_expansion inside (by decide)
  raw x _ := .operand x inner_expression

theorem held_any {k : NodeKind} (hk : k ≠ .condition) (n : Nest) : HeldBy k [n] n.trees := by
  intro _
  rw [flattenAll_singleton]
  exact Nest.reading_trees inner_expression inner_expansion n hk

theorem reads_solid : Reads SolidIn where
  nil _ _ := nofun
  append h h' hc := by
    obtain ⟨h₁, h₂⟩ := Nest.closedAll_append.1 hc
    intro n hn
    exact (List.mem_append.1 hn).elim (h h₁ n) (h' h₂ n)
  node _ h := h
  single := by
    intro k n hm hc m hn
    obtain rfl := List.mem_singleton.1 hn
    cases m with
    | leaf x => simp [Solid, Nest.flatten]
    | quoted x inside trailing => simp [Solid, Nest.flatten]
    | raw x => simp [Solid, Nest.flatten]
    | expansion opener body closer => exact absurd hc.1.1 hm.1
  contents h hc n hn := h n hn (hc.mem hn)
  quoted x inside trailing _ := by simp [Solid, Nest.flatten]
  raw x _ := by simp [Solid, Nest.flatten]

end Reads

end Parser

end MakeTree
