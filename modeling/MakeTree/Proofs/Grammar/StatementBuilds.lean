import MakeTree.Proofs.Grammar.HeaderBuilds
import MakeTree.Proofs.Grammar.Lines

/-!
What statements build, over any number of lines. `BuildsOver` is `Builds` for parsers that are given
the lines after the current one; the statements are proved from all rules on fewer lines
(`BuildsBelow`), as they call each other.
-/

namespace MakeTree

theorem Line.sound_nil : Line.Sound [] where
  single us n ms h := by simp at h
  nests := trivial
  comments := Nest.CommentsEnd.nil

/-- A line, or what is left of it, and the lines after it, as they come of a text. -/
structure Sheet (line : Line) (lines : List Line) : Prop where
  here : Line.Sound line
  below : ∀ l ∈ lines, Line.Sound l
  cut : Line.Cut lines

namespace Sheet

variable {line : Line} {lines : List Line}

theorem with_line (h : Sheet line lines) {l : Line} (hl : Line.Sound l) : Sheet l lines :=
  ⟨hl, h.below, h.cut⟩

theorem next (h : Sheet [] (line :: lines)) : Sheet line lines where
  here := h.below line List.mem_cons_self
  below l hl := h.below l (List.mem_cons_of_mem line hl)
  cut := h.cut.tail

theorem drop (h : Sheet line lines) (count : Nat) : Sheet [] (lines.drop count) where
  here := Line.sound_nil
  below l hl := h.below l (List.drop_subset _ _ hl)
  cut := by
    have hc := h.cut
    rw [← List.take_append_drop count lines] at hc
    exact hc.right

theorem suffix {ls : List Line} (h : Sheet line lines) (hs : ls <:+ lines) : Sheet [] ls := by
  obtain ⟨before, rfl⟩ := hs
  simpa using h.drop before.length

theorem sound (h : Sheet line lines) : Nest.SoundAll lines.flatten := by
  refine Nest.soundAll_iff.2 fun n hn => ?_
  obtain ⟨l, hl, hn⟩ := List.mem_flatten.1 hn
  exact Nest.soundAll_iff.1 (h.below l hl).nests n hn

end Sheet

namespace Parser

open MakeTree.Tree

variable {α β : Type} {k : NodeKind} {line : Line} {lines : List Line}

/-- What comes of a run that started in front of `line` and `lines` with `outer` built. The value
tells the lines that are left. -/
def YieldsOver (k : NodeKind) (line : Line) (lines : List Line) (rest : α → List Line)
    (Q : α → Line → List Tree → Prop) (outer : List Tree) :
    EStateM.Result ParseError Cursor α → Prop
  | .ok a s => ∃ us ts, line ++ lines.flatten = us ++ (s.unread ++ (rest a).flatten) ∧
      s.built = outer ++ ts ∧ Laid k us ts ∧ Sheet s.unread (rest a) ∧ Q a s.unread ts
  | .error e _ => Blames (line ++ lines.flatten) e

def BuildsOver (k : NodeKind) (p : Parser α) (rest : α → List Line) (line : Line)
    (lines : List Line) (Q : α → Line → List Tree → Prop) : Prop :=
  Sheet line lines → ∀ outer es, YieldsOver k line lines rest Q outer (p ⟨line, outer, es⟩)

section Over

variable {p : Parser α} {f : α → Parser β} {rest : α → List Line} {left : β → List Line}
  {Q : α → Line → List Tree → Prop} {W : β → Line → List Tree → Prop}

theorem BuildsOver.mono {Q' : α → Line → List Tree → Prop}
    (h : BuildsOver k p rest line lines Q) (hQ : ∀ a ms ts, Q a ms ts → Q' a ms ts) :
    BuildsOver k p rest line lines Q' := by
  intro hs outer es
  have hp := h hs outer es
  cases hr : p ⟨line, outer, es⟩ with
  | ok a s =>
    rw [hr] at hp
    obtain ⟨us, ts, h₁, h₂, h₃, h₄, h₅⟩ := hp
    exact ⟨us, ts, h₁, h₂, h₃, h₄, hQ _ _ _ h₅⟩
  | error e s =>
    rw [hr] at hp
    exact hp

theorem over_pure {a : α} (hr : rest a = lines) (h : Q a line []) :
    BuildsOver k (pure a) rest line lines Q :=
  fun hs outer _ => ⟨[], [], by rw [hr]; rfl, (List.append_nil outer).symm, .nil k,
    by rw [hr]; exact hs, h⟩

theorem over_bind (hp : BuildsOver k p rest line lines Q) (hf : ∀ a ms ts, Q a ms ts →
    BuildsOver k (f a) left ms (rest a) (fun b ls vs => W b ls (ts ++ vs))) :
    BuildsOver k (p >>= f) left line lines W := by
  intro hs outer es
  have hp := hp hs outer es
  show YieldsOver k line lines left W outer (EStateM.bind p f _)
  unfold EStateM.bind
  cases hr : p ⟨line, outer, es⟩ with
  | error e s =>
    rw [hr] at hp
    exact hp
  | ok a s =>
    rw [hr] at hp
    obtain ⟨us, ts, hns, hb, hlaid, hs', hq⟩ := hp
    obtain ⟨ms, built, es'⟩ := s
    simp only at hns hb hq hs'
    subst hb
    have hf := hf a ms ts hq hs' (outer ++ ts) es'
    show YieldsOver k line lines left W outer (f a ⟨ms, outer ++ ts, es'⟩)
    cases hr' : f a ⟨ms, outer ++ ts, es'⟩ with
    | error e s =>
      rw [hr'] at hf
      have hf : Blames (us ++ (ms ++ (rest a).flatten)) e := hf.suffix
      rwa [← hns] at hf
    | ok b s =>
      rw [hr'] at hf
      obtain ⟨vs, ws, h₁, h₂, h₃, h₄, h₅⟩ := hf
      refine ⟨us ++ vs, ts ++ ws, ?_, ?_, hlaid.append h₃, h₄, h₅⟩
      · rw [hns, h₁, List.append_assoc]
      · rw [h₂, List.append_assoc]

theorem over_within {j : NodeKind} (hj : j ≠ .expression)
    (h : BuildsOver j p rest line lines fun a ms ts =>
      Node.Conforms (k := j) ⟨ts⟩ ∧ Q a ms [.node j ts]) :
    BuildsOver k (within j p) rest line lines Q := by
  intro hs outer es
  have hp := h hs [] es
  rw [within_eq]
  cases hr : p ⟨line, [], es⟩ with
  | error e s =>
    rw [hr] at hp
    exact hp
  | ok a s =>
    rw [hr] at hp
    obtain ⟨us, ts, h₁, h₂, h₃, hs', hc, h₄⟩ := hp
    rw [List.nil_append] at h₂
    have hk : k.Admits j us := fun he => absurd he hj
    exact ⟨us, [.node j ts], h₁, by rw [h₂], h₃.node hc hk, hs', h₄⟩

theorem over_ite {c : Prop} [Decidable c] {q : Parser α}
    (h : c → BuildsOver k p rest line lines Q) (h' : ¬ c → BuildsOver k q rest line lines Q) :
    BuildsOver k (if c then p else q) rest line lines Q := by
  by_cases hc : c
  · rw [if_pos hc]
    exact h hc
  · rw [if_neg hc]
    exact h' hc

theorem over_line (h : Builds k p line Q) :
    BuildsOver k p (fun _ => lines) line lines Q := by
  intro hs outer es
  have hp := h hs.here outer es
  cases hr : p ⟨line, outer, es⟩ with
  | error e s =>
    rw [hr] at hp
    exact Blames.left hp
  | ok a s =>
    rw [hr] at hp
    obtain ⟨us, ts, h₁, h₂, h₃, h₄⟩ := hp
    have hl := hs.here
    refine ⟨us, ts, ?_, h₂, h₃, hs.with_line ?_, h₄⟩
    · rw [← List.append_assoc, ← h₁]
    · rw [h₁] at hl
      exact hl.suffix

theorem over_unread_bind {f : List Nest → Parser β} (h : BuildsOver k (f line) left line lines W) :
    BuildsOver k (unread >>= f) left line lines W := h

theorem over_kind?_bind {f : Option TokenKind → Parser β}
    (h : BuildsOver k (f (line.head?.map Nest.kind)) left line lines W) :
    BuildsOver k (kind? >>= f) left line lines W := h

theorem over_load_bind {f : Unit → Parser β} (h : BuildsOver k (f ()) left line lines W) :
    BuildsOver k (load line >>= f) left [] (line :: lines) W :=
  fun hs outer es => h hs.next outer es

theorem over_of_eq {q : Parser α} (h : BuildsOver k q rest line lines Q)
    (he : ∀ outer es, ∃ es', p ⟨line, outer, es⟩ = q ⟨line, outer, es'⟩) :
    BuildsOver k p rest line lines Q := by
  intro hs outer es
  obtain ⟨es', he⟩ := he outer es
  rw [he]
  exact h hs outer es'

theorem over_failAt {expected : List Expected} {us ms : List Nest} (hn : line = us ++ ms)
    (he : Expected.Ordinary expected) :
    BuildsOver k (failAt ms expected) rest line lines Q := by
  intro hs outer es
  have h := builds_failAt (k := k) (Q := Q) hn he hs.here outer es
  exact Blames.left h

theorem over_refused {expected : List Expected} (he : Expected.Ordinary expected) :
    BuildsOver k (failAt (Line.afterLeading line) expected) rest line lines Q :=
  over_failAt (List.takeWhile_append_dropWhile).symm he

theorem over_throw {expected : List Expected} (he : Expected.Ordinary expected) :
    BuildsOver k (throw (.unexpectedEnd expected)) rest line lines Q :=
  fun _ _ _ => .atEnd he.1 he.2

end Over

/-- The trees of whole lines, at most with nodes of these kinds. -/
def Among (js : List NodeKind) {α : Type} (_ : α) (ms : Line) (ts : List Tree) : Prop :=
  ms = [] ∧ kinds ts ⊆ js

theorem Whole.among {α : Type} {j : NodeKind} {js : List NodeKind} {a : α} {ms : Line}
    {ts : List Tree} (h : Whole j a ms ts) (hj : j ∈ js) : Among js a ms ts := by
  obtain ⟨hm, us, rfl⟩ := h
  exact ⟨hm, by simpa using hj⟩

abbrev remaining {P : List Line → Prop} (r : { rest : List Line // P rest }) : List Line := r.1

theorem over_oneLine {p : Parser Unit} {Q : List Nest → List Tree → Prop}
    (h : Builds k p line fun _ => Q) :
    BuildsOver k (oneLine lines p) remaining line lines fun _ => Q := by
  refine over_bind (over_line h) fun _ _ ts hm => over_pure rfl ?_
  rwa [List.append_nil]

section Definition

theorem head_of_endef? {depth count : Nat} (h : Line.endef? depth lines = some count) :
    ∃ l n ls, lines[count]? = some l ∧ Line.afterLeading l = n :: ls ∧
      n.kind = .keyword .endef := by
  obtain ⟨l, hl, hn⟩ := Line.nesting_of_endef? h
  obtain ⟨n, ls, ha, hk, -⟩ := Line.head_of_closes hn
  exact ⟨l, n, ls, hl, ha, hk⟩

theorem ended_take {lines : List Line} (h : Line.Cut lines) {count : Nat}
    (hlt : count < lines.length) : Nest.EndLine (lines.take count).flatten := by
  have hd : lines.drop count ≠ [] := fun h => absurd (List.drop_eq_nil_iff.1 h) (by omega)
  rw [← List.take_append_drop count lines] at h
  exact Line.endLine_flatten (h.ended hd)

theorem conforms_definition {hd te : List Tree} {body : List Tree} (h : Titled hd)
    (hi : nodesOf te = []) (hs : Tree.specifiers te = []) :
    Node.Conforms (k := .definition) ⟨hd ++ (.node .expression body :: te)⟩ := by
  obtain ⟨⟨e, he, hne⟩, hc⟩ := h
  refine ⟨⟨⟨e⟩, ?_, hne⟩, ?_, ?_, ?_⟩
  · simp [Node.subject?, Node.node?, Node.nodes_eq, he, NodeKind.pick]
  · simpa [Node.specifiers_eq, hs] using hc
  · simp [Node.nodeKinds, kinds_of_one he, kinds_of_nodesOf hi]
  · simp [Node.body?, Node.nodes_eq, he, hi, NodeKind.pick]

theorem laid_lineBreak {ns : List Nest} (h : Nest.SoundAll ns) (hl : Nest.EndLine ns) :
    Laid .definition ns.getLast?.toList (Nest.treesOf ns.getLast?.toList) ∧
      nodesOf (Nest.treesOf ns.getLast?.toList) = [] ∧
      Tree.specifiers (Nest.treesOf ns.getLast?.toList) = [] := by
  have hb : ∀ n ∈ ns.getLast?.toList, n.isLineBreak = true := fun n hn => hl n (by simpa using hn)
  have hs : Nest.SoundAll ns.getLast?.toList := Nest.soundAll_iff.2 fun n hn =>
    Nest.soundAll_iff.1 h n (List.mem_of_getLast? (by simpa using hn))
  obtain ⟨h₁, h₂, h₃⟩ := Nest.bares hs fun n hn => bare_of_isLineBreak (hb n hn)
  refine ⟨h₁, h₂, specifiers_eq_nil fun m hm => ?_⟩
  rw [h₃] at hm
  obtain ⟨n, hn, rfl⟩ := List.mem_map.1 hm
  rw [show n.kind = .lineBreak by simpa [Nest.isLineBreak] using hb n hn]
  rfl

theorem laid_definition {us ns vs : List Nest} {hd te : List Tree} (h : Laid .definition us hd)
    (ht : Titled hd) (hs : Nest.SoundAll ns) (hl : Nest.EndLine ns) (h' : Laid .definition vs te)
    (hi : nodesOf te = []) (hsp : Tree.specifiers te = []) :
    Laid k (us ++ (ns ++ vs)) [.node .definition (hd ++ (bodyTrees ns ++ te))] := by
  obtain ⟨hlb, hlbi, hlbs⟩ := laid_lineBreak hs hl
  obtain ⟨e, he, -⟩ := ht.name
  have hd' : Nest.SoundAll ns.dropLast := Nest.soundAll_iff.2 fun n hn =>
    Nest.soundAll_iff.1 hs n ((List.dropLast_subset ns) hn)
  have hc : Node.Conforms (k := .definition) ⟨hd ++ (bodyTrees ns ++ te)⟩ :=
    conforms_definition ht (by simp [hlbi, hi]) (by simp [hlbs, hsp])
  have hlaid := Laid.definition (k := k) h he hd' (hlb.append h') hc
  rwa [← List.append_assoc ns.dropLast, dropLast_append_getLast?] at hlaid

theorem flatten_at {l : Line} {count : Nat} (hl : lines[count]? = some l) : lines.flatten =
    (lines.take count).flatten ++ (l ++ (lines.drop (count + 1)).flatten) := by
  obtain ⟨hlt, rfl⟩ := List.getElem?_eq_some_iff.1 hl
  conv => lhs; rw [← List.take_append_drop count lines, List.flatten_append,
    List.drop_eq_getElem_cons hlt, List.flatten_cons]

/-- What `line` and the lines after it up to an `endef` make: the trees of the first line, a body
and the trees of the last line. -/
inductive Defined (line : Line) (lines : List Line) : List Tree → Prop
  | mk {count : Nat} {l : Line} {hd te name : List Tree} (he : Line.endef? 0 lines = some count)
      (hl : lines[count]? = some l) (hhd : Laid .definition line hd)
      (hn : nodesOf hd = [(.expression, name)]) (hte : Laid .definition l te)
      (hi : nodesOf te = []) :
      Defined line lines (hd ++ (bodyTrees (lines.take count).flatten ++ te))

theorem over_definition {n : Nest} {ls : List Nest}
    (hn : (Line.afterLeading line).dropWhile isIntro = n :: ls) (hk : n.kind = .keyword .define) :
    BuildsOver k (definition lines) remaining line lines fun _ ms ts =>
      ms = [] ∧ ∃ us, ts = [.node .definition us] ∧ Defined line lines us := by
  intro hs outer es
  have hh := builds_definitionHeader hn hk hs.here [] es
  rw [definition_eq, within_eq]
  simp only [bind, EStateM.bind]
  cases hr : definitionHeader ⟨line, [], es⟩ with
  | error e s =>
    rw [hr] at hh
    exact Blames.left hh
  | ok a s =>
    rw [hr] at hh
    obtain ⟨ms, hd, es₁⟩ := s
    obtain ⟨us, _, hline, rfl, hlaid, rfl, htitle⟩ := hh
    cases he : Line.endef? 0 lines with
    | none => exact .atEnd (by decide) (by decide)
    | some count =>
      obtain ⟨l, m, ls', hl, hm, hmk⟩ := head_of_endef? he
      have hflat := flatten_at hl
      have hsound : Nest.SoundAll (lines.take count).flatten :=
        Nest.soundAll_of_subset hs.sound (hflat ▸ List.subset_append_left _ _)
      obtain ⟨es₂, hbody⟩ := takes_body hsound [] hd es₁
      have hlt := Line.endef?_lt he
      have hend := builds_definitionEnd hm hmk
        (hs.below l (List.mem_of_getElem? hl)) (hd ++ bodyTrees (lines.take count).flatten) es₂
      have hload (c : Cursor) : load l c = .ok () { c with unread := l } := rfl
      simp only [EStateM.bind, hl, Option.getD_some, hbody, hload]
      generalize hns : (lines.take count).flatten = ns at hend hflat hsound ⊢
      cases hr' : definitionEnd ⟨l, hd ++ bodyTrees ns, es₂⟩ with
      | error e s =>
        rw [hr'] at hend
        have hblame : Blames (line ++ lines.flatten) e := by
          rw [hflat]
          exact (Blames.left hend).suffix.suffix
        exact hblame
      | ok a s =>
        rw [hr'] at hend
        obtain ⟨ms, built, es₃⟩ := s
        obtain ⟨vs, te, hvs, hb, hlaid', rfl, hi, hsp⟩ := hend
        have hwhole := laid_definition (k := k) hlaid htitle hsound (hns ▸ ended_take hs.cut hlt)
          hlaid' hi hsp
        simp only [List.append_nil] at hline hvs hb
        subst hline hvs hb
        obtain ⟨name, hname, -⟩ := htitle.name
        have hdefined : Defined line lines (hd ++ (bodyTrees ns ++ te)) :=
          hns ▸ .mk he hl hlaid hname hlaid' hi
        rw [← List.append_assoc hd] at hwhole hdefined
        refine ⟨line ++ (ns ++ l), _, ?_, rfl, hwhole, hs.drop _, rfl, _, rfl, hdefined⟩
        rw [hflat]
        simp [remaining]

end Definition

end Parser

end MakeTree
