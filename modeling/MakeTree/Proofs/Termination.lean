import MakeTree.Proofs.Grammar.Depth
import MakeTree.Proofs.Grammar.Progress
import MakeTree.Proofs.Outcome

/-!
Progress of the parser and the depth of its calls (`parser_terminates`). Each rule that succeeds takes
a token and leaves the others, each turn of a loop goes on by a token, what is read again is shorter
than what it is read from, and calls are nested no deeper than a multiple of the length of the text.
-/

namespace MakeTree

open Nest (flattenAll gather)

namespace Line

variable {ns : List Nest} {σ ρ : Type}

theorem ne_nil_of_mem_cut {lines : List Line} (h : Cut lines) {l : Line} (hl : l ∈ lines) :
    l ≠ [] := by
  induction lines with
  | nil => cases hl
  | cons line lines ih =>
    rcases cut_cons.1 h with ⟨⟨us, n, rfl, -⟩, hc⟩ | ⟨he, rfl⟩
    · rcases List.mem_cons.1 hl with rfl | hl
      · exact List.concat_ne_nil _ _
      · exact ih hc hl
    · rw [List.mem_singleton.1 hl]
      exact he.1

theorem ne_nil_of_mem_split {l : Line} (h : l ∈ split ns) : l ≠ [] :=
  ne_nil_of_mem_cut (cut_split ns) h

theorem length_split_le (ns : List Nest) : (split ns).length ≤ ns.length := by
  have hpos : ∀ l ∈ split ns, 1 ≤ l.length := fun l hl =>
    List.length_pos_iff.2 (ne_nil_of_mem_split hl)
  calc (split ns).length = ((split ns).map fun _ => 1).sum := by simp
    _ ≤ ((split ns).map List.length).sum := List.sum_le_sum hpos
    _ = ns.length := by rw [← List.length_flatten, flatten_split]

/-- Whether a recipe goes on at the head of the lines. -/
def goesOn (lines : List Line) : Bool :=
  match lines.head?.map LineKind.ofLine with
  | some .recipe => true
  | some (.keyword (.conditional _)) => isRecipeConditional lines
  | _ => false

/-- Lines are looked at one after the other, each time at a later token. -/
def LooksOn (step : σ → Line → σ ⊕ ρ) : Prop :=
  ∀ ns i s, (looks step i s (split ns)).IsChain (· < ·)

theorem looksOn (step : σ → Line → σ ⊕ ρ) : LooksOn step :=
  fun _ i s => isChain_looks step (fun _ hl => ne_nil_of_mem_split hl) i s

/-- The loops that look ahead are loops over lines, and they look on. -/
structure Lookaheads : Prop where
  endef : LooksOn endefStep ∧
    ∀ lines, endef? 0 lines = scan endefStep (fun _ => none) (0, 0) lines
  idle : LooksOn idleStep ∧
    ∀ lines, continuesRecipe lines = goesOn (lines.drop (scan idleStep id 0 lines))
  conditional : LooksOn recipeStep ∧
    ∀ lines, isRecipeConditional lines =
      scan recipeStep (fun _ => false) (0, false) (split (flattenAll lines.flatten))

theorem lookaheads : Lookaheads where
  endef := by
    refine ⟨looksOn _, fun lines => ?_⟩
    rw [scan_endefStep]
    exact (congrFun Option.map_id _).symm
  idle := by
    refine ⟨looksOn _, fun lines => ?_⟩
    have hd : (lines.takeWhile isIdle ++ lines.dropWhile isIdle).drop
        (lines.takeWhile isIdle).length = lines.dropWhile isIdle := List.drop_left
    rw [List.takeWhile_append_dropWhile] at hd
    rw [scan_idleStep, Nat.zero_add, hd]
    rfl
  conditional := ⟨looksOn _, fun lines => (scan_recipeStep 0 false _).symm⟩

end Line

namespace Parser

/-- A call on any nests that succeeds takes at least one of their tokens, and leaves those behind
as they are. -/
def Progresses (p : Line → (lines : List Line) → Parser (Rest lines)) : Prop :=
  ∀ ns line lines, Line.split ns = line :: lines → ∀ outer es rest s,
    p line lines ⟨line, outer, es⟩ = .ok rest s →
      ∃ used, used ≠ [] ∧ flattenAll ns = used ++ flattenAll (s.unread ++ rest.1.flatten)

theorem progresses_of_proceeds {p : Line → (lines : List Line) → Parser (Rest lines)}
    (h : ∀ line lines, Nest.Single line → SingleLines lines → Proceeds (p line lines) line lines) :
    Progresses p := by
  intro ns line lines hs outer es rest s hp
  have hc := Line.cut_split ns
  rw [hs] at hc
  obtain ⟨hline, hlines⟩ := (singleLines_of_cut hc).cons
  obtain ⟨hu, us, hus⟩ := h line lines hline hlines outer es rest s hp
  have hne : line ≠ [] := Line.ne_nil_of_mem_split (hs ▸ List.mem_cons_self)
  refine ⟨flattenAll (line ++ us.flatten), ?_, ?_⟩
  · exact Nest.flattenAll_ne_nil (List.append_ne_nil_of_left_ne_nil hne _)
  · have hns : ns = line ++ us.flatten ++ rest.1.flatten := by
      have hfl := congrArg List.flatten hus
      rw [List.flatten_append] at hfl
      rw [← Line.flatten_split ns, hs, List.flatten_cons, ← hfl, List.append_assoc]
    rw [← Nest.flattenAll_append, hu, hns]
    rfl

/-- The first fragment of some tokens is made of at least one of them, and the fragments behind it
are those of the tokens that it leaves. -/
def FragmentProgresses : Prop :=
  ∀ ns, (∀ n ∈ ns, n.IsFlat) → ns ≠ [] → ∃ fragment rest,
    gather ns = fragment :: gather rest ∧ ns = fragment.flatten ++ rest ∧ fragment.flatten ≠ []

theorem fragmentProgresses : FragmentProgresses := by
  intro ns hf hne
  cases ns with
  | nil => exact absurd rfl hne
  | cons n ns =>
    obtain ⟨fragment, rest, hg, hr⟩ := Nest.gather_cons hf
    exact ⟨fragment, rest, hg, hr, fragment.flatten_ne_nil⟩

/-- The runs of which words are made, in front of `stop` and of a comment. -/
def runsOf (stop : Nest → Bool) (ns : List Nest) : List (List Nest) :=
  Nest.wordRuns (Nest.span (fun n => n.isComment || stop n) ns)

/-- Words are parsed in a loop over runs. A turn that succeeds, after others that did, takes at
least one token. -/
structure WordsProgress (stop : Nest → Bool) : Prop where
  loop : words stop = unread >>= fun ns => (runsOf stop ns).forM word
  turn : ∀ ns before run after, runsOf stop ns = before ++ run :: after → ∀ outer es s s',
    before.forM word ⟨ns, outer, es⟩ = .ok () s → word run s = .ok () s' →
      ∃ used, used ≠ [] ∧ flattenAll s.unread = used ++ flattenAll s'.unread

theorem forM_word_ok {runs : List (List Nest)} {rest : List Nest} {outer : List Tree}
    {es : List Event} {s : Cursor}
    (h : runs.forM word ⟨runs.flatten ++ rest, outer, es⟩ = .ok () s) : s.unread = rest := by
  induction runs generalizing outer es with
  | nil =>
    cases h
    rfl
  | cons run runs ih =>
    rw [List.flatten_cons, List.append_assoc] at h
    obtain ⟨_, ⟨ms, built, es₁⟩, h₁, h⟩ := bind_ok h
    have hms : ms = runs.flatten ++ rest := word_ok h₁
    subst hms
    exact ih h

theorem wordsProgress (stop : Nest → Bool) : WordsProgress stop where
  loop := rfl
  turn ns before run after hruns outer es s s' hs hs' := by
    obtain ⟨rest, hrest⟩ := Nest.span_isPrefix (fun n => n.isComment || stop n) ns
    have hns : ns = before.flatten ++ (run ++ (after.flatten ++ rest)) := by
      have hfl : (runsOf stop ns).flatten = _ := List.flatten_splitBy _ _
      rw [hruns] at hfl
      rw [← hrest, ← hfl]
      simp
    have hne : run ≠ [] := List.ne_nil_of_mem_splitBy (hruns ▸ List.mem_append_cons_self)
    rw [hns] at hs
    have hu := forM_word_ok hs
    obtain ⟨ms, built, es₁⟩ := s
    simp only at hu
    subst hu
    refine ⟨flattenAll run, Nest.flattenAll_ne_nil hne, ?_⟩
    rw [word_ok hs', Nest.flattenAll_append]

/-- Progress of the rules, of the loops and of what looks ahead. -/
structure Progress : Prop where
  statement : Progresses fun _ lines => statement lines
  item : Progresses recipeItem
  conditional : ∀ ctx, Progresses fun _ lines => conditional ctx lines
  fragment : FragmentProgresses
  words : ∀ stop, WordsProgress stop
  lookaheads : Line.Lookaheads

theorem progress : Progress where
  statement := progresses_of_proceeds fun line lines =>
    (progressBelow _).statement line lines (Nat.lt_succ_self _)
  item := progresses_of_proceeds fun line lines =>
    (progressBelow _).item line lines (Nat.lt_succ_self _)
  conditional ctx := progresses_of_proceeds fun _ _ _ hl => (progressBelow _).conditional_of hl ctx
  fragment := fragmentProgresses
  words := wordsProgress
  lookaheads := Line.lookaheads

end Parser

namespace Lexer

/-- How deep the calls in the search for illegal characters, in reading literals again, in going
through fragments, in building trees and in the rules are nested on a text. -/
structure Shallow (lx : Lexer) : Prop where
  search : NestsAtMost searchWith search lx (lx.rest.length + 1)
  reading : NestsAtMost (fun inside ly => ly.flatNestsWith inside []) (fun ly => ly.flatNests []) lx
    (lx.rest.length + 1)
  fragments : ∀ multiline ns, ns <:+: lx.nests.1 →
    NestsAtMost (Parser.fragmentWith multiline) (Parser.fragment multiline) ns (lx.rest.length + 1)
  trees : ∀ n ∈ lx.nests.1, NestsAtMost Nest.treesWith Nest.trees n (lx.rest.length + 1)
  rules : ∀ lines, lines <:+ lx.lines →
    NestsAtMost Parser.Call.unroll Parser.Call.rule (.statement lines) (4 * lx.rest.length + 4)

theorem shallow (lx : Lexer) : lx.Shallow where
  search := nestsAtMost_of_rank (fun ly => ly.rest.length) (fun _ ly => ly.searchWith_eq)
    (Nat.lt_succ_self _)
  reading := nestsAtMost_of_rank (fun ly => ly.rest.length)
    (fun _ ly h => ly.flatNestsWith_eq h []) (Nat.lt_succ_self _)
  fragments multiline ns hns := by
    refine nestsAtMost_of_rank Nest.populationOf (fun _ ms => Parser.fragmentWith_eq ms) ?_
    exact Nat.lt_succ_of_le ((Nest.populationOf_le_of_infix hns).trans lx.populationOf_nests_le)
  trees n hn := by
    refine nestsAtMost_of_rank Nest.population (fun _ m => m.treesWith_eq) ?_
    exact Nat.lt_succ_of_le ((Nest.population_le_of_mem hn).trans lx.populationOf_nests_le)
  rules lines hl := by
    refine nestsAtMost_of_rank Parser.Call.rank (fun _ x => Parser.Call.unroll_eq x) ?_
    have hle := hl.length_le.trans (Line.length_split_le _)
    have hpop := (Nest.length_le_populationOf lx.nests.1).trans lx.populationOf_nests_le
    rw [Parser.Call.rank]
    omega

end Lexer

/-- The parser goes on by a token in each call and in each turn of a loop, the inside of a literal
is shorter than the literal, and the depth of the calls is linear in the length of the text. -/
theorem parser_terminates : Parser.Progress ∧
    (∀ (lx next : Lexer) (t : Token) (change : FrameChange),
      lx.step = some (.token t change, next) → t.inside.rest.length < t.text.length) ∧
    ∀ lx : Lexer, lx.Shallow := by
  refine ⟨Parser.progress, ?_, Lexer.shallow⟩
  intro lx next t change
  exact Lexer.inside_length

end MakeTree
