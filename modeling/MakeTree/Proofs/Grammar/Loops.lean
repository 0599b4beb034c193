import MakeTree.Proofs.Grammar.Lines

/-!
Loops of the grammar. A run of nests is gathered fragment by fragment (`Nest.gather_cons`), words are
parsed one by one (`Parser.word_ok`), and what looks ahead does so line by line (`Line.scan`), so each
turn of a loop goes on by at least one token (`Line.isChain_looks`).
-/

namespace MakeTree

namespace Nest

theorem flatten_ne_nil (n : Nest) : n.flatten ≠ [] := by
  cases n with
  | _ => exact List.cons_ne_nil _ _

theorem flattenAll_ne_nil {ns : List Nest} (h : ns ≠ []) : flattenAll ns ≠ [] := by
  cases ns with
  | nil => exact absurd rfl h
  | cons n ns => exact List.append_ne_nil_of_left_ne_nil n.flatten_ne_nil _

/-- In front of the first closer without a partner stands what is gathered of it, and what stands
behind it is gathered by itself. -/
theorem pair_closer {ns : List Nest} (hf : ∀ n ∈ ns, n.IsFlat) {closer : Lexeme}
    {outer : List Nest} {closers : List (Lexeme × List Nest)}
    (h : (pair ns).2 = (closer, outer) :: closers) :
    ∃ rest, ns = flattenAll (pair ns).1 ++ leaf closer :: rest ∧ pair rest = (outer, closers) := by
  induction hn : ns.length using Nat.strong_induction_on generalizing ns closer outer closers with
  | _ k ih =>
    cases ns with
    | nil => cases h
    | cons n ns =>
      have hflat := hf n List.mem_cons_self
      have hrest : ∀ m ∈ ns, m.IsFlat := fun m hm => hf m (List.mem_cons_of_mem n hm)
      have hlen : ns.length < k := by
        rw [← hn]
        exact Nat.lt_succ_self _
      by_cases hs : n.kind = .expansionSuffix
      · rw [pair_closing ns hs] at h ⊢
        cases h
        rw [← hflat.eq_leaf (by rw [hs]; decide)]
        exact ⟨ns, rfl, rfl⟩
      by_cases hp : n.kind = .expansionPrefix
      · rcases hc : (pair ns).2 with _ | ⟨⟨c, o⟩, cs⟩
        · rw [pair_opening_unclosed ns hp hc] at h
          cases h
        · rw [pair_opening ns hp hc] at h ⊢
          -- the first closer is the partner of the opener, and the second is looked for behind it
          obtain ⟨mid, hmid, hpair⟩ := ih ns.length hlen hrest hc rfl
          have hmidflat : ∀ m ∈ mid, m.IsFlat := fun m hm => hrest m (by rw [hmid]; simp [hm])
          have hmidlen : mid.length < k := by
            have := congrArg List.length hmid
            simp only [List.length_append, List.length_cons] at this
            omega
          have h : (pair mid).2 = (closer, outer) :: closers := by
            rw [hpair]
            exact h
          obtain ⟨rest, hr, hprest⟩ := ih mid.length hmidlen hmidflat h rfl
          refine ⟨rest, ?_, hprest⟩
          rw [hpair] at hr
          have hl := hflat.eq_leaf (by rw [hp]; decide)
          conv => lhs; rw [hmid, hl, hr]
          simp [flattenAll, flatten]
      · rw [pair_other ns hp hs] at h ⊢
        obtain ⟨rest, hr, hprest⟩ := ih ns.length hlen hrest h rfl
        refine ⟨rest, ?_, hprest⟩
        rw [flattenAll, hflat.flatten, List.append_assoc, ← hr]
        rfl

theorem gather_eq (ns : List Nest) :
    gather ns = (pair ns).1 ++ (pair ns).2.flatMap fun c => leaf c.1 :: c.2 := rfl

theorem gather_cons {n : Nest} {ns : List Nest} (hf : ∀ m ∈ n :: ns, m.IsFlat) :
    ∃ first rest, gather (n :: ns) = first :: gather rest ∧ n :: ns = first.flatten ++ rest := by
  have hflat := hf n List.mem_cons_self
  have alone (h : gather (n :: ns) = n :: gather ns) : ∃ first rest,
      gather (n :: ns) = first :: gather rest ∧ n :: ns = first.flatten ++ rest := by
    refine ⟨n, ns, h, ?_⟩
    rw [hflat.flatten]
    rfl
  by_cases hs : n.kind = .expansionSuffix
  · apply alone
    rw [gather_eq, pair_closing ns hs, List.nil_append, List.flatMap_cons,
      ← hflat.eq_leaf (by rw [hs]; decide)]
    rfl
  by_cases hp : n.kind = .expansionPrefix
  · rcases hc : (pair ns).2 with _ | ⟨⟨c, o⟩, cs⟩
    · apply alone
      rw [gather_eq, gather_eq, pair_opening_unclosed ns hp hc, hc]
      rfl
    · obtain ⟨rest, hr, hpair⟩ := pair_closer (fun m hm => hf m (List.mem_cons_of_mem n hm)) hc
      refine ⟨expansion n.first (pair ns).1 c, rest, ?_, ?_⟩
      · rw [gather_eq, gather_eq, pair_opening ns hp hc, hpair]
        rfl
      · have hl := hflat.eq_leaf (by rw [hp]; decide)
        conv => lhs; rw [hl, hr]
        simp [flatten]
  · apply alone
    rw [gather_eq, pair_other ns hp hs]
    rfl

end Nest

namespace Parser

/-- One turn of the loop over words: a word, or the blanks in front of the next. -/
def word (run : List Nest) : Parser Unit :=
  if run.all Nest.isWhitespace then move run.length else expressionOf run

theorem word_ok {run rest : List Nest} {outer : List Tree} {es : List Event} {a : Unit} {s : Cursor}
    (h : word run ⟨run ++ rest, outer, es⟩ = .ok a s) : s.unread = rest := by
  rw [word] at h
  split at h
  · cases h
    exact List.drop_left
  · exact (expressionOf_ok h).2.1

end Parser

namespace Line

variable {σ ρ : Type}

/-- Look at lines one after the other until it is decided. -/
def scan (step : σ → Line → σ ⊕ ρ) (done : σ → ρ) : σ → List Line → ρ
  | s, [] => done s
  | s, line :: lines =>
    match step s line with
    | .inl s' => scan step done s' lines
    | .inr r => r

/-- The indexes of the tokens at which one looks, if the first line starts at the token `i`. -/
def looks (step : σ → Line → σ ⊕ ρ) (i : Nat) : σ → List Line → List Nat
  | _, [] => [i]
  | s, line :: lines =>
    match step s line with
    | .inl s' => i :: looks step (i + (Nest.flattenAll line).length) s' lines
    | .inr _ => [i]

theorem head?_looks (step : σ → Line → σ ⊕ ρ) (i : Nat) (s : σ) (lines : List Line) :
    (looks step i s lines).head? = some i := by
  cases lines with
  | nil => rfl
  | cons line lines =>
    rw [looks]
    split
    · rfl
    · rfl

theorem isChain_looks (step : σ → Line → σ ⊕ ρ) {lines : List Line} (h : ∀ l ∈ lines, l ≠ [])
    (i : Nat) (s : σ) : (looks step i s lines).IsChain (· < ·) := by
  induction lines generalizing i s with
  | nil => exact .singleton i
  | cons line lines ih =>
    rw [looks]
    split
    · next s' _ =>
      refine List.isChain_cons.2 ⟨fun j hj => ?_, ih (fun l hl => h l (List.mem_cons_of_mem _ hl)) _ _⟩
      rw [head?_looks, Option.mem_some_iff] at hj
      have hne := Nest.flattenAll_ne_nil (h line List.mem_cons_self)
      have hpos := List.length_pos_iff.2 hne
      omega
    · exact .singleton i

/-- One step of the search for the end of a definition, with the number of definitions open inside
and that of the lines passed. -/
def endefStep : Nat × Nat → Line → (Nat × Nat) ⊕ Option Nat
  | (depth, count), line =>
    match nesting line with
    | .inside => .inl (depth, count + 1)
    | .opens => .inl (depth + 1, count + 1)
    | .closes => if depth = 0 then .inr (some count) else .inl (depth - 1, count + 1)

theorem scan_endefStep (depth count : Nat) (lines : List Line) :
    scan endefStep (fun _ => none) (depth, count) lines = (endef? depth lines).map (· + count) := by
  have next (o : Option Nat) (k : Nat) :
      o.map (· + (k + 1)) = (o.map (· + 1)).map (· + k) := by
    cases o with
    | none => rfl
    | some j =>
      simp only [Option.map_some, Option.some.injEq]
      omega
  induction lines generalizing depth count with
  | nil => rfl
  | cons line lines ih =>
    rw [scan, endefStep, endef?]
    cases nesting line with
    | inside =>
      simp only
      rw [ih, next]
    | opens =>
      simp only
      rw [ih, next]
    | closes =>
      simp only
      by_cases hd : depth = 0
      · simp [hd]
      · rw [if_neg hd, if_neg hd]
        simp only
        rw [ih, next]

/-- A line that is blank or holds only a comment. -/
def isIdle (line : Line) : Bool := LineKind.ofLine line == .blank || LineKind.ofLine line == .comment

/-- One step of the search for the first line behind idle ones, with the number of lines passed. -/
def idleStep (count : Nat) (line : Line) : Nat ⊕ Nat :=
  if line.isIdle then .inl (count + 1) else .inr count

theorem scan_idleStep (count : Nat) (lines : List Line) :
    scan idleStep id count lines = count + (lines.takeWhile isIdle).length := by
  induction lines generalizing count with
  | nil => rfl
  | cons line lines ih =>
    rw [scan, idleStep]
    cases hi : line.isIdle with
    | true =>
      simp only [if_true]
      rw [ih, List.takeWhile_cons_of_pos hi, List.length_cons]
      omega
    | false =>
      rw [List.takeWhile_cons_of_neg (by simp [hi])]
      rfl

/-- One step of the lookahead over a conditional in a recipe, with the number of conditionals that
are open and whether there was a command. -/
def recipeStep : Nat × Bool → Line → (Nat × Bool) ⊕ Bool
  | (depth, seen), line =>
    match LineKind.ofLine line with
    | .keyword (.conditional _) => .inl (depth + 1, seen)
    | .keyword .otherwise => .inl (depth, seen)
    | .keyword .endif => if depth ≤ 1 then .inr seen else .inl (depth - 1, seen)
    | .recipe => .inl (depth, true)
    | .blank => .inl (depth, seen)
    | .comment => .inl (depth, seen)
    | .keyword _ => .inr false
    | .other => .inr false

theorem scan_recipeStep (depth : Nat) (seen : Bool) (lines : List Line) :
    scan recipeStep (fun _ => false) (depth, seen) lines =
      LineKind.endsInRecipe depth seen (lines.map LineKind.ofLine) := by
  induction lines generalizing depth seen with
  | nil => rfl
  | cons line lines ih =>
    rw [scan, recipeStep, List.map_cons]
    cases LineKind.ofLine line with
    | keyword k =>
      cases k with
      | endif =>
        rw [LineKind.endsInRecipe]
        by_cases hd : depth ≤ 1
        · simp [hd]
        · simp only [if_neg hd]
          exact ih _ _
      | conditional c => exact ih _ _
      | otherwise => exact ih _ _
      | _ => rfl
    | other => rfl
    | _ => exact ih _ _

end Line

end MakeTree
