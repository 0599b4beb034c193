import MakeTree.Proofs.Grammar.Takes

/-!
Statements without lines of other rules in them. Which rule a line belongs to can be seen from the
line alone (`statement_cases`). Rules that stay on one line take all of it, whatever comes after
(`OneLiner`).
-/

namespace MakeTree

/-- A statement is one node, but for blanks at the end of the text. -/
def Tree.Statement (ts : List Tree) : Prop :=
  (∃ k us, ts = [.node k us]) ∨ ∀ t ∈ ts, t.IsLeaf

/-- A line as the parser is given it: no bracket without a partner, no line break but the last. -/
structure Line.Good (line : Line) : Prop where
  single : Nest.Single line
  closed : Nest.ClosedAll line

theorem Line.Good.suffix {us line : Line} (h : Line.Good (us ++ line)) : line.Good :=
  ⟨h.single.suffix, (Nest.closedAll_append.1 h.closed).2⟩

namespace Nest

theorem mem_treesOf {t : Tree} {ns : List Nest} (h : t ∈ treesOf ns) : ∃ n ∈ ns, t ∈ n.trees := by
  induction ns with
  | nil => cases h
  | cons n ns ih =>
    rcases List.mem_append.1 (show t ∈ n.trees ++ treesOf ns from h) with h | h
    · exact ⟨n, List.mem_cons_self, h⟩
    · obtain ⟨m, hm, h⟩ := ih h
      exact ⟨m, List.mem_cons_of_mem n hm, h⟩

theorem trees_of_isLeading {n : Nest} (hc : n.Closed) (hl : n.kind.isLeading = true) :
    ∀ t ∈ n.trees, t.IsLeaf := by
  intro t ht
  have hne (k : TokenKind) (hk : n.kind = k) : k.isLeading = true := hk ▸ hl
  cases n with
  | leaf x =>
    have hr : x.isReference = false := by
      have : x.token.kind ≠ .varRef := fun h => absurd (hne _ h) (by decide)
      simp [Lexeme.isReference, this]
    have ht : t ∈ (if x.isReference then _ else x.leaves) := ht
    rw [hr] at ht
    exact Lexeme.isLeaf_of_mem_leaves ht
  | quoted x inside trailing => exact absurd (hne _ hc) (by decide)
  | raw x => exact absurd (hne _ hc) (by decide)
  | expansion opener body closer => exact absurd (hne _ hc.1) (by decide)

end Nest

namespace Parser

variable {α : Type}

/-- What holds of a rule that, if it succeeds on the line, takes all of it. -/
structure OneLiner (p : Parser Unit) (line : Line) : Prop where
  uniform : Uniform p
  consumes : line.Good → ∀ k, k ≠ .condition → Consumes (HeldBy k) p line (fun _ ms => ms = [])
  statement : line.Good → ∀ {outer es a s}, p ⟨line, outer, es⟩ = .ok a s →
    ∃ ts, s.built = outer ++ ts ∧ Tree.Statement ts

theorem held_of_consumes {p : Parser α} {ns us : List Nest} {Q : α → List Nest → Prop}
    (hc : ∀ k, k ≠ .condition → Consumes (HeldBy k) p ns Q) (hn : Nest.ClosedAll ns) {a : α}
    {ms : List Nest} {ts : List Tree} (h : Takes p ns a ms ts) (hs : ns = us ++ ms) :
    Held us ts := by
  intro k hk
  obtain ⟨es, h⟩ := h [] []
  obtain ⟨vs, ts', h₁, h₂, h₃, -⟩ := hc k hk [] [] a _ h
  obtain rfl : us = vs := List.append_cancel_right (hs.symm.trans h₁)
  obtain rfl : ts = ts' := by simpa using h₂
  rw [hs] at hn
  exact h₃ (Nest.closedAll_append.1 hn).1

theorem solid_of_consumes {p : Parser α} {ns us : List Nest} {Q : α → List Nest → Prop}
    {k : NodeKind} (hc : Consumes (SolidIn k) p ns Q) (hn : Nest.ClosedAll ns) {a : α}
    {ms : List Nest} {ts : List Tree} (h : Takes p ns a ms ts) (hs : ns = us ++ ms) :
    ∀ n ∈ us, Solid n := by
  obtain ⟨es, h⟩ := h [] []
  obtain ⟨vs, ts', h₁, -, h₃, -⟩ := hc [] [] a _ h
  obtain rfl : us = vs := List.append_cancel_right (hs.symm.trans h₁)
  rw [hs] at hn
  exact h₃ (Nest.closedAll_append.1 hn).1

/-- What a successful run on a closed line has taken, and that its trees hold that. -/
theorem stretch_ok {p : Parser α} {line : Line} {Q : α → List Nest → Prop} (hu : Uniform p)
    (hc : ∀ k, k ≠ .condition → Consumes (HeldBy k) p line Q) (hn : Nest.ClosedAll line)
    {outer : List Tree} {es : List Event} {a : α} {s : Cursor}
    (h : p ⟨line, outer, es⟩ = .ok a s) : ∃ us ts, line = us ++ s.unread ∧
      s.built = outer ++ ts ∧ Takes p line a s.unread ts ∧ Held us ts ∧ Q a s.unread := by
  obtain ⟨ts, hb, ht⟩ := takes_of_ok hu h
  obtain ⟨us, -, hl, -, -, hQ⟩ := hc .root (by decide) _ _ _ _ h
  exact ⟨us, ts, hl, hb, ht, held_of_consumes hc hn ht hl, hQ⟩

theorem line_ok {p : Parser α} {line : Line} (hu : Uniform p)
    (hc : ∀ k, k ≠ .condition → Consumes (HeldBy k) p line (fun _ ms => ms = []))
    (hn : Nest.ClosedAll line) {outer : List Tree} {es : List Event} {a : α} {s : Cursor}
    (h : p ⟨line, outer, es⟩ = .ok a s) : ∃ ts, s.unread = [] ∧ s.built = outer ++ ts ∧
      Takes p line a [] ts ∧ Held line ts := by
  obtain ⟨us, ts, hl, hb, ht, hheld, h0⟩ := stretch_ok hu hc hn h
  rw [h0] at ht
  rw [h0, List.append_nil] at hl
  subst hl
  exact ⟨ts, h0, hb, ht, hheld⟩

theorem solid_of_line {p : Parser α} {line : Line} {k : NodeKind} {Q : α → List Nest → Prop}
    (hc : Consumes (SolidIn k) p line Q) (hn : Nest.ClosedAll line) {a : α} {ts : List Tree}
    (h : Takes p line a [] ts) : ∀ n ∈ line, Solid n :=
  solid_of_consumes hc hn h (List.append_nil line).symm

theorem skipLeading_ok {line : Line} (hg : line.Good) {outer : List Tree} {es : List Event}
    {a : Unit} {s : Cursor} (h : skipLeading ⟨line, outer, es⟩ = .ok a s) :
    ∃ ts, s.built = outer ++ ts ∧ ∀ t ∈ ts, t.IsLeaf := by
  cases h
  refine ⟨_, rfl, fun t ht => ?_⟩
  obtain ⟨n, hn, ht⟩ := Nest.mem_treesOf ht
  have hw : n ∈ line.takeWhile (·.kind.isLeading) := by
    have := List.prefix_iff_eq_take.1 (List.takeWhile_prefix (·.kind.isLeading) (l := line))
    rw [this]
    exact hn
  have hm := (List.takeWhile_prefix (·.kind.isLeading) (l := line)).subset hw
  have hl : n.kind.isLeading = true := by
    simpa using List.mem_takeWhile_imp hw
  exact Nest.trees_of_isLeading (hg.closed.mem hm) hl t ht

namespace OneLiner

variable {p : Parser Unit} {line : Line}

theorem ok (h : OneLiner p line) (hg : line.Good) {outer : List Tree} {es : List Event} {a : Unit}
    {s : Cursor} (hp : p ⟨line, outer, es⟩ = .ok a s) :
    ∃ ts, s.unread = [] ∧ s.built = outer ++ ts ∧ Takes p line () [] ts ∧ Held line ts ∧
      Tree.Statement ts := by
  obtain ⟨ts, h0, hb, ht, hheld⟩ := line_ok h.uniform (h.consumes hg) hg.closed hp
  obtain ⟨ts', hb', hs⟩ := h.statement hg hp
  obtain rfl : ts = ts' := List.append_cancel_left (hb.symm.trans hb')
  exact ⟨ts, h0, hb, ht, hheld, hs⟩

theorem of_within {k : NodeKind} {q : Parser Unit} (hu : Uniform (within k q))
    (hc : line.Good → ∀ j, j ≠ .condition →
      Consumes (HeldBy j) (within k q) line (fun _ ms => ms = [])) :
    OneLiner (within k q) line where
  uniform := hu
  consumes := hc
  statement := by
    intro _ outer es a s hp
    obtain ⟨s₁, -, -, h⟩ := within_ok hp
    exact ⟨_, h, .inl ⟨_, _, rfl⟩⟩

theorem of_failAt (ns : List Nest) (expected : List Expected) :
    OneLiner (failAt ns expected) line where
  uniform := sim_failAt (Likeness.same_nests ns) expected
  consumes _ _ _ := consumes_failAt ns expected
  statement := by
    intro _ outer es a s hp
    cases hp

theorem of_skipLeading (h : Line.afterLeading line = []) : OneLiner skipLeading line where
  uniform := sim_skipLeading
  consumes _ k _ := (consumes_skipLeading reads_held).mono fun _ ms hm => hm.trans h
  statement := by
    intro hg outer es a s hp
    obtain ⟨ts, hb, hts⟩ := skipLeading_ok hg hp
    exact ⟨ts, hb, .inr hts⟩

end OneLiner

section Dispatch

variable {line : Line}

theorem oneLiner_specifiedLine (found : List Specifier) (after : Line) :
    OneLiner (specifiedLine found after) line := by
  unfold specifiedLine
  split
  · exact .of_within sim_assignment fun hg k _ => consumes_assignment reads_held hg.single
  · split
    · exact .of_within sim_exportLine fun hg k _ =>
        consumes_exportLine reads_held held_any hg.single
    · split
      · exact .of_failAt _ _
      · exact .of_failAt _ _

end Dispatch

end Parser

namespace Line

def IsConditional (line : Line) : Prop :=
  ∃ k, (afterLeading line).head?.map Nest.kind = some (.keyword (.conditional k))

def IsRule (line : Line) : Prop :=
  ∃ n ns, afterLeading line = n :: ns ∧ n.kind ≠ .lineBreak ∧ n.kind ≠ .comment ∧
    (∀ k, n.kind ≠ .keyword k) ∧ separator? (n :: ns) = some .colon

end Line

namespace Parser

/-- A rule and, if its first line is no assignment, its recipe. -/
def rule (lines : List Line) : Parser (Rest lines) := within .rule do
  if ← ruleHeader then recipes lines else return .all lines

theorem unread_bind_eq {f : List Nest → Parser α} {ns : List Nest} {ts : List Tree}
    {es : List Event} : (unread >>= f) ⟨ns, ts, es⟩ = f ns ⟨ns, ts, es⟩ := rfl

theorem record_bind_eq {f : Unit → Parser α} {ns : List Nest} {ts : List Tree}
    {es es' : List Event} : (record es' >>= f) ⟨ns, ts, es⟩ = f () ⟨ns, ts, es ++ es'⟩ := rfl

theorem statement_eq_of_cons {line : Line} {n : Nest} {ns : List Nest} {outer : List Tree}
    {es : List Event} (lines : List Line) (h : Line.afterLeading line = n :: ns) :
    statement lines ⟨line, outer, es⟩ = (match n.kind with
      | .lineBreak => oneLine lines blankLine
      | .comment => oneLine lines commentLine
      | .keyword (.conditional _) => conditional .statements lines
      | .keyword (.specifier _) => specified (n :: ns) lines
      | .keyword .define => specified (n :: ns) lines
      | .keyword .includeFile => oneLine lines includeLine
      | .keyword _ => failAt (n :: ns) [.statement]
      | _ =>
        match Line.separator? (n :: ns) with
        | some .colon => rule lines
        | some _ => oneLine lines assignment
        | none =>
          if Line.startsExpansion n then oneLine lines functionLine
          else failAt (n :: ns) [.token .colon, .token .assignOp])
      ⟨line, outer, es ++ [Event.statement n.kind]⟩ := by
  rw [statement]
  simp only [unread_bind_eq, record_bind_eq, h]
  rfl

theorem specifiersOf_cases (found : List Specifier) (ns : List Nest) :
    (∃ r, ∀ c, specifiersOf found ns c = .ok r c) ∨
      ∃ ms, specifiersOf found ns = failAt ms [.variableName] := by
  induction ns generalizing found with
  | nil => exact .inl ⟨_, fun _ => rfl⟩
  | cons n ns ih =>
    rw [specifiersOf]
    cases n.kind.specifier? with
    | some t =>
      simp only
      generalize (if t = Specifier.override then found.contains .override
        else found.any (· != .override)) = conflict
      cases conflict with
      | true => exact .inr ⟨n :: ns, rfl⟩
      | false => exact ih _
    | none =>
      simp only
      split
      · exact ih _
      · exact .inl ⟨_, fun _ => rfl⟩

theorem specified_cases (line ns : Line) :
    (∃ p, OneLiner p line ∧ ∀ lines c, specified ns lines c = oneLine lines p c) ∨
      ∀ lines c, specified ns lines c = definition lines c := by
  obtain ⟨⟨found, after⟩, h⟩ | ⟨ms, h⟩ := specifiersOf_cases [] ns
  · have hs (lines : List Line) (c) : specified ns lines c =
        (if after.head?.any (·.kind == .keyword .define) then definition lines
        else oneLine lines (specifiedLine found after)) c := by
      show EStateM.bind (specifiersOf [] ns) _ c = _
      rw [EStateM.bind, h]
    by_cases hd : after.head?.any (·.kind == .keyword .define) = true
    · simp only [hd, if_true] at hs
      exact .inr hs
    · simp only [hd, if_false, Bool.false_eq_true] at hs
      exact .inl ⟨_, oneLiner_specifiedLine found after, hs⟩
  · refine .inl ⟨failAt ms [.variableName], .of_failAt _ _, fun lines c => ?_⟩
    show EStateM.bind (specifiersOf [] ns) _ c = _
    rw [EStateM.bind, h]
    cases ms <;> rfl

/-- What a statement on the line is, whatever comes after the line. -/
inductive Dispatch (line : Line) : Prop
  | oneLine {p : Parser Unit} (hp : OneLiner p line) (h : ∀ lines outer es, ∃ es',
      statement lines ⟨line, outer, es⟩ = oneLine lines p ⟨line, outer, es'⟩)
  | conditional (hl : line.IsConditional) (h : ∀ lines outer es, ∃ es',
      statement lines ⟨line, outer, es⟩ = conditional .statements lines ⟨line, outer, es'⟩)
  | definition (h : ∀ lines outer es, ∃ es',
      statement lines ⟨line, outer, es⟩ = definition lines ⟨line, outer, es'⟩)
  | rule (hl : line.IsRule) (h : ∀ lines outer es, ∃ es',
      statement lines ⟨line, outer, es⟩ = rule lines ⟨line, outer, es'⟩)

theorem dispatch_separator {line ns : Line} {n : Nest} (ha : Line.afterLeading line = n :: ns)
    (h₁ : n.kind ≠ .lineBreak) (h₂ : n.kind ≠ .comment) (h₃ : ∀ k, n.kind ≠ .keyword k)
    (hs : ∀ lines outer es, statement lines ⟨line, outer, es⟩ =
      (match Line.separator? (n :: ns) with
        | some .colon => rule lines
        | some _ => oneLine lines assignment
        | none =>
          if Line.startsExpansion n then oneLine lines functionLine
          else failAt (n :: ns) [.token .colon, .token .assignOp])
        ⟨line, outer, es ++ [Event.statement n.kind]⟩) : Dispatch line := by
  have assign (h : ∀ lines outer es, statement lines ⟨line, outer, es⟩ =
      oneLine lines assignment ⟨line, outer, es ++ [Event.statement n.kind]⟩) : Dispatch line :=
    .oneLine (.of_within sim_assignment fun hg k _ => consumes_assignment reads_held hg.single)
      fun lines outer es => ⟨_, h lines outer es⟩
  cases hsep : Line.separator? (n :: ns) with
  | none =>
    rw [hsep] at hs
    by_cases he : Line.startsExpansion n = true
    · refine .oneLine (p := functionLine) (.of_within sim_functionLine fun hg k _ => ?_)
        fun lines outer es => ⟨es ++ [Event.statement n.kind], ?_⟩
      · exact consumes_functionLine reads_held hg.single
      · simp only [hs, if_pos he]
    · refine .oneLine (.of_failAt (n :: ns) [.token .colon, .token .assignOp])
        fun lines outer es => ⟨es ++ [Event.statement n.kind], ?_⟩
      simp only [hs, if_neg he]
      rfl
  | some k =>
    rw [hsep] at hs
    cases k with
    | colon => exact .rule ⟨n, ns, ha, h₁, h₂, h₃, hsep⟩ fun lines outer es => ⟨_, hs _ _ _⟩
    | _ => exact assign fun lines outer es => hs _ _ _

theorem statement_cases (line : Line) : Dispatch line := by
  cases ha : Line.afterLeading line with
  | nil =>
    refine .oneLine (.of_skipLeading ha) fun lines outer es => ⟨es, ?_⟩
    rw [statement, unread_bind_eq, ha]
  | cons n ns =>
    have hs (lines : List Line) (outer : List Tree) (es : List Event) :=
      @statement_eq_of_cons line n ns outer es lines ha
    cases hk : n.kind with
    | lineBreak =>
      refine .oneLine (p := blankLine) (.of_within sim_blankLine fun hg k _ => ?_)
        fun lines outer es => ⟨_, by rw [hs, hk]⟩
      exact consumes_blankLine reads_held hg.single (by simp [ha, Nest.isLineBreak, hk])
    | comment =>
      refine .oneLine (p := commentLine) (.of_within sim_commentLine fun hg k _ => ?_)
        fun lines outer es => ⟨_, by rw [hs, hk]⟩
      exact consumes_commentLine reads_held hg.single
    | keyword w =>
      cases w with
      | conditional c =>
        exact .conditional ⟨c, by simp [ha, hk]⟩ fun lines outer es => ⟨_, by rw [hs, hk]⟩
      | specifier s =>
        obtain ⟨p, hp, h⟩ | h := specified_cases line (n :: ns)
        · exact .oneLine hp fun lines outer es => ⟨_, by rw [hs, hk]; exact h lines _⟩
        · exact .definition fun lines outer es => ⟨_, by rw [hs, hk]; exact h lines _⟩
      | define =>
        obtain ⟨p, hp, h⟩ | h := specified_cases line (n :: ns)
        · exact .oneLine hp fun lines outer es => ⟨_, by rw [hs, hk]; exact h lines _⟩
        · exact .definition fun lines outer es => ⟨_, by rw [hs, hk]; exact h lines _⟩
      | includeFile =>
        refine .oneLine (p := includeLine) (.of_within sim_includeLine fun hg k _ => ?_)
          fun lines outer es => ⟨_, by rw [hs, hk]⟩
        exact consumes_includeLine reads_held held_any hg.single
      | _ =>
        exact .oneLine (.of_failAt (n :: ns) [.statement])
          fun lines outer es => ⟨_, by rw [hs, hk]; rfl⟩
    | _ =>
      refine dispatch_separator ha (by simp [hk]) (by simp [hk]) (by simp [hk]) fun _ _ _ => ?_
      rw [hs]
      simp only [hk]

end Parser

end MakeTree
