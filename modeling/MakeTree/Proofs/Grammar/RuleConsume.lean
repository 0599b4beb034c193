import MakeTree.Proofs.Grammar.Consume
import Mathlib.Data.List.SplitBy

/-!
What each rule that stays on one line takes when it succeeds. A rule that ends a line leaves nothing
of it.
-/

namespace MakeTree

namespace Nest

theorem trimEnd_append (ns : List Nest) :
    ∃ ws, trimEnd ns ++ ws = ns ∧ ∀ n ∈ ws, n.isWhitespace = true := by
  induction ns with
  | nil => exact ⟨[], rfl, nofun⟩
  | cons n ns ih =>
    obtain ⟨ws, hws, hall⟩ := ih
    rw [trimEnd]
    split
    · next he =>
      rw [he, List.nil_append] at hws
      split
      · next hn =>
        refine ⟨n :: ws, by rw [hws]; rfl, fun m hm => ?_⟩
        rcases List.mem_cons.1 hm with rfl | hm
        · exact hn
        · exact hall m hm
      · exact ⟨ws, by rw [hws]; rfl, hall⟩
    · next m ms he =>
      exact ⟨ws, by rw [← he, List.cons_append, hws], hall⟩

theorem span_isPrefix (stop : Nest → Bool) (ns : List Nest) : span stop ns <+: ns :=
  (trimEnd_isPrefix _).trans (List.takeWhile_prefix _)

theorem takeOperand_isPrefix (stop : Nest → Bool) (depth : Nat) (ns : List Nest) :
    takeOperand stop depth ns <+: ns := by
  induction ns generalizing depth with
  | nil => exact List.prefix_refl _
  | cons n ns ih =>
    rw [takeOperand]
    split
    · exact List.nil_prefix
    · exact (List.prefix_cons_inj n).2 (ih _)

theorem dropWhile_drop_span {stop : Nest → Bool} (hs : ∀ n, n.isWhitespace = true → stop n = false)
    (ns : List Nest) : (ns.drop (span stop ns).length).dropWhile isWhitespace =
      ns.dropWhile fun n => !n.isLineBreak && !stop n := by
  have hw (n : Nest) (h : n.isWhitespace = true) : n.isLineBreak = false := by
    simp only [isLineBreak, isWhitespace, beq_iff_eq, beq_eq_false_iff_ne] at h ⊢
    rw [h]
    decide
  obtain ⟨ws, hws, hall⟩ := trimEnd_append (ns.takeWhile fun n => !n.isLineBreak && !stop n)
  have hd : ns.drop (span stop ns).length =
      ws ++ ns.dropWhile fun n => !n.isLineBreak && !stop n := by
    rw [span]
    conv => lhs; arg 2; rw [← List.takeWhile_append_dropWhile
      (p := fun n => !n.isLineBreak && !stop n) (l := ns), ← hws, List.append_assoc]
    rw [List.drop_left]
  rw [hd, List.dropWhile_append_of_pos fun n hn => hall n hn]
  cases hb : ns.dropWhile fun n => !n.isLineBreak && !stop n with
  | nil => rfl
  | cons n ms =>
    have hn := List.head?_dropWhile_not (fun n : Nest => !n.isLineBreak && !stop n) ns
    rw [hb] at hn
    refine List.dropWhile_cons_of_neg fun h => ?_
    simp [hw n h, hs n h] at hn

theorem drop_span (ns : List Nest) :
    ((ns.drop (span (fun _ => false) ns).length).dropWhile isWhitespace).head?.all isLineBreak := by
  rw [dropWhile_drop_span (fun _ _ => rfl)]
  have h := List.head?_dropWhile_not (fun n : Nest => !n.isLineBreak && !false) ns
  cases hd : (ns.dropWhile fun n : Nest => !n.isLineBreak && !false).head? with
  | none => rfl
  | some n =>
    rw [hd] at h
    simpa using h

end Nest

namespace Parser

variable {α β : Type} {R : NodeKind → List Nest → List Tree → Prop} {k : NodeKind}
  {ns : List Nest} {q : Nest → Bool}

section Reads

variable (hR : Reads R)

include hR

section Basic

theorem consumes_skipWhitespace :
    Consumes (R k) skipWhitespace ns (fun _ ms => ms = ns.dropWhile Nest.isWhitespace) :=
  consumes_moveWhile hR fun _ => Nest.movable_of_isWhitespace

theorem consumes_skipLeading :
    Consumes (R k) skipLeading ns (fun _ ms => ms = Line.afterLeading ns) :=
  consumes_moveWhile hR fun _ => Nest.movable_of_isLeading

theorem consumes_advanceIf (hq : ∀ n, q n = true → n.Movable k) : Consumes (R k) (advanceIf q) ns
    (fun _ ms => ns.head?.any q = true ∧ ms = ns.tail ∨ ns.head?.any q = false ∧ ms = ns) := by
  refine consumes_nextIs_bind ?_
  split
  · next h =>
    refine (consumes_advance hR fun n hn => hq n ?_).mono fun _ ms hm => .inl ⟨h, hm⟩
    rw [Option.mem_def.1 hn] at h
    exact h
  · next h => exact consumes_pure hR (.inr ⟨by simpa using h, rfl⟩)

theorem consumes_expect (hq : ∀ n, q n = true → n.Movable k) (expected : List Expected) :
    Consumes (R k) (expect q expected) ns (fun _ ms => ∃ n, q n = true ∧ ns = n :: ms) := by
  refine consumes_nextIs_bind ?_
  split
  · next h =>
    cases ns with
    | nil => cases h
    | cons n ns =>
      refine (consumes_advance hR fun m hm => ?_).mono fun _ ms hm => ⟨n, h, by rw [hm]; rfl⟩
      obtain rfl := Option.some.inj hm
      exact hq n h
  · exact consumes_fail expected

theorem consumes_refuse (expected : List Expected) :
    Consumes (R k) (refuse q expected) ns (fun _ ms => ms = ns) := by
  refine consumes_endsOr_bind ?_
  split
  · exact consumes_fail expected
  · exact consumes_pure hR rfl

theorem consumes_endOfLine (hs : Nest.Single ns) :
    Consumes (R k) endOfLine ns (fun _ ms => ms = []) := by
  refine consumes_bind hR (consumes_skipWhitespace hR) fun _ us ms hms _ => ?_
  subst hms
  refine consumes_bind hR (consumes_advanceIf hR ?_) fun _ vs ls hls _ => ?_
  · intro n hn
    exact Nest.movable_of_isComment hn
  subst hls
  refine consumes_unread_bind ?_
  cases ls with
  | nil => exact consumes_pure hR rfl
  | cons n ls =>
    refine (consumes_expect hR (fun _ => Nest.movable_of_isLineBreak) _).mono ?_
    rintro _ ms ⟨m, hm, he⟩
    obtain ⟨rfl, rfl⟩ := List.cons.inj he
    exact hs.suffix.suffix.eq_nil hm

end Basic

section Expression

omit hR in
theorem contents_ok {us : List Nest} {outer : List Tree} {es : List Event} {a : Unit} {s : Cursor}
    (h : contents us ⟨ns, outer, es⟩ = .ok a s) :
    (∀ n ∈ ns.take us.length, n.Closed → Solid n) ∧ s.unread = ns ∧
      s.built = outer ++ Nest.treesOf us := by
  obtain ⟨_, _, hu, h⟩ := bind_ok h
  cases hu
  obtain ⟨_, s₁, hf, h⟩ := bind_ok h
  cases h
  obtain ⟨hu, hb⟩ := fragments_ok hf
  exact ⟨solid_of_fragments_ok hf, hu, congrArg (· ++ Nest.treesOf us) hb⟩

omit hR in
theorem contents_error {us : List Nest} {outer : List Tree} {es : List Event} {e : ParseError}
    {s : Cursor} (h : contents us ⟨ns, outer, es⟩ = .error e s) :
    Unreadable e ∧ (Nest.SoundAll ns → Crosses false ns e) := by
  obtain h | ⟨_, _, hu, h⟩ := bind_error h
  · cases h
  cases hu
  obtain h | ⟨_, _, -, h⟩ := bind_error h
  · exact ⟨unreadable_of_fragments h, fun hs => fragments_error hs h⟩
  · cases h

omit hR in
theorem expressionOf_ok {us ms : List Nest} {outer : List Tree} {es : List Event} {a : Unit}
    {s : Cursor} (h : expressionOf us ⟨us ++ ms, outer, es⟩ = .ok a s) :
    (∀ n ∈ us, n.Closed → Solid n) ∧ s.unread = ms ∧
      s.built = outer ++ [.node .expression (Nest.treesOf us)] := by
  have h : (within .expression (contents us) >>= fun _ => unread >>= fun ns =>
    load (ns.drop us.length)) ⟨us ++ ms, outer, es⟩ = .ok a s := h
  obtain ⟨_, s₁, hr, h⟩ := bind_ok h
  cases h
  obtain ⟨s₂, hr, hu, hb⟩ := within_ok hr
  obtain ⟨h₁, h₂, h₃⟩ := contents_ok hr
  rw [List.take_left] at h₁
  refine ⟨h₁, ?_, by rw [hb, h₃, List.nil_append]⟩
  show s₁.unread.drop us.length = ms
  rw [hu, h₂, List.drop_left]

omit hR in
theorem expressionOf_error {us : List Nest} {outer : List Tree} {es : List Event} {e : ParseError}
    {s : Cursor} (h : expressionOf us ⟨ns, outer, es⟩ = .error e s) :
    Unreadable e ∧ (Nest.SoundAll ns → Crosses false ns e) := by
  have h : (within .expression (contents us) >>= fun _ => unread >>= fun ns =>
    load (ns.drop us.length)) ⟨ns, outer, es⟩ = .error e s := h
  obtain h | ⟨_, _, -, h⟩ := bind_error h
  · exact contents_error (within_error h)
  · cases h

omit hR in
theorem quotedOperand_ok (x : Lexeme) {inside : List Nest} (trailing : List Trivia)
    (hs : Nest.SoundAll inside) (hu : Nest.UnbrokenAll inside) (ms : List Nest) (outer : List Tree)
    (es : List Event) : ∃ es', quotedOperand ⟨.quoted x inside trailing :: ms, outer, es⟩ =
      .ok () ⟨ms, outer ++ (x.openQuote ++ [.node .expression (Nest.treesOf inside)] ++
        trailing.map Trivia.tree ++ [x.closeQuote]), es'⟩ := by
  obtain ⟨es', hf⟩ := fragments_of_unbroken hs hu inside.length
  refine ⟨es ++ x.token.inside.frameEvents ++ es', ?_⟩
  show EStateM.bind (fragments false inside.length inside) _ ⟨_, outer, es ++ _⟩ = _
  rw [EStateM.bind, hf]
  rfl

theorem consumes_expressionOf (us ms : List Nest) :
    Consumes (R k) (expressionOf us) (us ++ ms) (fun _ ls => ls = ms) := by
  intro outer es a s hp
  obtain ⟨h₁, h₂, h₃⟩ := expressionOf_ok hp
  refine ⟨us, _, by rw [h₂], h₃, ?_, h₂⟩
  exact hR.node ⟨by decide, by decide⟩ (hR.contents h₁)

theorem consumes_expression :
    Consumes (R k) (expression q) ns (fun _ ms => ms = ns.drop (Nest.span q ns).length) := by
  refine consumes_unread_bind ?_
  have h := consumes_expressionOf hR (k := k) (Nest.span q ns) (ns.drop (Nest.span q ns).length)
  rwa [List.prefix_iff_eq_append.1 (Nest.span_isPrefix q ns)] at h

theorem consumes_operand : Consumes (R k) (operand q) ns (fun _ _ => True) := by
  refine consumes_unread_bind ?_
  set us := Nest.trimEnd (Nest.takeOperand q 0 ns)
  have hp : us <+: ns := (Nest.trimEnd_isPrefix _).trans (Nest.takeOperand_isPrefix q 0 ns)
  have h := consumes_expressionOf hR (k := k) us (ns.drop us.length)
  rw [List.prefix_iff_eq_append.1 hp] at h
  exact h.mono fun _ _ _ => trivial

theorem consumes_quotedOperand :
    Consumes (R .condition) quotedOperand ns (fun _ _ => True) := by
  refine consumes_unread_bind ?_
  match ns with
  | .quoted x inside trailing :: ns =>
    intro outer es a s hp
    obtain ⟨_, s₁, hr, hp⟩ := bind_ok hp
    cases hr
    obtain ⟨_, s₂, hf, hp⟩ := bind_ok hp
    cases hp
    obtain ⟨-, hb⟩ := fragments_ok hf
    exact ⟨[_], _, rfl, congrArg (· ++ _) hb, hR.quoted x inside trailing, trivial⟩
  | .raw x :: ns =>
    intro outer es a s hp
    cases hp
    exact ⟨[_], _, rfl, rfl, hR.raw x, trivial⟩
  | .leaf x :: ns => exact consumes_fail _
  | .expansion opener body closer :: ns => exact consumes_fail _
  | [] => exact consumes_fail _

theorem consumes_runs (runs : List (List Nest)) (ms : List Nest) :
    Consumes (R k) (runs.forM fun run : List Nest =>
      if run.all Nest.isWhitespace then move run.length else expressionOf run)
      (runs.flatten ++ ms) (fun _ ls => ls = ms) := by
  induction runs with
  | nil => exact consumes_pure hR rfl
  | cons run runs ih =>
    rw [List.flatten_cons, List.append_assoc]
    have h : Consumes (R k) (if run.all Nest.isWhitespace then move run.length
        else expressionOf run) (run ++ (runs.flatten ++ ms))
        (fun _ ls => ls = runs.flatten ++ ms) := by
      split
      · next hw =>
        refine consumes_move (reads_singles hR fun n hn => ?_)
        exact Nest.movable_of_isWhitespace (List.all_eq_true.1 hw n hn)
      · exact consumes_expressionOf hR run _
    refine consumes_bind hR h fun _ _ ls _ hls => ?_
    rw [hls]
    exact ih

theorem consumes_words : Consumes (R k) (words q) ns
    (fun _ ms => ms = ns.drop (Nest.span (fun n => n.isComment || q n) ns).length) := by
  refine consumes_unread_bind ?_
  set us := Nest.span (fun n => n.isComment || q n) ns
  have h := consumes_runs hR (k := k) (Nest.wordRuns us) (ns.drop us.length)
  rw [Nest.wordRuns, List.flatten_splitBy, List.prefix_iff_eq_append.1 (Nest.span_isPrefix _ ns)] at h
  exact h

end Expression

section Line

theorem consumes_blankLine (hs : Nest.Single ns)
    (hl : (Line.afterLeading ns).head?.all Nest.isLineBreak) :
    Consumes (R k) blankLine ns (fun _ ms => ms = []) := by
  refine consumes_within hR ⟨by decide, by decide⟩ ?_
  refine consumes_bind hR (consumes_skipLeading hR) fun _ us ms hms hm => ?_
  subst hms
  refine (consumes_advanceIf hR fun _ => Nest.movable_of_isLineBreak).mono ?_
  rw [← hm] at hl
  rintro _ ls (⟨h, rfl⟩ | ⟨h, rfl⟩)
  · cases ms with
    | nil => rfl
    | cons n ms => exact hs.suffix.eq_nil hl
  · cases ls with
    | nil => rfl
    | cons n ls =>
      simp only [List.head?_cons, Option.all_some, Option.any_some] at hl h
      rw [hl] at h
      cases h

theorem consumes_commentLine (hs : Nest.Single ns) :
    Consumes (R k) commentLine ns (fun _ ms => ms = []) := by
  refine consumes_within hR ⟨by decide, by decide⟩ ?_
  refine consumes_bind hR (consumes_skipLeading hR) fun _ us ms hms _ => ?_
  subst hms
  exact consumes_endOfLine hR hs.suffix

omit hR in
theorem specifiersOf_ok {found : List Specifier} {ms : List Nest} {c s : Cursor}
    {r : List Specifier × List Nest} (h : specifiersOf found ms c = .ok r s) : s = c := by
  induction ms generalizing found with
  | nil =>
    cases h
    rfl
  | cons m ms ih =>
    rw [specifiersOf] at h
    cases hk : m.kind.specifier? with
    | some t =>
      simp only [hk] at h
      generalize (if t = Specifier.override then found.contains .override
        else found.any (· != .override)) = conflict at h
      cases conflict with
      | true => cases h
      | false => exact ih h
    | none =>
      simp only [hk] at h
      split at h
      · exact ih h
      · cases h
        rfl

theorem consumes_specifiersOf (found : List Specifier) (ms : List Nest) :
    Consumes (R k) (specifiersOf found ms) ns (fun _ ls => ls = ns) := by
  intro outer es r s h
  rw [specifiersOf_ok h]
  exact ⟨[], [], rfl, (List.append_nil _).symm, hR.nil k, rfl⟩

omit hR in
theorem movable_of_isSpecifier {n : Nest} (h : (Line.isSpecifier n || n.isWhitespace) = true) :
    n.Movable k := by
  rcases Bool.or_eq_true_iff.1 h with h | h
  · constructor
    · intro hk
      simp [Line.isSpecifier, hk, TokenKind.specifier?] at h
    · intro _ hk
      simp [Line.isSpecifier, hk, TokenKind.specifier?] at h
  · exact Nest.movable_of_isWhitespace h

theorem consumes_specifiers : Consumes (R k) specifiers ns
    (fun _ ms => ms = ns.dropWhile fun n => Line.isSpecifier n || n.isWhitespace) := by
  refine consumes_unread_bind (consumes_bind hR (consumes_specifiersOf hR [] ns) ?_)
  rintro ⟨found, after⟩ us ms - rfl
  exact consumes_bind hR (consumes_moveWhile hR fun _ => movable_of_isSpecifier)
    fun _ _ _ _ hm => consumes_pure hR hm

theorem consumes_assigned : Consumes (R k) assigned ns (fun _ _ => True) := by
  refine consumes_bind hR (consumes_expression hR) fun _ _ _ _ _ => ?_
  refine consumes_bind hR (consumes_skipWhitespace hR) fun _ _ _ _ _ => ?_
  refine consumes_bind hR (consumes_expect hR (fun _ => Nest.movable_of_isAssignOp) _)
    fun _ _ _ _ _ => ?_
  exact (consumes_skipWhitespace hR).mono fun _ _ _ => trivial

theorem consumes_assignment (hs : Nest.Single ns) :
    Consumes (R k) assignment ns (fun _ ms => ms = []) := by
  refine consumes_within hR ⟨by decide, by decide⟩ ?_
  refine consumes_bind hR (consumes_skipLeading hR) fun _ _ _ h₁ _ => ?_
  refine consumes_bind hR (consumes_specifiers hR) fun found _ _ h₂ _ => ?_
  refine consumes_bind hR (consumes_refuse hR _) fun _ _ _ h₃ _ => ?_
  have h (ms : List Nest) : Consumes (R .assignment)
      (if found.contains .undefine then pure () else assigned) ms (fun _ _ => True) := by
    split
    · exact consumes_pure hR trivial
    · exact consumes_assigned hR
  refine consumes_bind hR (h _) fun _ _ _ h₄ _ => ?_
  refine consumes_bind hR (consumes_expression hR) fun _ _ _ h₅ _ => ?_
  subst h₁ h₂ h₃ h₄ h₅
  exact consumes_endOfLine hR hs.suffix.suffix.suffix.suffix.suffix

theorem consumes_functionLine (hs : Nest.Single ns) :
    Consumes (R k) functionLine ns (fun _ ms => ms = []) := by
  refine consumes_within hR ⟨by decide, by decide⟩ ?_
  refine consumes_bind hR (consumes_skipLeading hR) fun _ _ _ h₁ _ => ?_
  refine consumes_bind hR (consumes_expression hR) fun _ _ _ h₂ _ => ?_
  subst h₁ h₂
  exact consumes_endOfLine hR hs.suffix.suffix

theorem consumes_directiveWords : Consumes (R k) directiveWords ns (fun _ _ => True) := by
  refine consumes_endsOr_bind ?_
  split
  · exact consumes_pure hR trivial
  · exact (consumes_words hR).mono fun _ _ _ => trivial

theorem consumes_command (hs : Nest.Single ns) (hm : ∀ n ∈ ns.head?, n.Movable k) :
    Consumes (R k) command ns (fun _ ms => ms = []) := by
  refine consumes_bind hR (consumes_advance hR hm) fun _ _ _ h₁ _ => ?_
  refine consumes_bind hR (consumes_skipWhitespace hR) fun _ _ ms h₂ _ => ?_
  refine consumes_bind hR (consumes_expression hR) fun _ _ _ h₃ hd => ?_
  refine consumes_bind hR (consumes_skipWhitespace hR) fun _ _ ls h₄ hw => ?_
  have hl := Nest.drop_span ms
  rw [← hd, ← hw] at hl
  refine (consumes_advanceIf hR fun _ => Nest.movable_of_isLineBreak).mono ?_
  subst h₁ h₂ h₃ h₄
  cases ls with
  | nil =>
    rintro _ _ (⟨-, rfl⟩ | ⟨-, rfl⟩)
    · rfl
    · rfl
  | cons n ls =>
    have hn := hs.suffix.suffix.suffix.suffix.eq_nil hl
    rintro _ _ (⟨-, rfl⟩ | ⟨h, rfl⟩)
    · exact hn
    · exact absurd (hl.symm.trans h) (by decide)

theorem consumes_recipeLine (hs : Nest.Single ns)
    (hp : ns.head?.any (·.kind == .recipePrefix) = true) :
    Consumes (R k) recipeLine ns (fun _ ms => ms = []) := by
  refine consumes_within hR ⟨by decide, by decide⟩ (consumes_command hR hs fun n hn => ?_)
  rw [Option.mem_def.1 hn] at hp
  exact Nest.movable_of_kind (by simpa using hp) (by decide) (by decide)

theorem consumes_definedName : Consumes (R k) definedName ns (fun _ _ => True) :=
  consumes_bind hR (consumes_refuse hR _) fun _ _ _ _ _ =>
    (consumes_expression hR).mono fun _ _ _ => trivial

theorem consumes_parenthesized (h : ns.head?.any (·.isText ['(']) = true) :
    Consumes (R k) parenthesized ns (fun _ _ => True) := by
  have ha : ∀ n ∈ ns.head?, n.Movable k := fun n hn => by
    rw [Option.mem_def.1 hn] at h
    exact Nest.movable_of_isText h
  have hc (n : Nest) (h : (n.kind == .comma) = true) : n.Movable k :=
    Nest.movable_of_kind (by simpa using h) (by decide) (by decide)
  refine consumes_bind hR (consumes_advance hR ha) fun _ _ _ _ _ => ?_
  refine consumes_bind hR (consumes_skipWhitespace hR) fun _ _ _ _ _ => ?_
  refine consumes_bind hR (consumes_operand hR) fun _ _ _ _ _ => ?_
  refine consumes_bind hR (consumes_skipWhitespace hR) fun _ _ _ _ _ => ?_
  refine consumes_bind hR (consumes_expect hR hc _) fun _ _ _ _ _ => ?_
  refine consumes_bind hR (consumes_skipWhitespace hR) fun _ _ _ _ _ => ?_
  refine consumes_bind hR (consumes_operand hR) fun _ _ _ _ _ => ?_
  refine consumes_bind hR (consumes_skipWhitespace hR) fun _ _ _ _ _ => ?_
  exact (consumes_expect hR (fun _ => Nest.movable_of_isText) _).mono fun _ _ _ => trivial

theorem consumes_quotedPair : Consumes (R .condition) quotedPair ns (fun _ _ => True) := by
  refine consumes_bind hR (consumes_quotedOperand hR) fun _ _ _ _ _ => ?_
  exact consumes_bind hR (consumes_skipWhitespace hR) fun _ _ _ _ _ => consumes_quotedOperand hR

theorem consumes_condition (keyword : TokenKind) :
    Consumes (R k) (condition keyword) ns (fun _ _ => True) := by
  refine consumes_within hR ⟨by decide, by decide⟩ ?_
  split
  · exact consumes_definedName hR
  · refine consumes_nextIs_bind ?_
    split
    · next h => exact consumes_parenthesized hR h
    · refine consumes_nextIs_bind ?_
      split
      · exact consumes_quotedPair hR
      · exact consumes_fail _

theorem consumes_conditionalHeader (hs : Nest.Single ns)
    (hm : ∀ n ∈ (Line.afterLeading ns).head?, n.Movable k) :
    Consumes (R k) conditionalHeader ns (fun _ ms => ms = []) := by
  refine consumes_bind hR (consumes_skipLeading hR) fun _ _ ms h₁ ha => ?_
  refine consumes_kind?_bind ?_
  split
  · exact consumes_fail _
  refine consumes_bind hR (consumes_advance hR (ha ▸ hm)) fun _ _ _ h₂ _ => ?_
  refine consumes_bind hR (consumes_skipWhitespace hR) fun _ _ _ h₃ _ => ?_
  refine consumes_bind hR (consumes_condition hR _) fun _ _ _ h₄ _ => ?_
  subst h₁ h₂ h₃ h₄
  exact consumes_endOfLine hR hs.suffix.suffix.suffix.suffix

theorem consumes_prerequisites {j : NodeKind} (hj : j.Inner) :
    Consumes (R k) (prerequisites j) ns (fun _ _ => True) := by
  refine consumes_endsOr_bind ?_
  split
  · exact consumes_pure hR trivial
  · refine consumes_bind hR (consumes_within hR hj (consumes_words hR)) fun _ _ _ _ _ => ?_
    exact (consumes_skipWhitespace hR).mono fun _ _ _ => trivial

theorem consumes_orderOnly : Consumes (R k) orderOnly ns (fun _ _ => True) := by
  refine consumes_nextIs_bind ?_
  split
  · next h =>
    have ha : ∀ n ∈ ns.head?, n.Movable k := fun n hn => by
      rw [Option.mem_def.1 hn] at h
      exact Nest.movable_of_isText h
    refine consumes_bind hR (consumes_advance hR ha) fun _ _ _ _ _ => ?_
    exact consumes_bind hR (consumes_skipWhitespace hR) fun _ _ _ _ _ =>
      consumes_prerequisites hR ⟨by decide, by decide⟩
  · exact consumes_pure hR trivial

theorem consumes_inlineRecipe (hs : Nest.Single ns) :
    Consumes (R k) inlineRecipe ns (fun _ ms => ms = []) := by
  refine consumes_nextIs_bind ?_
  split
  · next h =>
    refine consumes_within hR ⟨by decide, by decide⟩ (consumes_command hR hs fun n hn => ?_)
    rw [Option.mem_def.1 hn] at h
    exact Nest.movable_of_isText h
  · exact consumes_endOfLine hR hs

theorem consumes_targets : Consumes (R k) targets ns (fun _ _ => True) := by
  have hc (n : Nest) (h : (n.isColon && n.first.leading.isEmpty) = true) : n.Movable k :=
    Nest.movable_of_isColon (Bool.and_eq_true_iff.1 h).1
  refine consumes_bind hR (consumes_skipLeading hR) fun _ _ _ _ _ => ?_
  refine consumes_bind hR (consumes_refuse hR _) fun _ _ _ _ _ => ?_
  refine consumes_bind hR (consumes_within hR ⟨by decide, by decide⟩ (consumes_words hR))
    fun _ _ _ _ _ => ?_
  refine consumes_bind hR (consumes_skipWhitespace hR) fun _ _ _ _ _ => ?_
  refine consumes_bind hR (consumes_expect hR (fun _ => Nest.movable_of_isColon) _)
    fun _ _ _ _ _ => ?_
  refine consumes_bind hR (consumes_advanceIf hR hc) fun _ _ _ _ _ => ?_
  exact (consumes_skipWhitespace hR).mono fun _ _ _ => trivial

theorem consumes_ruleHeader (hs : Nest.Single ns) :
    Consumes (R k) ruleHeader ns (fun _ ms => ms = []) := by
  refine consumes_bind hR (consumes_targets hR) fun _ _ _ h₁ _ => ?_
  refine consumes_unread_bind ?_
  subst h₁
  split
  · refine consumes_bind hR (consumes_assignment hR hs.suffix) fun _ _ _ _ h => ?_
    exact consumes_pure hR h
  · refine consumes_bind hR (consumes_prerequisites hR ⟨by decide, by decide⟩) fun _ _ _ h₂ _ => ?_
    refine consumes_bind hR (consumes_orderOnly hR) fun _ _ _ h₃ _ => ?_
    subst h₂ h₃
    refine consumes_bind hR (consumes_inlineRecipe hR hs.suffix.suffix.suffix) fun _ _ _ _ h => ?_
    exact consumes_pure hR h

end Line

section Any

variable (hany : ∀ {j : NodeKind}, j ≠ .condition → ∀ n : Nest, R j [n] n.trees)

include hany

theorem consumes_advance_any (hk : k ≠ .condition) :
    Consumes (R k) advance ns (fun _ ms => ms = ns.tail) := by
  cases ns with
  | nil =>
    intro outer es a s hp
    cases hp
    exact ⟨[], [], rfl, rfl, hR.nil k, rfl⟩
  | cons n ns =>
    have h : R k [n] (Nest.treesOf [n]) := hR.append (hany hk n) (hR.nil k)
    exact consumes_move h

theorem consumes_exportLine (hs : Nest.Single ns) :
    Consumes (R k) exportLine ns (fun _ ms => ms = []) := by
  refine consumes_within hR ⟨by decide, by decide⟩ ?_
  refine consumes_bind hR (consumes_skipLeading hR) fun _ _ _ h₁ _ => ?_
  refine consumes_bind hR (consumes_advance_any hR hany (by decide)) fun _ _ _ h₂ _ => ?_
  refine consumes_bind hR (consumes_skipWhitespace hR) fun _ _ _ h₃ _ => ?_
  refine consumes_bind hR (consumes_directiveWords hR) fun _ _ _ h₄ _ => ?_
  subst h₁ h₂ h₃ h₄
  exact consumes_endOfLine hR hs.suffix.suffix.suffix.suffix

theorem consumes_includeLine (hs : Nest.Single ns) :
    Consumes (R k) includeLine ns (fun _ ms => ms = []) := by
  refine consumes_within hR ⟨by decide, by decide⟩ ?_
  refine consumes_bind hR (consumes_skipLeading hR) fun _ _ _ h₁ _ => ?_
  refine consumes_bind hR (consumes_advance_any hR hany (by decide)) fun _ _ _ h₂ _ => ?_
  refine consumes_bind hR (consumes_skipWhitespace hR) fun _ _ _ h₃ _ => ?_
  refine consumes_bind hR (consumes_refuse hR _) fun _ _ _ h₄ _ => ?_
  refine consumes_bind hR (consumes_directiveWords hR) fun _ _ _ h₅ _ => ?_
  subst h₁ h₂ h₃ h₄ h₅
  exact consumes_endOfLine hR hs.suffix.suffix.suffix.suffix.suffix

end Any

end Reads

end Parser

end MakeTree
