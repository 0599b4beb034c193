import MakeTree.Proofs.Grammar.Tries
import MakeTree.Proofs.Grammar.Parses

/-!
What is looked for before it is waited for. A line is parsed as a rule, or as an assignment, when
the colon, or the operator, has been found on it, and the parsers of these come to what was found
(`tries_targets`, `tries_assignment`), so its lack is never what a line is refused for
(`tries_statement`).
-/

namespace MakeTree

namespace ParseError

/-- What is looked for before it is waited for. -/
def foreseen : List (List Expected) :=
  [[.token .colon], [.token .assignOp],
    [.token .recipePrefix, .token (.keyword .otherwise), .token (.keyword .endif)]]

def Unforeseen (e : ParseError) : Prop := e.expected ∉ foreseen

theorem unforeseen_refusal {es : List Expected} (h : es ∉ foreseen) (ns : List Nest) :
    Unforeseen (refusal ns es) := by
  rwa [Unforeseen, expected_refusal]

theorem tolerates_unforeseen : Tolerates Unforeseen where
  crossing n _ := unforeseen_refusal (by decide) [n]
  leftover n _ := unforeseen_refusal (by decide) [n]

theorem lenient_unforeseen : Lenient Unforeseen := by
  rintro e (@⟨n, -⟩ | n | -)
  · exact unforeseen_refusal (by decide) [n]
  · exact unforeseen_refusal (by decide) [n]
  · exact unforeseen_refusal (by decide) []

end ParseError

namespace Line

/-- What comes first, an assignment operator or the end of the line, is an operator. -/
def Assigns (line : Line) : Prop :=
  (line.dropWhile fun n => !n.isLineBreak && !n.isAssignOp).head?.any Nest.isAssignOp = true

theorem assigns_cons {n : Nest} {ns : Line} :
    Assigns (n :: ns) ↔ n.isAssignOp = true ∨ n.isLineBreak = false ∧ Assigns ns := by
  have hk : n.isAssignOp = true → n.isLineBreak = false := fun h => by
    simp_all [Nest.isAssignOp, Nest.isLineBreak]
  cases ha : n.isAssignOp <;> cases hl : n.isLineBreak <;> simp_all [Assigns]

theorem Assigns.dropWhile {line : Line} {q : Nest → Bool} (h : line.Assigns)
    (hq : ∀ n, q n = true → n.isAssignOp = false) : Assigns (line.dropWhile q) := by
  induction line with
  | nil => exact h
  | cons n ns ih =>
    by_cases hn : q n = true
    · rw [List.dropWhile_cons_of_pos hn]
      exact ih ((assigns_cons.1 h).resolve_left (by simp [hq n hn])).2
    · rwa [List.dropWhile_cons_of_neg hn]

theorem Assigns.append {line : Line} (h : line.Assigns) (ms : Line) : Assigns (line ++ ms) := by
  induction line with
  | nil => cases h
  | cons n ns ih =>
    rw [List.cons_append, assigns_cons]
    exact (assigns_cons.1 h).imp_right fun h => ⟨h.1, ih h.2⟩

theorem assigns_of_hasAssignOp {line : Line} (h : hasAssignOp line = true) : line.Assigns := by
  rw [hasAssignOp, header] at h
  induction line with
  | nil => cases h
  | cons n ns ih =>
    rw [List.takeWhile_cons] at h
    split at h
    · next he =>
      simp only [Bool.and_eq_true, Bool.not_eq_true'] at he
      rw [List.any_cons, Bool.or_eq_true] at h
      exact assigns_cons.2 (h.imp_right fun h => ⟨n.not_isLineBreak_of_not_breaksLine he.1, ih h⟩)
    · cases h

theorem hasAssignOp_of_separator? {line : Line} {k : TokenKind} (h : separator? line = some k)
    (hk : k ≠ .colon) : hasAssignOp line = true := by
  obtain ⟨n, hn, rfl⟩ := Option.map_eq_some_iff.1 h
  have hs := List.find?_some hn
  refine List.any_eq_true.2 ⟨n, List.mem_of_find?_eq_some hn, ?_⟩
  simpa [Nest.isColon, hk] using hs

theorem not_isAssignOp_of_isIntro {n : Nest} (h : Parser.isIntro n = true) :
    n.isAssignOp = false := by
  obtain hk | ⟨s, hk⟩ := Parser.kind_of_isIntro h <;> simp [Nest.isAssignOp, hk]

theorem Assigns.behind {line : Line} (h : line.Assigns) :
    Assigns ((afterLeading line).dropWhile Parser.isIntro) := by
  refine Assigns.dropWhile (h.dropWhile fun n hn => ?_) fun n hn => not_isAssignOp_of_isIntro hn
  rw [Nest.isAssignOp, beq_eq_false_iff_ne]
  rintro hk
  rw [hk] at hn
  cases hn

theorem assigns_of_target {line : Line}
    (h : hasAssignOp (line.takeWhile (!·.isText [';'])) = true) : line.Assigns := by
  have ha := (assigns_of_hasAssignOp h).append (line.dropWhile (!·.isText [';']))
  rwa [List.takeWhile_append_dropWhile] at ha

/-- The line is led by specifiers or by `define`. -/
def IsSpecified (line : Line) : Prop := ∃ n ∈ (afterLeading line).head?,
  n.kind = .keyword .define ∨ ∃ s, n.kind = .keyword (.specifier s)

/-- Behind the specifiers that lead the line there is no assignment operator, and `undefine` is not
one of them. -/
structure LacksOperator (line : Line) : Prop where
  specified : line.IsSpecified
  defines : .undefine ∉ Parser.specifiersIn ((afterLeading line).takeWhile Parser.isIntro)
  lacks : hasAssignOp ((afterLeading line).dropWhile Parser.isIntro) = false

end Line

namespace Parser

open ParseError

variable {ns : List Nest}

theorem tries_specifiersOf {α : Type} {P : ParseError → Prop}
    (hv : ∀ ms, P (.refusal ms [.variableName])) (ms : List Nest) {Q : α → List Nest → Prop}
    {f : List Specifier × List Nest → Parser α}
    (h : Tries P (f (specifiersIn (ms.takeWhile isIntro), ms.dropWhile isIntro)) ns Q) :
    Tries P (specifiersOf [] ms >>= f) ns Q := by
  obtain ⟨-, he⟩ | ⟨us, vs, -, he⟩ := specifiersOf_eq ms compatible_nil
  · rw [he, pure_bind]
    exact h
  · rw [he]
    have hf : Tries P (failAt vs [.variableName]) ns
        fun (_ : List Specifier × List Nest) _ => False := tries_failAt (hv vs)
    exact tries_bind hf fun _ _ hfalse => hfalse.elim

theorem tries_specifiers {P : ParseError → Prop} (hv : ∀ ms, P (.refusal ms [.variableName])) :
    Tries P specifiers ns fun found ms =>
      found = specifiersIn (ns.takeWhile isIntro) ∧ ms = ns.dropWhile isIntro := by
  refine tries_unread_bind (tries_specifiersOf hv ns ?_)
  refine tries_bind (tries_moveWhile _) ?_
  rintro _ ms rfl
  exact tries_pure ⟨rfl, rfl⟩

theorem tries_assigned {P : ParseError → Prop} (hP : Tolerates P) (h : Line.Assigns ns) :
    Tries P assigned ns fun _ _ => True := by
  refine tries_bind (tries_expression hP _) ?_
  rintro _ ms rfl
  refine tries_bind tries_skipWhitespace ?_
  rintro _ ms rfl
  rw [Nest.dropWhile_drop_span fun n hn => by simp_all [Nest.isWhitespace, Nest.isAssignOp]]
  refine tries_bind (tries_expect fun hn => absurd (h.symm.trans hn) (by decide)) fun _ _ _ => ?_
  exact tries_skipWhitespace.mono fun _ _ _ => trivial

theorem tries_assignment {P : ParseError → Prop} (hP : Tolerates P)
    (hv : ∀ ms, P (.refusal ms [.variableName]))
    (h : .undefine ∈ specifiersIn ((Line.afterLeading ns).takeWhile isIntro) ∨
      Line.Assigns ((Line.afterLeading ns).dropWhile isIntro)) :
    Tries P assignment ns fun _ _ => True := by
  refine tries_within _ (tries_bind tries_skipLeading ?_)
  rintro _ ms rfl
  refine tries_bind (tries_specifiers hv) ?_
  rintro _ ms ⟨rfl, rfl⟩
  refine tries_bind (tries_refuse (hv _)) ?_
  rintro _ ms rfl
  have ha : Tries P (if (specifiersIn ((Line.afterLeading ns).takeWhile isIntro)).contains .undefine
      then pure () else assigned) ((Line.afterLeading ns).dropWhile isIntro) fun _ _ => True :=
    tries_ite (fun _ => tries_pure trivial) fun hu =>
      tries_assigned hP (h.resolve_left (by simpa using hu))
  refine tries_bind ha fun _ _ _ => ?_
  exact tries_bind (tries_expression hP _) fun _ _ _ => tries_endOfLine hP

section Line

theorem tries_includeLine : Tries Unforeseen includeLine ns fun _ _ => True := by
  refine tries_within _ (tries_bind tries_skipLeading fun _ _ _ => ?_)
  refine tries_bind tries_advance fun _ _ _ => ?_
  refine tries_bind tries_skipWhitespace fun _ _ _ => ?_
  refine tries_bind (tries_refuse (unforeseen_refusal (by decide) _)) fun _ _ _ => ?_
  exact tries_bind (tries_directiveWords tolerates_unforeseen) fun _ _ _ =>
    tries_endOfLine tolerates_unforeseen

theorem tries_targets (h : Line.IsRule ns) : Tries Unforeseen targets ns fun _ _ => True := by
  obtain ⟨n, ls, hn, -, -, -, hs⟩ := h
  obtain ⟨m, ms, hd, hc⟩ := colon_of_separator? hs
  refine tries_bind tries_skipLeading ?_
  rintro _ _ rfl
  rw [hn]
  refine tries_bind (tries_refuse (unforeseen_refusal (by decide) _)) ?_
  rintro _ _ rfl
  refine tries_bind (tries_within _ (tries_words tolerates_unforeseen _)) ?_
  rintro _ _ rfl
  refine tries_bind tries_skipWhitespace ?_
  rintro _ _ rfl
  rw [Nest.dropWhile_drop_span fun n hn => by
    simp_all [Nest.isWhitespace, Nest.isComment, Nest.isColon], hd]
  refine tries_bind (tries_expect fun hf => absurd (hc.symm.trans hf) (by decide)) fun _ _ _ => ?_
  refine tries_bind (tries_advanceIf _) fun _ _ _ => ?_
  exact tries_skipWhitespace.mono fun _ _ _ => trivial

theorem tries_prerequisites (k : NodeKind) :
    Tries Unforeseen (prerequisites k) ns fun _ _ => True := by
  refine tries_endsOr_bind (tries_ite (fun _ => tries_pure trivial) fun _ => ?_)
  refine tries_bind (tries_within _ (tries_words tolerates_unforeseen _)) fun _ _ _ => ?_
  exact tries_skipWhitespace.mono fun _ _ _ => trivial

theorem tries_orderOnly : Tries Unforeseen orderOnly ns fun _ _ => True := by
  refine tries_nextIs_bind (tries_ite (fun _ => ?_) fun _ => tries_pure trivial)
  refine tries_bind tries_advance fun _ _ _ => ?_
  exact tries_bind tries_skipWhitespace fun _ _ _ => tries_prerequisites _

theorem tries_inlineRecipe : Tries Unforeseen inlineRecipe ns fun _ _ => True :=
  tries_nextIs_bind (tries_ite (fun _ => tries_within _ (tries_command tolerates_unforeseen))
    fun _ => tries_endOfLine tolerates_unforeseen)

theorem tries_ruleHeader (h : Line.IsRule ns) :
    Tries Unforeseen ruleHeader ns fun _ _ => True := by
  refine tries_bind (tries_targets h) fun _ ms _ => ?_
  refine tries_unread_bind (tries_ite (fun ha => ?_) fun _ => ?_)
  · have ha := (Line.assigns_of_target ha).behind
    refine tries_bind (tries_assignment tolerates_unforeseen (unforeseen_refusal (by decide))
      (.inr ha)) fun _ _ _ => tries_pure trivial
  · refine tries_bind (tries_prerequisites _) fun _ _ _ => ?_
    refine tries_bind tries_orderOnly fun _ _ _ => ?_
    exact tries_bind tries_inlineRecipe fun _ _ _ => tries_pure trivial

theorem tries_definitionHeader : Tries Unforeseen definitionHeader ns fun _ _ => True := by
  refine tries_bind tries_skipLeading fun _ _ _ => ?_
  refine tries_bind (tries_specifiers (unforeseen_refusal (by decide))) fun _ _ _ => ?_
  refine tries_bind tries_advance fun _ _ _ => ?_
  refine tries_bind tries_skipWhitespace fun _ _ _ => ?_
  refine tries_bind (tries_refuse (unforeseen_refusal (by decide) _)) fun _ _ _ => ?_
  refine tries_bind (tries_expression tolerates_unforeseen _) fun _ _ _ => ?_
  refine tries_bind tries_skipWhitespace fun _ _ _ => ?_
  exact tries_bind (tries_advanceIf _) fun _ _ _ => tries_endOfLine tolerates_unforeseen

theorem tries_definitionEnd : Tries Unforeseen definitionEnd ns fun _ _ => True := by
  refine tries_bind tries_skipLeading fun _ _ _ => ?_
  exact tries_bind tries_advance fun _ _ _ => tries_endOfLine tolerates_unforeseen

end Line

section Statement

variable {line : Line} (lines : List Line)

/-- An error of a line without what it would need to be an assignment, or one for another reason. -/
def Unmet (line : Line) (e : ParseError) : Prop :=
  Unforeseen e ∨ e.expected = [.token .assignOp] ∧ line.LacksOperator

theorem tolerates_unmet (line : Line) : Tolerates (Unmet line) where
  crossing n h := .inl (tolerates_unforeseen.crossing n h)
  leftover n h := .inl (tolerates_unforeseen.leftover n h)

theorem tries_body (ns : List Nest) : Tries Unforeseen (body lines) ns fun _ _ => True := by
  intro _ outer es
  cases hr : body lines ⟨ns, outer, es⟩ with
  | ok a s => exact ⟨trivial, .inr lenient_unforeseen⟩
  | error e s =>
    obtain h | ⟨_, _, -, h⟩ := bind_error hr
    · obtain h | ⟨_, _, -, h⟩ := bind_error (within_error h)
      · exact lenient_unforeseen e (unreadable_of_fragments h)
      · cases h
    · cases h

theorem tries_definition : Tries Unforeseen (definition lines) line fun _ _ => True := by
  rw [definition_eq]
  refine tries_within _ (tries_bind tries_definitionHeader fun _ ms _ => ?_)
  cases Line.endef? 0 lines with
  | none => exact fun _ _ _ => unforeseen_refusal (by decide) []
  | some count =>
    refine tries_bind (tries_body _ _) fun _ _ _ => ?_
    refine tries_bind (tries_load (.inr lenient_unforeseen)) fun _ _ _ => ?_
    exact tries_bind tries_definitionEnd fun _ _ _ => tries_pure trivial

theorem tries_oneLine {P : ParseError → Prop} {p : Parser Unit}
    (h : Tries P p line fun _ _ => True) : Tries P (oneLine lines p) line fun _ _ => True :=
  tries_bind h fun _ _ _ => tries_pure trivial

theorem tries_specified {ms : Line} (ha : Line.afterLeading line = ms) (hs : line.IsSpecified) :
    Tries (Unmet line) (specified ms lines) line fun _ _ => True := by
  subst ha
  have hv (ms : List Nest) : Unmet line (.refusal ms [.variableName]) :=
    .inl (unforeseen_refusal (by decide) ms)
  have hT := tolerates_unmet line
  refine tries_specifiersOf hv _ (tries_ite (fun _ => ?_) fun _ => tries_oneLine lines ?_)
  · exact (tries_definition lines).weaken lenient_unforeseen fun _ => .inl
  · refine tries_ite (fun hc => ?_) fun hc => ?_
    · refine tries_assignment hT hv ?_
      rw [Bool.or_eq_true, List.contains_iff_mem] at hc
      exact hc.imp_right Line.assigns_of_hasAssignOp
    · rw [Bool.or_eq_true, not_or, List.contains_iff_mem, Bool.not_eq_true] at hc
      refine tries_ite (fun _ => tries_exportLine hT) fun _ => ?_
      refine tries_ite (fun _ => tries_failAt (hv _)) fun _ => tries_failAt ?_
      exact .inr ⟨expected_refusal _ _, hs, hc.1, hc.2⟩

theorem tries_refused {es : List Expected} (h : es ∉ foreseen) (ms : List Nest) :
    Tries (Unmet line) (failAt ms es) line fun (_ : Rest lines) _ => True :=
  tries_failAt (.inl (unforeseen_refusal h ms))

theorem tries_separated {n : Nest} {ns : List Nest} (ha : Line.afterLeading line = n :: ns)
    (hr : Line.separator? (n :: ns) ≠ some .colon) : Tries (Unmet line)
      (match Line.separator? (n :: ns) with
      | some .colon => rule lines
      | some _ => oneLine lines assignment
      | none =>
        if Line.startsExpansion n then oneLine lines functionLine
        else failAt (n :: ns) [.token .colon, .token .assignOp]) line fun _ _ => True := by
  have hT := tolerates_unmet line
  cases hs : Line.separator? (n :: ns) with
  | none =>
    exact tries_ite (fun _ => tries_oneLine lines (tries_functionLine hT)) fun _ =>
      tries_refused lines (by decide) _
  | some k =>
    have assigned (hk : k ≠ .colon) : Tries (Unmet line) (oneLine lines assignment) line
        fun _ _ => True := by
      have ha := Line.assigns_of_hasAssignOp (ha ▸ Line.hasAssignOp_of_separator? hs hk)
      exact tries_oneLine lines (tries_assignment hT
        (fun ms => .inl (unforeseen_refusal (by decide) ms))
        (.inr (ha.dropWhile fun m => Line.not_isAssignOp_of_isIntro)))
    cases k with
    | colon => exact absurd hs hr
    | _ => exact assigned (by simp)

theorem tries_statement (hr : ¬ line.IsRule) (hc : ¬ line.IsConditional) :
    Tries (Unmet line) (statement lines) line fun _ _ => True := by
  have hT := tolerates_unmet line
  cases ha : Line.afterLeading line with
  | nil =>
    refine Tries.of_eq (q := oneLine lines skipLeading) ?_ fun outer es => ⟨es, ?_⟩
    · exact tries_oneLine lines (tries_skipLeading.mono fun _ _ _ => trivial)
    · rw [statement, unread_bind_eq, ha]
  | cons n ns =>
    have hs (outer : List Tree) (es : List Event) :=
      @statement_eq_of_cons line n ns outer es lines ha
    refine Tries.of_eq ?_ fun outer es => ⟨_, hs outer es⟩
    split
    · exact tries_oneLine lines tries_blankLine
    · exact tries_oneLine lines (tries_commentLine hT)
    · next k hk => exact absurd ⟨k, by simp [ha, hk]⟩ hc
    · next s hk => exact tries_specified lines ha ⟨n, by simp [ha], .inr ⟨s, hk⟩⟩
    · next hk => exact tries_specified lines ha ⟨n, by simp [ha], .inl hk⟩
    · exact tries_oneLine lines (tries_includeLine.weaken lenient_unforeseen fun _ => .inl)
    · exact tries_refused lines (by decide) _
    · next h₁ h₂ _ _ _ _ h₃ =>
      exact tries_separated lines ha fun hs => hr ⟨n, ns, ha, h₁, h₂, h₃, hs⟩

end Statement

end Parser

end MakeTree
