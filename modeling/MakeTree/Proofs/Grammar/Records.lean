import MakeTree.Proofs.Grammar.ReadFragments

/-!
What parsers record. `Records P p` says that `p` puts records behind those already made, each of
which satisfies `P`, whether it succeeds or not. Rules that stay on one line and recipes record
frames only (`Event.IsFrame`), and statements what they start with too (`records_statements`).
-/

namespace MakeTree

namespace Event

def IsFrame (e : Event) : Prop := e.level = .trace

/-- A frame, or the start of a statement. -/
def IsStep (e : Event) : Prop := e.IsFrame ∨ ∃ k, e = .statement k

def IsProgress (e : Event) : Prop := e.level ≠ .warn

theorem IsFrame.isProgress {e : Event} (h : e.IsFrame) : e.IsProgress := by
  have h : e.level = .trace := h
  rw [IsProgress, h]
  decide

theorem IsStep.isProgress {e : Event} (h : e.IsStep) : e.IsProgress := by
  obtain h | ⟨k, rfl⟩ := h
  · exact h.isProgress
  · exact nofun

end Event

/-- What is recorded in the branches of a conditional. -/
def Context.Allows : Context → Event → Prop
  | statements => Event.IsStep
  | recipe => Event.IsFrame

theorem Event.IsFrame.allowed {e : Event} (h : e.IsFrame) (ctx : Context) : ctx.Allows e := by
  cases ctx with
  | statements => exact .inl h
  | recipe => exact h

theorem Piece.isFrame_of_mem_frameEvents {p : Piece} {e : Event} (h : e ∈ p.frameEvents) :
    e.IsFrame := by
  unfold frameEvents at h
  split at h
  · rw [List.mem_singleton.1 h]
    rfl
  · rw [List.mem_singleton.1 h]
    rfl
  · cases h

theorem Lexer.isFrame_of_mem_frameEvents {lx : Lexer} {e : Event} (h : e ∈ lx.frameEvents) :
    e.IsFrame := by
  obtain ⟨p, -, hp⟩ := List.mem_flatMap.1 h
  exact Piece.isFrame_of_mem_frameEvents hp

namespace Parser

variable {α β : Type}

/-- What has been recorded when a run ends. -/
def recorded : EStateM.Result ParseError Cursor α → List Event
  | .ok _ s => s.events
  | .error _ s => s.events

def Records (P : Event → Prop) (p : Parser α) : Prop :=
  ∀ s, ∃ es, recorded (p s) = s.events ++ es ∧ ∀ e ∈ es, P e

section Combinators

variable {P Q : Event → Prop} {p q : Parser α} {f : α → Parser β}

theorem Records.mono (h : Records P p) (hPQ : ∀ e, P e → Q e) : Records Q p := by
  intro s
  obtain ⟨es, he, hes⟩ := h s
  exact ⟨es, he, fun e hm => hPQ e (hes e hm)⟩

theorem Records.allowed (h : Records Event.IsFrame p) (ctx : Context) : Records ctx.Allows p :=
  h.mono fun _ h => h.allowed ctx

theorem records_of_eq (h : ∀ s, recorded (p s) = s.events) : Records P p :=
  fun s => ⟨[], by rw [h, List.append_nil], nofun⟩

theorem records_pure {a : α} : Records P (pure a : Parser α) := records_of_eq fun _ => rfl

theorem records_bind (hp : Records P p) (hf : ∀ a, Records P (f a)) : Records P (p >>= f) := by
  intro s
  obtain ⟨es, he, hes⟩ := hp s
  show ∃ es, recorded (EStateM.bind p f s) = _ ∧ _
  unfold EStateM.bind
  cases hr : p s with
  | error e s₁ =>
    rw [hr] at he
    exact ⟨es, he, hes⟩
  | ok a s₁ =>
    rw [hr] at he
    obtain ⟨es', he', hes'⟩ := hf a s₁
    refine ⟨es ++ es', ?_, fun e hm => (List.mem_append.1 hm).elim (hes e) (hes' e)⟩
    rw [he', show s₁.events = _ from he, List.append_assoc]

theorem records_then {q : Parser β} (hp : Records P p) (hq : Records P q) :
    Records P (p >>= fun _ => q) := records_bind hp fun _ => hq

theorem records_unread_bind {f : List Nest → Parser β} (h : ∀ ns, Records P (f ns)) :
    Records P (unread >>= f) := fun s => h s.unread s

theorem records_kind?_bind {f : Option TokenKind → Parser β} (h : ∀ k, Records P (f k)) :
    Records P (kind? >>= f) := records_bind (records_of_eq fun _ => rfl) h

theorem records_ite {c : Prop} [Decidable c] (hp : Records P p) (hq : Records P q) :
    Records P (if c then p else q) := by
  split
  · exact hp
  · exact hq

theorem records_within (kind : NodeKind) (hp : Records P p) : Records P (within kind p) := by
  intro s
  obtain ⟨es, he, hes⟩ := hp { s with built := [] }
  refine ⟨es, ?_, hes⟩
  rw [← he, within_eq]
  cases p _ <;> rfl

theorem records_throw (e : ParseError) : Records P (throw e : Parser α) :=
  records_of_eq fun _ => rfl

theorem records_failAt (ns : List Nest) (expected : List Expected) :
    Records P (failAt ns expected : Parser α) := records_throw _

theorem records_fail (expected : List Expected) : Records P (fail expected : Parser α) :=
  records_unread_bind fun ns => records_failAt ns expected

theorem records_record {es : List Event} (h : ∀ e ∈ es, P e) : Records P (record es) :=
  fun _ => ⟨es, rfl, h⟩

theorem records_load (line : List Nest) : Records P (load line) := records_of_eq fun _ => rfl

theorem records_build (ts : List Tree) : Records P (build ts) := records_of_eq fun _ => rfl

theorem records_move (count : Nat) : Records P (move count) := records_of_eq fun _ => rfl

theorem records_moveWhile (r : Nest → Bool) : Records P (moveWhile r) :=
  records_of_eq fun _ => rfl

theorem records_nextIs (r : Nest → Bool) (hp : Records P p) (hq : Records P q) :
    Records P (nextIs r >>= fun b => if b = true then p else q) :=
  records_bind (records_of_eq fun _ => rfl) fun _ => records_ite hp hq

theorem records_endsOr (r : Nest → Bool) (hp : Records P p) (hq : Records P q) :
    Records P (endsOr r >>= fun b => if b = true then p else q) :=
  records_bind (records_of_eq fun _ => rfl) fun _ => records_ite hp hq

theorem records_advanceIf (r : Nest → Bool) : Records P (advanceIf r) :=
  records_nextIs r (records_move 1) records_pure

theorem records_expect (r : Nest → Bool) (expected : List Expected) :
    Records P (expect r expected) := records_nextIs r (records_move 1) (records_fail expected)

theorem records_refuse (r : Nest → Bool) (expected : List Expected) :
    Records P (refuse r expected) := records_endsOr r (records_fail expected) records_pure

theorem records_skipWhitespace : Records P skipWhitespace := records_moveWhile _

theorem records_skipLeading : Records P skipLeading := records_moveWhile _

theorem records_advance : Records P advance := records_move 1

end Combinators

section Line

abbrev RecordsFrames (p : Parser α) : Prop := Records Event.IsFrame p

variable {r : Nest → Bool}

theorem records_inside (x : Lexeme) : RecordsFrames (record x.token.inside.frameEvents) :=
  records_record fun _ => Lexer.isFrame_of_mem_frameEvents

theorem records_fragments (multiline : Bool) (count : Nat) (ns : List Nest) :
    RecordsFrames (fragments multiline count ns) :=
  (fragment_induction records_pure records_then records_inside (records_failAt _ _)
    (fun _ _ => records_failAt _ _) fun _ _ => records_failAt _ _).2.1 count ns

theorem records_contents (ns : List Nest) : RecordsFrames (contents ns) :=
  records_unread_bind fun _ => records_then (records_fragments _ _ _) (records_build _)

theorem records_expressionOf (ns : List Nest) : RecordsFrames (expressionOf ns) :=
  records_then (records_within _ (records_contents ns)) (records_unread_bind fun _ => records_load _)

theorem records_expression : RecordsFrames (expression r) :=
  records_unread_bind fun _ => records_expressionOf _

theorem records_operand : RecordsFrames (operand r) :=
  records_unread_bind fun _ => records_expressionOf _

theorem records_quotedOperand : RecordsFrames quotedOperand := by
  refine records_unread_bind fun ns => ?_
  split
  · exact records_then (records_inside _) <| records_then (records_fragments _ _ _) <|
      records_then (records_build _) (records_load _)
  · exact records_then (records_inside _) (records_then (records_build _) (records_load _))
  · exact records_fail _

theorem records_words : RecordsFrames (words r) := by
  refine records_unread_bind fun ns => ?_
  show RecordsFrames ((Nest.wordRuns (Nest.span (fun n => n.isComment || r n) ns)).forM _)
  induction Nest.wordRuns (Nest.span (fun n => n.isComment || r n) ns) with
  | nil => exact records_pure
  | cons run runs ih =>
    exact records_then (records_ite (records_move _) (records_expressionOf run)) ih

theorem records_endOfLine : RecordsFrames endOfLine := by
  refine records_then records_skipWhitespace (records_then (records_advanceIf _) ?_)
  refine records_unread_bind fun ns => ?_
  split
  · exact records_pure
  · exact records_expect _ _

theorem records_blankLine : RecordsFrames blankLine :=
  records_within _ (records_then records_skipLeading (records_advanceIf _))

theorem records_commentLine : RecordsFrames commentLine :=
  records_within _ (records_then records_skipLeading records_endOfLine)

theorem records_specifiersOf (found : List Specifier) (ns : List Nest) :
    RecordsFrames (specifiersOf found ns) := by
  induction ns generalizing found with
  | nil => exact records_pure
  | cons n ns ih =>
    unfold specifiersOf
    split
    · exact records_ite (records_failAt _ _) (ih _)
    · exact records_ite (ih _) records_pure

theorem records_specifiers : RecordsFrames specifiers :=
  records_unread_bind fun _ => records_bind (records_specifiersOf _ _) fun _ =>
    records_then (records_moveWhile _) records_pure

theorem records_assigned : RecordsFrames assigned :=
  records_then records_expression <| records_then records_skipWhitespace <|
    records_then (records_expect _ _) records_skipWhitespace

theorem records_assignment : RecordsFrames assignment :=
  records_within _ <| records_then records_skipLeading <| records_bind records_specifiers fun _ =>
    records_then (records_refuse _ _) <| records_then (records_ite records_pure records_assigned) <|
      records_then records_expression records_endOfLine

theorem records_functionLine : RecordsFrames functionLine :=
  records_within _ (records_then records_skipLeading (records_then records_expression
    records_endOfLine))

theorem records_directiveWords : RecordsFrames directiveWords :=
  records_endsOr _ records_pure records_words

theorem records_exportLine : RecordsFrames exportLine :=
  records_within _ <| records_then records_skipLeading <| records_then records_advance <|
    records_then records_skipWhitespace (records_then records_directiveWords records_endOfLine)

theorem records_includeLine : RecordsFrames includeLine :=
  records_within _ <| records_then records_skipLeading <| records_then records_advance <|
    records_then records_skipWhitespace <| records_then (records_refuse _ _) <|
      records_then records_directiveWords records_endOfLine

theorem records_command : RecordsFrames command :=
  records_then records_advance <| records_then records_skipWhitespace <|
    records_then records_expression (records_then records_skipWhitespace (records_advanceIf _))

theorem records_recipeLine : RecordsFrames recipeLine := records_within _ records_command

theorem records_parenthesized : RecordsFrames parenthesized :=
  records_then records_advance <| records_then records_skipWhitespace <|
    records_then records_operand <| records_then records_skipWhitespace <|
      records_then (records_expect _ _) <| records_then records_skipWhitespace <|
        records_then records_operand (records_then records_skipWhitespace (records_expect _ _))

theorem records_condition (keyword : TokenKind) : RecordsFrames (condition keyword) :=
  records_within _ <| records_ite (records_then (records_refuse _ _) records_expression) <|
    records_nextIs _ records_parenthesized <| records_nextIs _
      (records_then records_quotedOperand (records_then records_skipWhitespace records_quotedOperand))
      (records_fail _)

theorem records_conditionalHeader : RecordsFrames conditionalHeader := by
  refine records_then records_skipLeading (records_kind?_bind fun keyword => ?_)
  cases keyword with
  | none => exact records_fail _
  | some keyword =>
    exact records_then records_advance <| records_then records_skipWhitespace <|
      records_then (records_condition keyword) records_endOfLine

theorem records_prerequisites (kind : NodeKind) : RecordsFrames (prerequisites kind) :=
  records_endsOr _ records_pure (records_then (records_within _ records_words)
    records_skipWhitespace)

theorem records_orderOnly : RecordsFrames orderOnly :=
  records_nextIs _ (records_then records_advance (records_then records_skipWhitespace
    (records_prerequisites _))) records_pure

theorem records_inlineRecipe : RecordsFrames inlineRecipe :=
  records_nextIs _ (records_within _ records_command) records_endOfLine

theorem records_targets : RecordsFrames targets :=
  records_then records_skipLeading <| records_then (records_refuse _ _) <|
    records_then (records_within _ records_words) <| records_then records_skipWhitespace <|
      records_then (records_expect _ _) <| records_then (records_advanceIf _) records_skipWhitespace

theorem records_ruleHeader : RecordsFrames ruleHeader :=
  records_then records_targets <| records_unread_bind fun _ =>
    records_ite (records_then records_assignment records_pure) <|
      records_then (records_prerequisites _) <| records_then records_orderOnly <|
        records_then records_inlineRecipe records_pure

theorem records_body (lines : List Line) : RecordsFrames (body lines) :=
  records_then (records_within _ (records_then (records_fragments _ _ _) (records_build _)))
    (records_build _)

theorem records_definition (lines : List Line) : RecordsFrames (definition lines) := by
  refine records_within _ (records_then records_skipLeading (records_bind records_specifiers ?_))
  intro _
  refine records_then records_advance (records_then records_skipWhitespace ?_)
  refine records_then (records_refuse _ _) (records_then records_expression ?_)
  refine records_then records_skipWhitespace (records_then (records_advanceIf _) ?_)
  refine records_then records_endOfLine ?_
  split
  · exact records_throw _
  · exact records_then (records_body _) <| records_then (records_load _) <|
      records_then records_skipLeading <| records_then records_advance <|
        records_then records_endOfLine records_pure

theorem records_oneLine (lines : List Line) {p : Parser Unit} (hp : RecordsFrames p) :
    RecordsFrames (oneLine lines p) := records_then hp records_pure

theorem records_specified (line : Line) (lines : List Line) :
    RecordsFrames (specified line lines) := by
  refine records_bind (records_specifiersOf _ _) ?_
  rintro ⟨found, after⟩
  refine records_ite (records_definition lines) (records_oneLine lines ?_)
  exact records_ite records_assignment <| records_ite records_exportLine <|
    records_ite (records_failAt _ _) (records_failAt _ _)

theorem records_endif (ctx : Context) : RecordsFrames (endif ctx) :=
  records_unread_bind fun _ => records_ite (records_then records_skipLeading
    (records_then records_advance records_endOfLine)) (records_failAt _ _)

end Line

/-- The rules that run over several lines, on fewer than `n` lines. -/
structure RecordsBelow (n : Nat) : Prop where
  statement : ∀ lines : List Line, lines.length < n → Records Event.IsStep (statement lines)
  otherwise : ∀ ctx (lines : List Line), lines.length < n →
    Records ctx.Allows (otherwise ctx lines)
  recipeItem : ∀ line (lines : List Line), lines.length < n → RecordsFrames (recipeItem line lines)
  branch : ∀ ctx (lines : List Line), lines.length < n → Records ctx.Allows (branch ctx lines)
  recipes : ∀ lines : List Line, lines.length < n → RecordsFrames (recipes lines)

namespace RecordsBelow

variable {lines : List Line}

theorem branch_of (h : RecordsBelow lines.length) (ctx : Context) :
    Records ctx.Allows (Parser.branch ctx lines) := by
  cases lines with
  | nil =>
    unfold Parser.branch
    exact records_throw _
  | cons line lines =>
    unfold Parser.branch
    refine records_then (records_load _) (records_ite records_pure ?_)
    refine records_bind ?_ ?_
    · cases ctx with
      | statements => exact h.statement lines (Nat.lt_succ_self _)
      | recipe => exact h.recipeItem line lines (Nat.lt_succ_self _)
    · rintro ⟨rest, hr⟩
      exact records_bind (h.branch ctx rest (Nat.lt_succ_of_le hr)) fun _ => records_pure

theorem recipes_of (h : RecordsBelow lines.length) : RecordsFrames (Parser.recipes lines) := by
  cases lines with
  | nil =>
    rw [Parser.recipes]
    exact records_pure
  | cons line lines =>
    rw [Parser.recipes]
    refine records_ite (records_then (records_load _) ?_) records_pure
    refine records_bind (h.recipeItem line lines (Nat.lt_succ_self _)) ?_
    rintro ⟨rest, hr⟩
    exact records_bind (h.recipes rest (Nat.lt_succ_of_le hr)) fun _ => records_pure

theorem conditional_of (h : RecordsBelow lines.length) (ctx : Context) :
    Records ctx.Allows (conditional ctx lines) := by
  rw [conditional]
  refine records_within _ (records_then (records_conditionalHeader.allowed ctx) ?_)
  refine records_bind (records_within _ (h.branch_of ctx)) ?_
  rintro ⟨afterThen, hThen⟩
  refine records_unread_bind fun _ => records_ite ?_ ?_
  · refine records_bind (records_within _ (h.otherwise ctx afterThen hThen)) ?_
    rintro ⟨chained, afterElse, hElse⟩
    exact records_then (records_ite records_pure ((records_endif ctx).allowed ctx)) records_pure
  · exact records_then ((records_endif ctx).allowed ctx) records_pure

theorem otherwise_of (h : RecordsBelow lines.length) (ctx : Context) :
    Records ctx.Allows (Parser.otherwise ctx lines) := by
  rw [Parser.otherwise]
  refine records_then records_skipLeading (records_then records_advance ?_)
  refine records_then records_skipWhitespace (records_kind?_bind fun _ => records_ite ?_ ?_)
  · exact records_bind (h.conditional_of ctx) fun _ => records_pure
  · refine records_then (records_endOfLine.allowed ctx) ?_
    exact records_bind (records_within _ (h.branch_of ctx)) fun _ => records_pure

theorem recipeItem_of (h : RecordsBelow lines.length) (line : Line) :
    RecordsFrames (Parser.recipeItem line lines) := by
  rw [Parser.recipeItem]
  split
  · exact records_oneLine lines records_recipeLine
  · exact records_oneLine lines records_blankLine
  · exact records_oneLine lines records_commentLine
  · exact h.conditional_of .recipe
  · exact records_failAt _ _

theorem statement_of (h : RecordsBelow lines.length) :
    Records Event.IsStep (Parser.statement lines) := by
  rw [Parser.statement]
  refine records_unread_bind fun line => ?_
  split
  · exact (records_oneLine lines records_skipLeading).allowed .statements
  · next n ns _ =>
    refine records_then (records_record ?_) ?_
    · intro e he
      exact .inr ⟨n.kind, List.mem_singleton.1 he⟩
    split
    · exact (records_oneLine lines records_blankLine).allowed .statements
    · exact (records_oneLine lines records_commentLine).allowed .statements
    · exact h.conditional_of .statements
    · exact (records_specified _ lines).allowed .statements
    · exact (records_specified _ lines).allowed .statements
    · exact (records_oneLine lines records_includeLine).allowed .statements
    · exact records_failAt _ _
    · split
      · exact (records_within _ (records_bind records_ruleHeader fun _ =>
          records_ite h.recipes_of records_pure)).allowed .statements
      · exact (records_oneLine lines records_assignment).allowed .statements
      · exact records_ite ((records_oneLine lines records_functionLine).allowed .statements)
          (records_failAt _ _)

end RecordsBelow

theorem recordsBelow (n : Nat) : RecordsBelow n := by
  induction n with
  | zero => exact ⟨nofun, nofun, nofun, nofun, nofun⟩
  | succ n ih =>
    have h (lines : List Line) (hl : lines.length < n + 1) : RecordsBelow lines.length := by
      have hle := Nat.le_of_lt_succ hl
      exact ⟨fun ls hs => ih.1 ls (by omega), fun c ls hs => ih.2 c ls (by omega),
        fun l ls hs => ih.3 l ls (by omega), fun c ls hs => ih.4 c ls (by omega),
        fun ls hs => ih.5 ls (by omega)⟩
    exact ⟨fun ls hl => (h ls hl).statement_of, fun c ls hl => (h ls hl).otherwise_of c,
      fun l ls hl => (h ls hl).recipeItem_of l, fun c ls hl => (h ls hl).branch_of c,
      fun ls hl => (h ls hl).recipes_of⟩

theorem records_steps (lines : List Line) : Records Event.IsStep (statements lines) := by
  induction hn : lines.length using Nat.strong_induction_on generalizing lines with
  | _ n ih =>
    cases lines with
    | nil =>
      rw [statements]
      exact records_pure
    | cons line lines =>
      rw [statements]
      refine records_then (records_load line) ?_
      refine records_bind (recordsBelow lines.length).statement_of ?_
      rintro ⟨rest, hr⟩
      rw [List.length_cons] at hn
      exact ih rest.length (by omega) rest rfl

/-- No rule of the grammar records that something was passed over. -/
theorem records_statements (lines : List Line) : Records Event.IsProgress (statements lines) :=
  (records_steps lines).mono fun _ => Event.IsStep.isProgress

end Parser

end MakeTree
