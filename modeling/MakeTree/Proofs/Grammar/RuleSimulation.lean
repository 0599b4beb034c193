import MakeTree.Proofs.Grammar.RuleConsume

/-!
Every rule that stays on one line does the same on lines that are alike. Only in the targets of a
rule does it matter whether a colon comes at once, and only after another colon (`sim_targets`).
-/

namespace MakeTree

namespace Parser

open Likeness

variable {ρ : Likeness} {p : Nest → Bool}

section Basic

theorem sim_move (count : Nat) : Sim ρ Eq (move count) (move count) :=
  sim_unread_bind fun _ _ h => sim_then
    (sim_build (treesOf (List.forall₂_take count h.nests))) (sim_load (h.drop count))

theorem sim_moveWhile (hp : ρ.Blind p) : Sim ρ Eq (moveWhile p) (moveWhile p) := by
  refine sim_unread_bind fun ns ms h => ?_
  rw [(hp.takeWhile h.nests).length_eq]
  exact sim_move _

theorem sim_skipWhitespace : Sim ρ Eq skipWhitespace skipWhitespace :=
  sim_moveWhile blind_isWhitespace

theorem sim_skipLeading : Sim ρ Eq skipLeading skipLeading :=
  sim_moveWhile (blind_kind TokenKind.isLeading)

theorem sim_kind? : Sim ρ Eq kind? kind? :=
  sim_unread_bind fun _ _ h => sim_pure (head?_kind h.nests).symm

theorem sim_nextIs (hp : ρ.Blind p) : Sim ρ Eq (nextIs p) (nextIs p) :=
  sim_unread_bind fun _ _ h => sim_pure (hp.head?_any h.nests).symm

theorem sim_endsOr (hp : ρ.Blind p) : Sim ρ Eq (endsOr p) (endsOr p) :=
  sim_unread_bind fun _ _ h =>
    sim_pure (((blind_isLineBreak.or blind_isComment).or hp).head?_all h.nests).symm

variable {α β γ : Type} {V : α → β → Prop}

theorem sim_cond {c : Parser Bool} {t e : Parser α} {t' e' : Parser β} (hc : Sim ρ Eq c c)
    (ht : Sim ρ V t t') (he : Sim ρ V e e') :
    Sim ρ V (c >>= fun b => if b = true then t else e)
      (c >>= fun b => if b = true then t' else e') := by
  refine sim_bind hc ?_
  rintro b _ rfl
  exact sim_ite Iff.rfl ht he

theorem sim_advanceIf (hp : ρ.Blind p) : Sim ρ Eq (advanceIf p) (advanceIf p) :=
  sim_cond (sim_nextIs hp) (sim_move 1) (sim_pure rfl)

theorem sim_expect (hp : ρ.Blind p) (expected : List Expected) :
    Sim ρ Eq (expect p expected) (expect p expected) :=
  sim_cond (sim_nextIs hp) (sim_move 1) (sim_fail expected)

theorem sim_refuse (hp : ρ.Blind p) (expected : List Expected) :
    Sim ρ Eq (refuse p expected) (refuse p expected) :=
  sim_cond (sim_endsOr hp) (sim_fail expected) (sim_pure rfl)

end Basic

section Expression

theorem sim_fragment (multiline : Bool) :
    (∀ ns ms, ρ.Nests ns ms → Sim ρ Eq (fragment multiline ns) (fragment multiline ms)) ∧
      (∀ count ns ms, ρ.Nests ns ms →
        Sim ρ Eq (fragments multiline count ns) (fragments multiline count ms)) ∧
      ∀ ns ms, ρ.Nests ns ms → Sim ρ Eq (bracketed multiline ns) (bracketed multiline ms) := by
  have breaks {n m : Nest} (hn : ρ.Match n m) :
      (m.isLineBreak && !multiline) = (n.isLineBreak && !multiline) := by
    rw [blind_isLineBreak.eq hn]
  apply fragment.mutual_induct multiline
  case case1 =>
    rintro _ ⟨⟩
    rw [fragment]
    exact sim_failAt .nil _
  case case2 =>
    rintro x ns hk ih _ (_ | ⟨⟨h⟩, hs⟩)
    rw [fragment, fragment, hk, ρ.kind h.token, hk]
    exact sim_then (ih _ hs) (sim_failAt .nil _)
  case case3 =>
    rintro x ns hk _ (_ | ⟨⟨h⟩, -⟩)
    rw [fragment, fragment, hk, ρ.kind h.token, hk]
    exact sim_failAt (.cons (.leaf h) .nil) _
  case case4 =>
    rintro x ns hp hq _ (_ | ⟨⟨h⟩, -⟩)
    have hk := ρ.kind h.token
    rw [fragment_other hp hq, fragment_other (hk ▸ hp) (hk ▸ hq)]
    exact sim_pure rfl
  case case5 =>
    rintro x inside trailing tail ih _ (_ | ⟨hn, -⟩)
    cases hn with
    | quoted h ht hi hv =>
      rw [fragment, fragment, ← hi.length_eq]
      exact sim_then (sim_record _ _) (ih _ hi)
  case case6 =>
    rintro x tail _ (_ | ⟨⟨-, -⟩, -⟩)
    rw [fragment, fragment]
    exact sim_record _ _
  case case7 =>
    rintro opener body closer tail ih _ (_ | ⟨hn, -⟩)
    cases hn with
    | expansion h hb h' =>
      rw [fragment, fragment]
      exact ih _ hb
  case case8 =>
    intro ns ms _
    rw [fragments, fragments]
    exact sim_pure rfl
  case case9 =>
    rintro count _ ⟨⟩
    rw [fragments]
    exact sim_pure rfl
  case case10 =>
    rintro count n ns ih ih' _ (_ | ⟨hn, hs⟩)
    rw [fragments, fragments]
    exact sim_then (ih _ (.cons hn hs)) (ih' _ hs)
  case case11 =>
    rintro _ ⟨⟩
    rw [bracketed]
    exact sim_pure rfl
  case case12 =>
    rintro n ns hb _ (_ | ⟨hn, -⟩)
    rw [bracketed, bracketed, breaks hn, if_pos hb, if_pos hb]
    exact sim_failAt (.cons hn .nil) _
  case case13 =>
    rintro n ns hb ih ih' _ (_ | ⟨hn, hs⟩)
    rw [bracketed, bracketed, breaks hn, if_neg hb, if_neg hb]
    exact sim_then (ih _ (.cons hn hs)) (ih' _ hs)

theorem sim_fragments (multiline : Bool) (count : Nat) {ns ms : List Nest} (h : ρ.Nests ns ms) :
    Sim ρ Eq (fragments multiline count ns) (fragments multiline count ms) :=
  (sim_fragment multiline).2.1 count ns ms h

theorem sim_contents {ns ms : List Nest} (h : ρ.Nests ns ms) :
    Sim ρ Eq (contents ns) (contents ms) := by
  refine sim_unread_bind fun us us' hl => ?_
  rw [h.length_eq]
  exact sim_then (sim_fragments _ _ hl.nests) (sim_build (treesOf h))

theorem sim_expressionOf {ns ms : List Nest} (h : ρ.Nests ns ms) :
    Sim ρ Eq (expressionOf ns) (expressionOf ms) := by
  refine sim_then (sim_within _ (sim_contents h)) (sim_unread_bind fun ls ls' hl => ?_)
  rw [h.length_eq]
  exact sim_load (hl.drop _)

theorem sim_expression (hp : ρ.Blind p) : Sim ρ Eq (expression p) (expression p) :=
  sim_unread_bind fun _ _ h => sim_expressionOf (span hp h.nests)

theorem sim_operand (hp : ρ.Blind p) : Sim ρ Eq (operand p) (operand p) :=
  sim_unread_bind fun _ _ h => sim_expressionOf (trimEnd (takeOperand hp h.nests 0))

theorem sim_quotedOperand : Sim ρ Eq quotedOperand quotedOperand := by
  refine sim_unread_bind fun ns ms h => ?_
  cases h with
  | nil => exact sim_fail _
  | cons hn _ hs =>
    cases hn with
    | leaf h => exact sim_fail _
    | @quoted x y inside inside' _ _ h ht hi hv =>
      have hf : Sim ρ Eq (fragments false inside.length inside)
          (fragments false inside'.length inside') := by
        rw [hi.length_eq]
        exact sim_fragments _ _ hi
      refine sim_then (sim_record _ _) (sim_then hf ?_)
      refine sim_then (sim_build ?_) (sim_load hs)
      exact ρ.append (ρ.append (ρ.append (h.openQuote ht) (ρ.node _ (treesOf hi))) (ρ.passed hv))
        (Lex.closeQuote ht)
    | @raw x y h ht =>
      refine sim_then (sim_record _ _) (sim_then (sim_build ?_) (sim_load hs))
      have hi : y.token.inside.rest = x.token.inside.rest := by
        rw [Token.inside, Token.inside, ht]
      rw [hi]
      exact ρ.append (h.openQuote ht) (ρ.append (ρ.node _ (ρ.plain _)) (Lex.closeQuote ht))
    | expansion h hb h' => exact sim_fail _

theorem sim_forM {f : List Nest → Parser PUnit}
    (hf : ∀ {ns ms}, ρ.Nests ns ms → Sim ρ Eq (f ns) (f ms)) {runs runs' : List (List Nest)}
    (h : List.Forall₂ ρ.Nests runs runs') : Sim ρ Eq (runs.forM f) (runs'.forM f) := by
  induction h with
  | nil => exact sim_pure rfl
  | cons hr _ ih => exact sim_then (hf hr) ih

theorem sim_words (hp : ρ.Blind p) : Sim ρ Eq (words p) (words p) := by
  refine sim_unread_bind fun ns ms h =>
    sim_forM (fun hr => ?_) (wordRuns (span (blind_isComment.or hp) h.nests))
  rw [blind_isWhitespace.all hr, hr.length_eq]
  exact sim_ite Iff.rfl (sim_move _) (sim_expressionOf hr)

end Expression

section Line

theorem sim_endOfLine : Sim ρ Eq endOfLine endOfLine := by
  refine sim_then sim_skipWhitespace (sim_then (sim_advanceIf blind_isComment) ?_)
  refine sim_unread_bind fun ns ms h => ?_
  cases h with
  | nil => exact sim_pure rfl
  | cons _ _ _ => exact sim_expect blind_isLineBreak _

theorem sim_blankLine : Sim ρ Eq blankLine blankLine :=
  sim_within _ (sim_then sim_skipLeading (sim_advanceIf blind_isLineBreak))

theorem sim_commentLine : Sim ρ Eq commentLine commentLine :=
  sim_within _ (sim_then sim_skipLeading sim_endOfLine)

theorem sim_specifiersOf (found : List Specifier) {ns ms : List Nest} (h : ρ.Nests ns ms) :
    Sim ρ (fun r r' => r'.1 = r.1 ∧ ρ.Nests r.2 r'.2) (specifiersOf found ns)
      (specifiersOf found ms) := by
  induction h generalizing found with
  | nil => exact sim_pure ⟨rfl, .nil⟩
  | @cons n m ns ms hn h ih =>
    rw [specifiersOf, specifiersOf, hn.kind, blind_isWhitespace.eq hn]
    cases n.kind.specifier? with
    | some s => exact sim_ite Iff.rfl (sim_failAt (.cons hn h) _) (ih _)
    | none => exact sim_ite Iff.rfl (ih _) (sim_pure ⟨rfl, .cons hn h⟩)

theorem sim_specifiers : Sim ρ Eq specifiers specifiers := by
  refine sim_unread_bind fun ns ms h => sim_bind (sim_specifiersOf [] h.nests) ?_
  rintro ⟨found, rest⟩ ⟨found', rest'⟩ ⟨rfl, -⟩
  exact sim_then (sim_moveWhile (blind_isSpecifier.or blind_isWhitespace)) (sim_pure rfl)

theorem sim_assigned : Sim ρ Eq assigned assigned :=
  sim_then (sim_expression blind_isAssignOp) <| sim_then sim_skipWhitespace <|
    sim_then (sim_expect blind_isAssignOp _) sim_skipWhitespace

theorem sim_assignment : Sim ρ Eq assignment assignment := by
  refine sim_within _ (sim_then sim_skipLeading (sim_bind sim_specifiers ?_))
  rintro found _ rfl
  exact sim_then (sim_refuse blind_isAssignOp _) <|
    sim_then (sim_ite Iff.rfl (sim_pure rfl) sim_assigned) <|
      sim_then (sim_expression blind_isComment) sim_endOfLine

theorem sim_functionLine : Sim ρ Eq functionLine functionLine :=
  sim_within _ (sim_then sim_skipLeading (sim_then (sim_expression blind_isComment) sim_endOfLine))

theorem sim_directiveWords : Sim ρ Eq directiveWords directiveWords :=
  sim_cond (sim_endsOr blind_false) (sim_pure rfl) (sim_words blind_false)

theorem sim_exportLine : Sim ρ Eq exportLine exportLine :=
  sim_within _ <| sim_then sim_skipLeading <| sim_then (sim_move 1) <|
    sim_then sim_skipWhitespace <| sim_then sim_directiveWords sim_endOfLine

theorem sim_includeLine : Sim ρ Eq includeLine includeLine :=
  sim_within _ <| sim_then sim_skipLeading <| sim_then (sim_move 1) <|
    sim_then sim_skipWhitespace <| sim_then (sim_refuse blind_false _) <|
      sim_then sim_directiveWords sim_endOfLine

theorem sim_command : Sim ρ Eq command command :=
  sim_then (sim_move 1) <| sim_then sim_skipWhitespace <| sim_then (sim_expression blind_false) <|
    sim_then sim_skipWhitespace (sim_advanceIf blind_isLineBreak)

theorem sim_recipeLine : Sim ρ Eq recipeLine recipeLine := sim_within _ sim_command

theorem sim_definedName : Sim ρ Eq definedName definedName :=
  sim_then (sim_refuse blind_false _) (sim_expression blind_isWhitespace)

theorem sim_parenthesized : Sim ρ Eq parenthesized parenthesized :=
  sim_then (sim_move 1) <| sim_then sim_skipWhitespace <|
    sim_then (sim_operand ((blind_kind (· == .comma)).or (blind_isText _))) <|
      sim_then sim_skipWhitespace <| sim_then (sim_expect (blind_kind (· == .comma)) _) <|
        sim_then sim_skipWhitespace <| sim_then (sim_operand (blind_isText _)) <|
          sim_then sim_skipWhitespace (sim_expect (blind_isText _) _)

theorem sim_quotedPair : Sim ρ Eq quotedPair quotedPair :=
  sim_then sim_quotedOperand (sim_then sim_skipWhitespace sim_quotedOperand)

theorem sim_condition (keyword : TokenKind) :
    Sim ρ Eq (condition keyword) (condition keyword) :=
  sim_within _ <| sim_ite Iff.rfl sim_definedName <|
    sim_cond (sim_nextIs (blind_isText _)) sim_parenthesized <|
      sim_cond (sim_nextIs (blind_kind (· == .stringLiteral))) sim_quotedPair (sim_fail _)

theorem sim_conditionalHeader : Sim ρ Eq conditionalHeader conditionalHeader := by
  refine sim_then sim_skipLeading (sim_bind sim_kind? ?_)
  rintro keyword _ rfl
  cases keyword with
  | none => exact sim_fail _
  | some keyword =>
    exact sim_then (sim_move 1) <| sim_then sim_skipWhitespace <|
      sim_then (sim_condition keyword) sim_endOfLine

theorem blind_endsPrerequisites : ρ.Blind endsPrerequisites :=
  (blind_isText _).or (blind_isText _)

theorem sim_prerequisites (kind : NodeKind) :
    Sim ρ Eq (prerequisites kind) (prerequisites kind) :=
  sim_cond (sim_endsOr blind_endsPrerequisites) (sim_pure rfl) <|
    sim_then (sim_within _ (sim_words blind_endsPrerequisites)) sim_skipWhitespace

theorem sim_orderOnly : Sim ρ Eq orderOnly orderOnly :=
  sim_cond (sim_nextIs (blind_isText _))
    (sim_then (sim_move 1) (sim_then sim_skipWhitespace (sim_prerequisites _))) (sim_pure rfl)

theorem sim_inlineRecipe : Sim ρ Eq inlineRecipe inlineRecipe :=
  sim_cond (sim_nextIs (blind_isText _)) (sim_within _ sim_command) sim_endOfLine

section Targets

variable {ns : List Nest} {ts : List Tree} {es : List Event} {s : Cursor}

theorem reads_any : Reads fun _ _ _ => True :=
  ⟨fun _ => trivial, fun _ _ => trivial, fun _ _ => trivial, fun _ => trivial, fun _ => trivial,
    fun _ _ _ => trivial, fun _ => trivial⟩

theorem words_unread (h : within .targets (words Nest.isColon) ⟨ns, ts, es⟩ = .ok () s) :
    s.unread = ns.drop (Nest.span (fun n => n.isComment || n.isColon) ns).length := by
  have hw : Consumes _ (words Nest.isColon) ns _ := consumes_words reads_any (k := .targets)
  obtain ⟨_, _, -, -, -, hs⟩ :=
    consumes_within reads_any (k := .root) ⟨by decide, by decide⟩ hw ts es () s h
  exact hs

theorem skipWhitespace_unread (h : skipWhitespace ⟨ns, ts, es⟩ = .ok () s) :
    s.unread = ns.dropWhile Nest.isWhitespace := by
  obtain ⟨_, _, -, -, -, hs⟩ := consumes_skipWhitespace reads_any (k := .root) ts es () s h
  exact hs

theorem expect_unread {q : Nest → Bool} {expected : List Expected}
    (h : expect q expected ⟨ns, ts, es⟩ = .ok () s) : ∃ n, ns = n :: s.unread := by
  cases ns with
  | nil => cases h
  | cons n ns =>
    change (if q n then advance else fail expected) _ = _ at h
    split at h <;> cases h
    exact ⟨n, rfl⟩

theorem head_behind_words (ns : List Nest) :
    ((ns.drop (Nest.span (fun n => n.isComment || n.isColon) ns).length).dropWhile
      Nest.isWhitespace).head?.all endsTargets := by
  rw [Nest.dropWhile_drop_span]
  · have hd := List.head?_dropWhile_not
      (fun n : Nest => !n.isLineBreak && !(n.isComment || n.isColon)) ns
    cases hn : (ns.dropWhile fun n => !n.isLineBreak && !(n.isComment || n.isColon)).head? with
    | none => rfl
    | some n =>
      rw [hn] at hd
      simpa [endsTargets, or_iff_not_imp_left] using hd
  · intro n hn
    simp only [Nest.isWhitespace, Nest.isComment, Nest.isColon, beq_iff_eq] at hn ⊢
    rw [hn]
    rfl

end Targets

theorem sim_targets : Sim ρ Eq targets targets := by
  refine sim_then sim_skipLeading (sim_then (sim_refuse blind_isColon _) fun ns ms hr => ?_)
  refine (sim_within _ (sim_words blind_isColon) ns ms hr).bind
    (Q := fun ls _ => (ls.dropWhile Nest.isWhitespace).head?.all endsTargets) (fun h _ => ?_)
    fun _ _ ls ls' _ hl hq => ?_
  · rw [words_unread h]
    exact head_behind_words ns
  refine (sim_skipWhitespace ls ls' hl).bind (Q := fun ls _ => ls.head?.all endsTargets)
    (fun h _ => ?_) fun _ _ ls ls' _ hl he => ?_
  · rw [skipWhitespace_unread h]
    exact hq
  refine (sim_expect blind_isColon _ ls ls' hl).bind
    (Q := fun ls ls' => colonNext ls' = colonNext ls) (fun h h' => ?_) fun _ _ ls ls' _ hl hc => ?_
  · obtain ⟨n, rfl⟩ := expect_unread h
    obtain ⟨m, rfl⟩ := expect_unread h'
    cases hl with
    | cons _ hc _ => exact hc he
  have hn : SimAt ρ Eq (nextIs fun n => n.isColon && n.first.leading.isEmpty)
      (nextIs fun n => n.isColon && n.first.leading.isEmpty) ls ls' :=
    fun _ _ _ _ => .same hc.symm hl
  have ha : SimAt ρ Eq (advanceIf fun n => n.isColon && n.first.leading.isEmpty)
      (advanceIf fun n => n.isColon && n.first.leading.isEmpty) ls ls' := by
    refine hn.bind (Q := fun _ _ => True) (fun _ _ => trivial) ?_
    rintro b _ ls ls' rfl hl -
    exact sim_ite Iff.rfl (sim_move 1) (sim_pure rfl) ls ls' hl
  exact ha.bind (Q := fun _ _ => True) (fun _ _ => trivial)
    fun _ _ ls ls' _ hl _ => sim_skipWhitespace ls ls' hl

theorem sim_ruleHeader : Sim ρ Eq ruleHeader ruleHeader := by
  refine sim_then sim_targets (sim_unread_bind fun ns ms h => ?_)
  rw [hasAssignOp ((blind_isText [';']).not.takeWhile h.nests)]
  exact sim_ite Iff.rfl (sim_then sim_assignment (sim_pure rfl)) <|
    sim_then (sim_prerequisites _) <| sim_then sim_orderOnly <|
      sim_then sim_inlineRecipe (sim_pure rfl)

end Line

end Parser

end MakeTree
