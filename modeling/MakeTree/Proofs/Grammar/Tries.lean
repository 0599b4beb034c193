import MakeTree.Proofs.Grammar.HeaderBuilds

/-!
Why lines are refused. `Tries P p ns Q` says that `p`, started in front of `ns`, fails only with
errors of which `P` holds, and else leaves nests of which `Q` holds. The nests are sound, unless `P`
holds of the lack of a bracket's partner too (`Fit`).
-/

namespace MakeTree

namespace ParseError

/-- What is said where `ns` are refused at the first of them. -/
def refusal (ns : List Nest) (expected : List Expected) : ParseError :=
  match ns with
  | [] => .unexpectedEnd expected
  | n :: _ => .unexpectedToken n.token expected

@[simp] theorem expected_refusal (ns : List Nest) (es : List Expected) :
    (refusal ns es).expected = es := by
  cases ns <;> rfl

/-- Errors for the two reasons for which any line may be refused. -/
structure Tolerates (P : ParseError → Prop) : Prop where
  /-- an expansion goes on behind the line -/
  crossing : ∀ n : Nest, n.isLineBreak = true → P (.unexpectedToken n.token [.token .expansionSuffix])
  /-- the line goes on behind what it holds -/
  leftover : ∀ n : Nest, n.isLineBreak = false → P (.unexpectedToken n.token [.token .lineBreak])

/-- Errors for the lack of a bracket's partner. -/
def Lenient (P : ParseError → Prop) : Prop := ∀ e, Unreadable e → P e

/-- For the lack of what a test is malformed. -/
def lacks : List (List Expected) :=
  [[.variableName], [.token .comma], [.closeParen], [.token .stringLiteral],
    [.openParen, .token .stringLiteral]]

end ParseError

namespace Nest

/-- `ms` are left of `ns`, up to the same line break. -/
def Behind (ns ms : List Nest) : Prop := ∃ us, ns = us ++ ms ∧ ∀ n ∈ us, n.isLineBreak = false

theorem not_isLineBreak_of_isText {n : Nest} {t : Text} (h : n.isText t = true) :
    n.isLineBreak = false := by
  simp [isLineBreak, kind_of_isText h]

namespace Behind

variable {ns ms ls : List Nest}

theorem refl (ns : List Nest) : Behind ns ns := ⟨[], rfl, nofun⟩

theorem trans (h : Behind ns ms) (h' : Behind ms ls) : Behind ns ls := by
  obtain ⟨us, rfl, hu⟩ := h
  obtain ⟨vs, rfl, hv⟩ := h'
  refine ⟨us ++ vs, (List.append_assoc us vs ls).symm, fun n hn => ?_⟩
  exact (List.mem_append.1 hn).elim (hu n) (hv n)

theorem cons {n : Nest} (h : n.isLineBreak = false) (ns : List Nest) : Behind (n :: ns) ns :=
  ⟨[n], rfl, fun _ hm => List.mem_singleton.1 hm ▸ h⟩

theorem drop {us : List Nest} (h : us <+: ns) (hu : ∀ n ∈ us, n.isLineBreak = false) :
    Behind ns (ns.drop us.length) :=
  ⟨us, (List.prefix_iff_eq_append.1 h).symm, hu⟩

theorem dropWhile {q : Nest → Bool} (hq : ∀ n, q n = true → n.isLineBreak = false)
    (ns : List Nest) : Behind ns (ns.dropWhile q) :=
  ⟨ns.takeWhile q, List.takeWhile_append_dropWhile.symm,
    fun n hn => hq n (List.mem_takeWhile_imp hn)⟩

theorem skipWhitespace (ns : List Nest) : Behind ns (ns.dropWhile isWhitespace) :=
  dropWhile (fun n hn => by simp_all [isWhitespace, isLineBreak]) ns

theorem afterLeading (ns : List Nest) : Behind ns (Line.afterLeading ns) :=
  dropWhile (fun n hn => by
    rw [isLineBreak, beq_eq_false_iff_ne]
    rintro hk
    rw [hk] at hn
    cases hn) ns

theorem operand (stop : Nest → Bool) (ns : List Nest) :
    Behind ns (ns.drop (trimEnd (takeOperand stop 0 ns)).length) :=
  drop ((trimEnd_isPrefix _).trans (takeOperand_isPrefix stop 0 ns)) fun _ hn =>
    mem_takeOperand_imp ((trimEnd_isPrefix _).subset hn)

theorem sound (h : Behind ns ms) (hs : SoundAll ns) : SoundAll ms := by
  obtain ⟨us, rfl, -⟩ := h
  exact (soundAll_append.1 hs).2

end Behind

end Nest

namespace Parser

variable {α β : Type}

/-- Nests in which no bracket lacks its partner, if `P` does not allow for that. -/
def Fit (P : ParseError → Prop) (ns : List Nest) : Prop := Nest.SoundAll ns ∨ ParseError.Lenient P

theorem Fit.subset {P : ParseError → Prop} {ms ns : List Nest} (h : Fit P ns) (hs : ms ⊆ ns) :
    Fit P ms := h.imp_left fun h => Nest.soundAll_of_subset h hs

/-- What comes of a run: an error of which `P` holds, or nests left of which `Q` holds. -/
def Comes (P : ParseError → Prop) (Q : α → List Nest → Prop) :
    EStateM.Result ParseError Cursor α → Prop
  | .ok a s => Q a s.unread ∧ Fit P s.unread
  | .error e _ => P e

def Tries (P : ParseError → Prop) (p : Parser α) (ns : List Nest) (Q : α → List Nest → Prop) :
    Prop := Fit P ns → ∀ outer es, Comes P Q (p ⟨ns, outer, es⟩)

section Tries

variable {P : ParseError → Prop} {p : Parser α} {f : α → Parser β} {ns : List Nest}
  {Q : α → List Nest → Prop} {W : β → List Nest → Prop}

theorem Tries.mono {Q' : α → List Nest → Prop} (h : Tries P p ns Q)
    (hQ : ∀ a ms, Q a ms → Q' a ms) : Tries P p ns Q' := by
  intro hs outer es
  have hp := h hs outer es
  cases hr : p ⟨ns, outer, es⟩ with
  | ok a s =>
    rw [hr] at hp
    exact ⟨hQ a s.unread hp.1, hp.2⟩
  | error e s => rwa [hr] at hp

theorem Tries.weaken {P' : ParseError → Prop} (h : Tries P p ns Q) (hl : ParseError.Lenient P)
    (hP : ∀ e, P e → P' e) : Tries P' p ns Q := by
  intro _ outer es
  have hp := h (.inr hl) outer es
  cases hr : p ⟨ns, outer, es⟩ with
  | ok a s =>
    rw [hr] at hp
    exact ⟨hp.1, .inr fun e he => hP e (hl e he)⟩
  | error e s => exact hP e (by rwa [hr] at hp)

theorem Tries.of_eq {q : Parser α} (h : Tries P q ns Q)
    (he : ∀ outer es, ∃ es', p ⟨ns, outer, es⟩ = q ⟨ns, outer, es'⟩) : Tries P p ns Q := by
  intro hs outer es
  obtain ⟨es', he⟩ := he outer es
  rw [he]
  exact h hs outer es'

theorem tries_pure {a : α} (h : Q a ns) : Tries P (pure a) ns Q := fun hs _ _ => ⟨h, hs⟩

theorem tries_bind (hp : Tries P p ns Q) (hf : ∀ a ms, Q a ms → Tries P (f a) ms W) :
    Tries P (p >>= f) ns W := by
  intro hs outer es
  have hp := hp hs outer es
  show Comes P W (EStateM.bind p f _)
  rw [EStateM.bind]
  cases hr : p ⟨ns, outer, es⟩ with
  | ok a s =>
    rw [hr] at hp
    exact hf a s.unread hp.1 hp.2 s.built s.events
  | error e s => rwa [hr] at hp

theorem tries_within (k : NodeKind) (h : Tries P p ns Q) : Tries P (within k p) ns Q := by
  intro hs outer es
  have hp := h hs [] es
  rw [within_eq]
  cases hr : p ⟨ns, [], es⟩ with
  | ok a s => rwa [hr] at hp
  | error e s => rwa [hr] at hp

theorem tries_ite {c : Prop} [Decidable c] {q : Parser α} (h : c → Tries P p ns Q)
    (h' : ¬ c → Tries P q ns Q) : Tries P (if c then p else q) ns Q := by
  by_cases hc : c
  · rw [if_pos hc]
    exact h hc
  · rw [if_neg hc]
    exact h' hc

theorem tries_unread_bind {f : List Nest → Parser β} (h : Tries P (f ns) ns W) :
    Tries P (unread >>= f) ns W := h

theorem tries_kind?_bind {f : Option TokenKind → Parser β}
    (h : Tries P (f (ns.head?.map Nest.kind)) ns W) : Tries P (kind? >>= f) ns W := h

theorem tries_nextIs_bind {q : Nest → Bool} {f : Bool → Parser β}
    (h : Tries P (f (ns.head?.any q)) ns W) : Tries P (nextIs q >>= f) ns W := h

theorem tries_endsOr_bind {q : Nest → Bool} {f : Bool → Parser β}
    (h : Tries P (f (ns.head?.all fun n => n.isLineBreak || n.isComment || q n)) ns W) :
    Tries P (endsOr q >>= f) ns W := h

theorem tries_failAt {ms : List Nest} {expected : List Expected} (h : P (.refusal ms expected)) :
    Tries P (failAt ms expected) ns Q := fun _ _ _ => h

theorem tries_fail {expected : List Expected} (h : P (.refusal ns expected)) :
    Tries P (fail expected) ns Q := fun _ _ _ => h

theorem tries_load {line : List Nest} (hs : Fit P line) :
    Tries P (load line) ns fun _ ms => ms = line := fun _ _ _ => ⟨rfl, hs⟩

theorem tries_move (count : Nat) : Tries P (move count) ns fun _ ms => ms = ns.drop count :=
  fun hs _ _ => ⟨rfl, hs.subset (List.drop_subset _ _)⟩

theorem tries_moveWhile (q : Nest → Bool) :
    Tries P (moveWhile q) ns fun _ ms => ms = ns.dropWhile q := by
  have h : (ns.takeWhile q ++ ns.dropWhile q).drop (ns.takeWhile q).length = ns.dropWhile q :=
    List.drop_left
  rw [List.takeWhile_append_dropWhile] at h
  exact tries_unread_bind ((tries_move _).mono fun _ _ hm => hm.trans h)

theorem tries_skipWhitespace :
    Tries P skipWhitespace ns fun _ ms => ms = ns.dropWhile Nest.isWhitespace :=
  tries_moveWhile _

theorem tries_skipLeading : Tries P skipLeading ns fun _ ms => ms = Line.afterLeading ns :=
  tries_moveWhile _

theorem tries_advance : Tries P advance ns fun _ ms => ms = ns.tail :=
  (tries_move 1).mono fun _ _ hm => hm.trans List.drop_one

theorem tries_advanceIf (q : Nest → Bool) : Tries P (advanceIf q) ns fun _ ms =>
    (∃ n, q n = true ∧ ns = n :: ms) ∨ ns.head?.any q = false ∧ ms = ns := by
  refine tries_nextIs_bind (tries_ite (fun h => ?_) fun h => tries_pure (.inr ⟨by simpa using h, rfl⟩))
  cases ns with
  | nil => cases h
  | cons n ns =>
    refine tries_advance.mono ?_
    rintro _ ms rfl
    exact .inl ⟨n, h, rfl⟩

theorem tries_expect {q : Nest → Bool} {expected : List Expected}
    (h : ns.head?.any q = false → P (.refusal ns expected)) :
    Tries P (expect q expected) ns fun _ ms => ∃ n, q n = true ∧ ns = n :: ms := by
  refine tries_nextIs_bind (tries_ite (fun hq => ?_) fun hq => tries_fail (h (by simpa using hq)))
  cases ns with
  | nil => cases hq
  | cons n ns =>
    refine tries_advance.mono ?_
    rintro _ ms rfl
    exact ⟨n, hq, rfl⟩

theorem behind_skipWhitespace : Tries P skipWhitespace ns fun _ ms => Nest.Behind ns ms := by
  refine tries_skipWhitespace.mono ?_
  rintro _ ms rfl
  exact .skipWhitespace ns

theorem behind_expect {q : Nest → Bool} (hq : ∀ n, q n = true → n.isLineBreak = false)
    {expected : List Expected} (h : P (.refusal ns expected)) :
    Tries P (expect q expected) ns fun _ ms => Nest.Behind ns ms := by
  refine (tries_expect fun _ => h).mono ?_
  rintro _ ms ⟨n, hn, rfl⟩
  exact .cons (hq n hn) ms

theorem tries_refuse {q : Nest → Bool} {expected : List Expected} (h : P (.refusal ns expected)) :
    Tries P (refuse q expected) ns fun _ ms => ms = ns :=
  tries_endsOr_bind (tries_ite (fun _ => tries_fail h) fun _ => tries_pure rfl)

end Tries

section Shared

variable {P : ParseError → Prop} (hP : ParseError.Tolerates P) {ns : List Nest}

include hP

theorem tries_contents (us : List Nest) : Tries P (contents us) ns fun _ ms => ms = ns := by
  intro hs outer es
  cases hr : contents us ⟨ns, outer, es⟩ with
  | ok a s =>
    obtain ⟨-, hu, -⟩ := contents_ok hr
    exact ⟨hu, hu ▸ hs⟩
  | error e s =>
    obtain ⟨he, hcross⟩ := contents_error hr
    rcases hs with hs | hl
    · obtain ⟨-, -, hl⟩ := hcross hs
      exact hP.crossing _ hl
    · exact hl e he

theorem tries_expressionOf (us : List Nest) :
    Tries P (expressionOf us) ns fun _ ms => ms = ns.drop us.length := by
  refine tries_bind (tries_within _ (tries_contents hP us)) ?_
  rintro _ ms rfl
  exact fun hs => tries_load (hs.subset (List.drop_subset _ _)) hs

theorem tries_expression (stop : Nest → Bool) :
    Tries P (expression stop) ns fun _ ms => ms = ns.drop (Nest.span stop ns).length :=
  tries_unread_bind (tries_expressionOf hP _)

theorem tries_operand (stop : Nest → Bool) : Tries P (operand stop) ns fun _ ms =>
    ms = ns.drop (Nest.trimEnd (Nest.takeOperand stop 0 ns)).length :=
  tries_unread_bind (tries_expressionOf hP _)

theorem behind_operand (stop : Nest → Bool) :
    Tries P (operand stop) ns fun _ ms => Nest.Behind ns ms := by
  refine (tries_operand hP stop).mono ?_
  rintro _ ms rfl
  exact .operand stop ns

theorem tries_runs (runs : List (List Nest)) (ms : List Nest) :
    Tries P (runs.forM fun run : List Nest =>
      if run.all Nest.isWhitespace then move run.length else expressionOf run)
      (runs.flatten ++ ms) fun _ ls => ls = ms := by
  induction runs with
  | nil => exact tries_pure rfl
  | cons run runs ih =>
    have h : Tries P (if run.all Nest.isWhitespace then move run.length else expressionOf run)
        (run ++ (runs.flatten ++ ms)) fun _ ls => ls = runs.flatten ++ ms := by
      refine tries_ite (fun _ => ?_) fun _ => ?_
      · exact (tries_move _).mono fun _ _ hls => hls.trans List.drop_left
      exact (tries_expressionOf hP run).mono fun _ _ hls => hls.trans List.drop_left
    rw [List.flatten_cons, List.append_assoc]
    refine tries_bind h ?_
    rintro _ ls rfl
    exact ih

theorem tries_words (q : Nest → Bool) : Tries P (words q) ns fun _ ms =>
    ms = ns.drop (Nest.span (fun n => n.isComment || q n) ns).length := by
  refine tries_unread_bind ?_
  have h := tries_runs hP (Nest.wordRuns (Nest.span (fun n => n.isComment || q n) ns))
    (ns.drop (Nest.span (fun n => n.isComment || q n) ns).length)
  rwa [Nest.wordRuns, List.flatten_splitBy, List.prefix_iff_eq_append.1 (Nest.span_isPrefix _ ns)]
    at h

theorem tries_endOfLine : Tries P endOfLine ns fun _ _ => True := by
  refine tries_bind tries_skipWhitespace fun _ ms _ => ?_
  refine tries_bind (tries_advanceIf _) fun _ ls _ => ?_
  refine tries_unread_bind ?_
  cases ls with
  | nil => exact tries_pure trivial
  | cons n ls =>
    have h : (n :: ls).head?.any Nest.isLineBreak = false →
        P (.refusal (n :: ls) [.token .lineBreak]) := hP.leftover n
    exact (tries_expect h).mono fun _ _ _ => trivial

omit hP in
theorem tries_blankLine : Tries P blankLine ns fun _ _ => True :=
  tries_within _ (tries_bind tries_skipLeading fun _ _ _ =>
    (tries_advanceIf _).mono fun _ _ _ => trivial)

theorem tries_command : Tries P command ns fun _ _ => True := by
  refine tries_bind tries_advance fun _ _ _ => ?_
  refine tries_bind tries_skipWhitespace fun _ _ _ => ?_
  refine tries_bind (tries_expression hP _) fun _ _ _ => ?_
  refine tries_bind tries_skipWhitespace fun _ _ _ => ?_
  exact (tries_advanceIf _).mono fun _ _ _ => trivial

omit hP in
theorem tries_endOfLine_of_isDone (hd : Line.isDone ns = true)
    (hc : ∀ n ls, ns.dropWhile Nest.isWhitespace = n :: ls → n.isComment = true →
      ls.head?.all Nest.isLineBreak = true) : Tries P endOfLine ns fun _ _ => True := by
  refine tries_bind tries_skipWhitespace ?_
  rintro _ ms rfl
  refine tries_bind (tries_advanceIf _) fun _ ms hms => tries_unread_bind ?_
  have hl : ms.head?.all Nest.isLineBreak = true := by
    obtain ⟨n, hn, he⟩ | ⟨hn, rfl⟩ := hms
    · exact hc n ms he hn
    · rw [Line.isDone] at hd
      cases hw : ns.dropWhile Nest.isWhitespace with
      | nil => rfl
      | cons n ls =>
        rw [hw] at hd hn
        simpa [show n.isComment = false from hn] using hd
  cases ms with
  | nil => exact tries_pure trivial
  | cons l ls =>
    have h : (l :: ls).head?.any Nest.isLineBreak = false →
        P (.refusal (l :: ls) [.token .lineBreak]) := fun hb => absurd (hl.symm.trans hb) nofun
    exact (tries_expect h).mono fun _ _ _ => trivial

omit hP in
theorem tries_comment {n : Nest} {ls : List Nest} (hn : Line.afterLeading ns = n :: ls)
    (hc : n.isComment = true) (hl : ls.head?.all Nest.isLineBreak = true) :
    Tries P commentLine ns fun _ _ => True := by
  have hk : n.kind = .comment := by simpa [Nest.isComment] using hc
  have hd : (n :: ls).dropWhile Nest.isWhitespace = n :: ls :=
    List.dropWhile_cons_of_neg (by simp [Nest.isWhitespace, hk])
  refine tries_within _ (tries_bind tries_skipLeading ?_)
  rintro _ ms rfl
  rw [hn]
  refine tries_endOfLine_of_isDone ?_ fun m ms he _ => ?_
  · rw [Line.isDone, hd]
    simp [hc]
  · obtain ⟨-, rfl⟩ := List.cons.inj (hd.symm.trans he)
    exact hl

theorem tries_commentLine : Tries P commentLine ns fun _ _ => True :=
  tries_within _ (tries_bind tries_skipLeading fun _ _ _ => tries_endOfLine hP)

theorem tries_functionLine : Tries P functionLine ns fun _ _ => True := by
  refine tries_within _ (tries_bind tries_skipLeading fun _ _ _ => ?_)
  exact tries_bind (tries_expression hP _) fun _ _ _ => tries_endOfLine hP

theorem tries_directiveWords : Tries P directiveWords ns fun _ _ => True :=
  tries_endsOr_bind (tries_ite (fun _ => tries_pure trivial) fun _ =>
    (tries_words hP _).mono fun _ _ _ => trivial)

theorem tries_exportLine : Tries P exportLine ns fun _ _ => True := by
  refine tries_within _ (tries_bind tries_skipLeading fun _ _ _ => ?_)
  refine tries_bind tries_advance fun _ _ _ => ?_
  refine tries_bind tries_skipWhitespace fun _ _ _ => ?_
  exact tries_bind (tries_directiveWords hP) fun _ _ _ => tries_endOfLine hP

theorem tries_endif {ctx : Context} (h : ctx.closing? ns ≠ some .endif →
      P (.refusal (Line.afterLeading ns) [.token (.keyword .endif)])) :
    Tries P (endif ctx) ns fun _ _ => True := by
  refine tries_unread_bind (tries_ite (fun _ => ?_) fun hc => tries_failAt (h hc))
  refine tries_bind tries_skipLeading fun _ _ _ => ?_
  exact tries_bind tries_advance fun _ _ _ => tries_endOfLine hP

end Shared

section Test

variable {P : ParseError → Prop} (hP : ParseError.Tolerates P) {ns : List Nest}
  (hm : ∀ ms, Nest.Behind ns ms → ∀ es ∈ ParseError.lacks, P (.refusal ms es))

include hP hm

theorem tries_definedName : Tries P definedName ns fun _ _ => True :=
  tries_bind (tries_refuse (hm ns (.refl ns) _ (by decide))) fun _ _ _ =>
    (tries_expression hP _).mono fun _ _ _ => trivial

theorem tries_parenthesized (h : ns.head?.any (·.isText ['(']) = true) :
    Tries P parenthesized ns fun _ _ => True := by
  have hb : Nest.Behind ns ns.tail := by
    cases ns with
    | nil => cases h
    | cons n ns => exact .cons (Nest.not_isLineBreak_of_isText h) ns
  refine tries_bind tries_advance ?_
  rintro _ ms rfl
  refine tries_bind behind_skipWhitespace fun _ ms h₁ => ?_
  refine tries_bind (behind_operand hP _) fun _ ms h₂ => ?_
  refine tries_bind behind_skipWhitespace fun _ ms h₃ => ?_
  have hb := (hb.trans h₁).trans (h₂.trans h₃)
  refine tries_bind (behind_expect (fun n hn => ?_) (hm ms hb _ (by decide))) fun _ ms h₄ => ?_
  · simp_all [Nest.isLineBreak]
  refine tries_bind behind_skipWhitespace fun _ ms h₅ => ?_
  refine tries_bind (behind_operand hP _) fun _ ms h₆ => ?_
  refine tries_bind behind_skipWhitespace fun _ ms h₇ => ?_
  have hb := (hb.trans h₄).trans ((h₅.trans h₆).trans h₇)
  exact (tries_expect fun _ => hm ms hb _ (by decide)).mono fun _ _ _ => trivial

omit hP in
theorem tries_quotedOperand (hs : Nest.SoundAll ns) :
    Tries P quotedOperand ns fun _ ms => Nest.Behind ns ms := by
  have hf : Tries P (fail [.token .stringLiteral]) ns fun (_ : Unit) ms => Nest.Behind ns ms :=
    tries_fail (hm ns (.refl ns) _ (by decide))
  match ns with
  | .quoted x inside trailing :: ns =>
    intro hfit outer es
    have hk : (Nest.quoted x inside trailing).kind = .stringLiteral := hs.1.2.1
    obtain ⟨es', hr⟩ := quotedOperand_ok x trailing hs.1.2.2.1 hs.1.2.2.2 ns outer es
    rw [hr]
    exact ⟨.cons (by simp [Nest.isLineBreak, hk]) ns, hfit.subset (List.subset_cons_self _ _)⟩
  | .raw x :: ns =>
    intro hfit outer es
    have hk : (Nest.raw x).kind = .stringLiteral := hs.1.2
    exact ⟨.cons (by simp [Nest.isLineBreak, hk]) ns, hfit.subset (List.subset_cons_self _ _)⟩
  | .leaf x :: ns => exact hf
  | .expansion opener body closer :: ns => exact hf
  | [] => exact hf

omit hP in
theorem tries_quotedPair (hs : Nest.SoundAll ns) : Tries P quotedPair ns fun _ _ => True := by
  refine tries_bind (tries_quotedOperand hm hs) fun _ ms h₁ => ?_
  refine tries_bind behind_skipWhitespace fun _ ms h₂ => ?_
  have hb := h₁.trans h₂
  exact (tries_quotedOperand (fun ls hl => hm ls (hb.trans hl)) (hb.sound hs)).mono
    fun _ _ _ => trivial

theorem tries_condition (hs : Nest.SoundAll ns) (keyword : TokenKind) :
    Tries P (condition keyword) ns fun _ _ => True := by
  refine tries_within _ (tries_ite (fun _ => tries_definedName hP hm) fun _ => ?_)
  refine tries_nextIs_bind (tries_ite (fun h => tries_parenthesized hP hm h) fun _ => ?_)
  exact tries_nextIs_bind (tries_ite (fun _ => tries_quotedPair hm hs) fun _ =>
    tries_fail (hm ns (.refl ns) _ (by decide)))

theorem tries_conditionalHeader (hs : Nest.SoundAll ns) {k : Keyword}
    (hk : (Line.afterLeading ns).head?.map Nest.kind = some (.keyword k)) :
    Tries P conditionalHeader ns fun _ _ => True := by
  refine tries_bind tries_skipLeading ?_
  rintro _ ms rfl
  refine tries_kind?_bind ?_
  rw [hk]
  have hb : Nest.Behind ns (Line.afterLeading ns).tail := by
    cases ha : Line.afterLeading ns with
    | nil => simp [ha] at hk
    | cons n ls =>
      have hn : n.kind = .keyword k := by simpa [ha] using hk
      exact (ha ▸ .afterLeading ns : Nest.Behind ns (n :: ls)).trans
        (.cons (by simp [Nest.isLineBreak, hn]) ls)
  refine tries_bind tries_advance ?_
  rintro _ ms rfl
  refine tries_bind behind_skipWhitespace fun _ ms hw => ?_
  have hb := hb.trans hw
  exact tries_bind (tries_condition hP (fun ls hl => hm ls (hb.trans hl)) (hb.sound hs) _)
    fun _ _ _ => tries_endOfLine hP

end Test

end Parser

end MakeTree
