import MakeTree.Proofs.Grammar.Enclosed

/-!
Why a parser fails. Within a conditional of a recipe it is for one of four reasons (`Raises.fault`).
Anywhere, it is not for the lack of what was looked for before (`Raises.unforeseen`), but for an
operator behind specifiers, which is not looked for.
-/

namespace MakeTree

/-- Why a line of a conditional in a recipe is refused. -/
inductive Fault : ParseError → Prop
  /-- the test is malformed -/
  | test (t : Token) {es : List Expected} (h : es ∈ ParseError.lacks) : Fault (.unexpectedToken t es)
  /-- something is left of the line behind what it holds -/
  | leftover {t : Token} (h : t.kind ≠ .lineBreak) :
      Fault (.unexpectedToken t [.token .lineBreak])
  /-- the line ends within an expansion -/
  | crossing {t : Token} (h : t.kind = .lineBreak) :
      Fault (.unexpectedToken t [.token .expansionSuffix])
  /-- an `else` comes where only an `endif` may -/
  | secondElse {t : Token} (h : t.kind = .keyword .otherwise) :
      Fault (.unexpectedToken t [.token (.keyword .endif)])

namespace Fault

variable {e : ParseError}

theorem tolerates : ParseError.Tolerates Fault where
  crossing n h := .crossing (by simpa [Nest.isLineBreak, Nest.kind] using h)
  leftover n h := .leftover (by simpa [Nest.isLineBreak, Nest.kind] using h)

theorem position?_isSome (h : Fault e) : e.position?.isSome = true := by
  cases h <;> rfl

theorem unforeseen (h : Fault e) : e.Unforeseen := by
  cases h with
  | test t h =>
    have hd : ∀ es ∈ ParseError.lacks, es ∉ ParseError.foreseen := by decide
    exact hd _ h
  | leftover _ =>
    have hd : [.token .lineBreak] ∉ ParseError.foreseen := by decide
    exact ParseError.unforeseen_refusal hd []
  | crossing _ =>
    have hd : [.token .expansionSuffix] ∉ ParseError.foreseen := by decide
    exact ParseError.unforeseen_refusal hd []
  | secondElse _ =>
    have hd : [.token (.keyword .endif)] ∉ ParseError.foreseen := by decide
    exact ParseError.unforeseen_refusal hd []

end Fault

namespace Nest

theorem Behind.ne_nil {ns ms : List Nest} (h : Behind ns ms) (hb : Line.Breaks ns) : ms ≠ [] := by
  obtain ⟨us, rfl, hu⟩ := h
  rintro rfl
  obtain ⟨n, hn, hk⟩ := hb
  rw [List.append_nil] at hn
  exact absurd (hu n hn) (by simp [isLineBreak, hk])

end Nest

namespace Parser

open LineKind ParseError

theorem Tries.fails {α : Type} {P : ParseError → Prop} {p : Parser α} {ns : List Nest}
    {Q : α → List Nest → Prop} {e : ParseError} (h : Tries P p ns Q) (hfit : Fit P ns)
    (hf : Fails p ns e) : P e := by
  obtain ⟨s, hf⟩ := hf [] []
  have hp := h hfit [] []
  rwa [hf] at hp

section Recipe

variable {line : Line} {lines : List Line} {ctx : Context}

theorem tries_item (h : Line.Lexed (line :: lines)) (hi : IsItem (ofLine line)) :
    Tries Fault (recipeItem line lines) line fun _ _ => True := by
  rw [recipeItem]
  rcases hi with hk | hk | hk
  · rw [hk]
    exact tries_oneLine lines (tries_within _ (tries_command Fault.tolerates))
  · rw [hk]
    exact tries_oneLine lines tries_blankLine
  · rw [hk]
    cases ha : Line.afterLeading line with
    | nil => simpa [ha] using head_of_comment hk
    | cons n ns =>
      obtain ⟨-, hc, hends⟩ := h.head.afterLeading
      have hn : n.isComment = true := by simpa [ha] using head_of_comment hk
      rw [ha] at hc hends
      exact tries_oneLine lines
        (tries_comment ha hn (hends.head (Nest.eq_leaf_of_isComment hc.1 hn) hn))

theorem tries_header (h : Line.Lexed (line :: lines)) (hc : line.IsConditional)
    (ho : Opens (ofLines (line :: lines))) :
    Tries Fault conditionalHeader line fun _ _ => True := by
  obtain ⟨c, hk⟩ := hc
  have hb : line.Breaks := by
    obtain ⟨hl, -⟩ | ⟨-, hnil⟩ := Line.cut_cons.1 h.cut
    · exact hl.breaks
    · exact absurd hnil (ho.ne_nil h)
  refine tries_conditionalHeader Fault.tolerates (fun ms hm es hes => ?_) h.sound_head hk
  obtain ⟨n, ns, rfl⟩ := List.exists_cons_of_ne_nil (hm.ne_nil hb)
  exact .test n.token hes

theorem tries_end (h : (ctx.closing? line).isSome = true) :
    Tries Fault (endif ctx) line fun _ _ => True := by
  refine tries_endif Fault.tolerates fun hn => ?_
  obtain ⟨k, hk⟩ := Option.isSome_iff_exists.1 h
  have hhead := Context.kind_of_closing? hk
  have hk' : k = .otherwise := by
    have hor : k = .otherwise ∨ k = .endif := by
      cases ctx <;> exact (Context.closer?_eq_some hk).2
    exact hor.resolve_right fun he => hn (he ▸ hk)
  subst hk'
  cases ha : Line.afterLeading line with
  | nil => simp [ha] at hhead
  | cons n ns => exact .secondElse (by simpa [ha, Nest.kind] using hhead)

end Recipe

section Raises

variable {task : Task} {lines file : List Line} {e : ParseError}

theorem fit_of_suffix {P : ParseError → Prop} {line : Line} (hl : Line.Lexed file)
    (hs : line :: lines <:+ file) : Fit P line := .inl (hl.suffix hs).sound_head

theorem fit_of_on {P : ParseError → Prop} {ctx : Context} {line : Line} (hl : Line.Lexed file)
    (ho : (Task.conditional ctx line).On file lines) : Fit P line := .inl (lexed_of_on hl ho).sound_head

/-- What fails by itself in a recipe is a line, for one of four reasons. -/
theorem Raises.fault (hl : Line.Lexed file) (h : Raises task lines e) (ho : task.On file lines)
    (hr : task.InRecipe) (he : task.Enclosed lines) : Fault e := by
  cases h with
  | statement _ _ _ => cases hr
  | ruleHeader _ _ => cases hr
  | @item line _ _ hk h =>
    have hx := hl.suffix ho
    refine (tries_item hx (he.resolve_right fun hopen => ?_)).fails (fit_of_suffix hl ho) h
    obtain ⟨c, ks, hks, -⟩ := hopen
    obtain ⟨ks', hks'⟩ := ofLines_cons hx.cut hx.closed
    exact hk c (List.cons.inj (hks'.symm.trans hks)).1
  | @header ctx line _ _ h =>
    cases ctx with
    | statements => cases hr
    | recipe => exact (tries_header (lexed_of_on hl ho) ho.1 he).fails (fit_of_on hl ho) h
  | endif _ h => exact (tries_end ho.1).fails (fit_of_suffix hl ho.2) h
  | elseLine _ _ _ h =>
    have hfit := fit_of_suffix (P := Fault) hl ho.2
    exact (tries_endOfLine Fault.tolerates).fails (hfit.subset (List.subset_append_right _ _)) h
  | elseEndif _ _ _ _ hb h =>
    have hsuffix := hb.suffix.trans ((List.suffix_cons _ _).trans ho.2)
    exact (tries_end hb.closing?_isSome).fails (fit_of_suffix hl hsuffix) h
  | @branch ctx =>
    cases ctx with
    | statements => cases hr
    | recipe => exact absurd he Closes.not_nil

/-- No parser fails for the lack of what it has looked for, but for an assignment operator behind
specifiers, where none was seen. -/
theorem Raises.unforeseen (hl : Line.Lexed file) (h : Raises task lines e) (ho : task.On file lines)
    (he : task.Enclosed lines) : e.Unforeseen ∨ ∃ line, task = .statement line ∧
      e.expected = [.token .assignOp] ∧ line.LacksOperator := by
  cases h with
  | @statement line _ _ hr hc h =>
    have htries := (tries_statement lines hr hc).fails (fit_of_suffix hl ho) h
    exact htries.imp_right fun h => ⟨line, rfl, h⟩
  | ruleHeader hr h => exact .inl ((tries_ruleHeader hr).fails (fit_of_suffix hl ho) h)
  | item hk h => exact .inl (Raises.fault hl (.item hk h) ho trivial he).unforeseen
  | @header ctx line _ _ h =>
    obtain ⟨c, hk⟩ := ho.1
    have hd : ∀ es ∈ lacks, es ∉ foreseen := by decide
    exact .inl ((tries_conditionalHeader tolerates_unforeseen
      (fun ms _ es hes => unforeseen_refusal (hd es hes) ms) (lexed_of_on hl ho).sound_head hk).fails
      (fit_of_on hl ho) h)
  | endif _ h => exact .inl ((tries_end ho.1).fails (fit_of_suffix hl ho.2) h).unforeseen
  | elseLine _ _ _ h =>
    exact .inl ((tries_endOfLine tolerates_unforeseen).fails (.inr lenient_unforeseen) h)
  | elseEndif _ _ _ _ hb h =>
    have hsuffix := hb.suffix.trans ((List.suffix_cons _ _).trans ho.2)
    exact .inl ((tries_end hb.closing?_isSome).fails (fit_of_suffix hl hsuffix) h).unforeseen
  | branch => exact .inl (unforeseen_refusal (by decide) [])

end Raises

end Parser

end MakeTree
