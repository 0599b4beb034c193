import MakeTree.Proofs.Grammar.Calls

/-!
Where a parser fails. `Raises task lines e` says that the task fails by itself, not through one that
it goes on with; a task that fails has reached one that does (`raises_of_fails`).
-/

namespace MakeTree

namespace Parser

open Likeness

/-- The task itself fails, not one that it goes on with. -/
inductive Raises : Task → List Line → ParseError → Prop
  | statement {line : Line} {lines : List Line} {e : ParseError} (hr : ¬ line.IsRule)
      (hc : ¬ line.IsConditional) (h : Fails (statement lines) line e) :
      Raises (.statement line) lines e
  | ruleHeader {line : Line} {lines : List Line} {e : ParseError} (hl : line.IsRule)
      (h : Fails ruleHeader line e) : Raises (.statement line) lines e
  | item {line : Line} {lines : List Line} {e : ParseError}
      (hk : ∀ k, LineKind.ofLine line ≠ .keyword (.conditional k))
      (h : Fails (recipeItem line lines) line e) : Raises (.item line) lines e
  | header {ctx : Context} {line : Line} {lines : List Line} {e : ParseError}
      (h : Fails conditionalHeader line e) : Raises (.conditional ctx line) lines e
  | endif {ctx : Context} {line : Line} {lines : List Line} {e : ParseError}
      (hl : ctx.closing? line ≠ some .otherwise) (h : Fails (endif ctx) line e) :
      Raises (.closing ctx line) lines e
  | elseLine {ctx : Context} {us line : Line} {lines : List Line} {hd : List Tree} {e : ParseError}
      (hl : ctx.closing? (us ++ line) = some .otherwise)
      (h : Takes elseKeyword (us ++ line) () line hd)
      (hk : (line.head?.map Nest.kind).any TokenKind.isConditional = false)
      (h' : Fails endOfLine line e) : Raises (.closing ctx (us ++ line)) lines e
  | elseEndif {ctx : Context} {us line mid : Line} {lines after : List Line} {hd el br : List Tree}
      {e : ParseError} (hl : ctx.closing? (us ++ line) = some .otherwise)
      (h : Takes elseKeyword (us ++ line) () line hd)
      (hk : (line.head?.map Nest.kind).any TokenKind.isConditional = false)
      (h' : Takes endOfLine line () [] el) (hb : Parses (.branch ctx) lines br (mid :: after))
      (he : Fails (endif ctx) mid e) : Raises (.closing ctx (us ++ line)) lines e
  | branch {ctx : Context} : Raises (.branch ctx) []
      (.unexpectedEnd [.token (.keyword .otherwise), .token (.keyword .endif)])

section Blamed

variable {ctx : Context} {line : Line} {lines : List Line} {e : ParseError}

/-- The task fails by itself, or goes on with one that fails. -/
def Blamed (task : Task) (lines : List Line) (e : ParseError) : Prop :=
  Raises task lines e ∨ ∃ task' lines', Calls task lines task' lines' ∧ task'.Fails lines' e

theorem sim_closing (ctx : Context) (lines : List Line) :
    Sim .same (SameRest .same) (closing ctx lines) (closing ctx lines) := by
  refine sim_unread_bind fun line line' hl => ?_
  rw [closing? hl.nests]
  refine sim_ite Iff.rfl ?_ (sim_then (sim_endif ctx) (sim_pure (same_lines lines)))
  refine sim_bind (sim_within _ ((below .same _).otherwise_of (same_lines lines) ctx)) ?_
  rintro ⟨chained, rest⟩ ⟨chained', rest'⟩ ⟨hc, hr⟩
  obtain rfl : chained' = chained := hc
  exact sim_then (sim_ite Iff.rfl (sim_pure rfl) (sim_endif ctx)) (sim_pure hr)

theorem blamed_statement (hl : line.Good) (h : Fails (statement lines) line e) :
    Blamed (.statement line) lines e := by
  by_cases hr : line.IsRule
  · obtain ⟨s, h⟩ := h [] []
    obtain ⟨es, he⟩ := statement_of_isRule hr lines [] []
    rw [he] at h
    obtain h | ⟨continues, ⟨ns, ts, es₁⟩, h₁, h⟩ := bind_error (within_error h)
    · exact .inl (.ruleHeader hr (fails_of_error sim_ruleHeader h))
    · obtain ⟨hd, h0, -, ht, -⟩ := line_ok sim_ruleHeader
        (fun _ _ => consumes_ruleHeader reads_held hl.single) hl.closed h₁
      obtain rfl : ns = [] := h0
      cases continues with
      | true =>
        have hu := (below .same lines.length).recipes_of (same_lines lines)
        exact .inr ⟨_, _, .recipes hr ht, fails_of_error hu h⟩
      | false => cases h
  · by_cases hc : line.IsConditional
    · obtain ⟨s, h⟩ := h [] []
      obtain ⟨es, he⟩ := statement_of_isConditional hc lines [] []
      rw [he] at h
      have hu := (below .same lines.length).conditional_of (same_lines lines) .statements
      exact .inr ⟨_, _, .conditional hc, fails_of_error hu h⟩
    · exact .inl (.statement hr hc h)

theorem blamed_item (h : Fails (recipeItem line lines) line e) : Blamed (.item line) lines e := by
  by_cases hk : ∃ k, LineKind.ofLine line = .keyword (.conditional k)
  · obtain ⟨k, hk⟩ := hk
    rw [recipeItem, hk] at h
    exact .inr ⟨_, _, .itemConditional hk, h⟩
  · exact .inl (.item (not_exists.1 hk) h)

theorem blamed_conditional (hl : line.Good) (hg : GoodLines lines) (hc : line.IsConditional)
    (h : Fails (conditional ctx lines) line e) : Blamed (.conditional ctx line) lines e := by
  obtain ⟨k, hk⟩ := hc
  obtain ⟨s, h⟩ := h [] []
  rw [conditional_eq] at h
  obtain h | ⟨_, ⟨ns, ts, es⟩, h₁, h⟩ := bind_error (within_error h)
  · exact .inl (.header (fails_of_error sim_conditionalHeader h))
  obtain ⟨hd, h0, -, ht, -⟩ := line_ok sim_conditionalHeader (fun _ _ =>
    consumes_conditionalHeader reads_held hl.single (movable_of_keyword hk)) hl.closed h₁
  obtain rfl : ns = [] := h0
  obtain h | ⟨⟨after, ha⟩, ⟨ns, us, es₁⟩, h₂, h⟩ := bind_error h
  · have hu := (below .same lines.length).branch_of (same_lines lines) ctx
    exact .inr ⟨_, _, .branch ht, fails_of_error hu (within_error h)⟩
  obtain ⟨s₁, h₂, hs, -⟩ := within_ok h₂
  obtain ⟨br, -, hp⟩ := (soundBelow _).branch_of hg ctx _ _ _ _ _ h₂
  obtain rfl : ns = s₁.unread := hs
  obtain h | ⟨c, s₂, h₃, h⟩ := bind_error h
  · exact .inr ⟨_, _, .closing ht hp, fails_of_error (sim_closing ctx after) h⟩
  · cases h

theorem elseKeyword_takes (hl : line.Good) (hc : ctx.closing? line = some .otherwise) :
    ∃ us ns hd, line = us ++ ns ∧ Takes elseKeyword line () ns hd := by
  have hk := Context.kind_of_closing? hc
  obtain ⟨s, hs⟩ : ∃ s, elseKeyword ⟨line, [], []⟩ = .ok () s := ⟨_, rfl⟩
  obtain ⟨us, hd, hus, -, ht, -⟩ := stretch_ok uniform_elseKeyword
    (fun _ _ => consumes_elseKeyword reads_held hk) hl.closed hs
  exact ⟨us, s.unread, hd, hus, ht⟩

theorem otherwise_eq_of_takes {us : Line} {hd : List Tree}
    (h : Takes elseKeyword (us ++ line) () line hd) : ∃ es, otherwise ctx lines ⟨us ++ line, [], []⟩ =
      (if (line.head?.map Nest.kind).any TokenKind.isConditional = true then
        conditional ctx lines >>= fun r => pure (true, r)
      else endOfLine >>= fun _ => within ctx.branch (branch ctx lines) >>= fun r =>
        pure (false, ⟨r.1, Nat.le_of_lt r.2⟩)) ⟨line, hd, es⟩ := by
  obtain ⟨es, h⟩ := h [] []
  refine ⟨es, ?_⟩
  rw [otherwise_eq]
  show EStateM.bind elseKeyword _ _ = _
  rw [EStateM.bind, h]
  rfl

theorem endOfLine_takes (hl : line.Good) {outer : List Tree} {es : List Event} {a : Unit}
    {s : Cursor} (h : endOfLine ⟨line, outer, es⟩ = .ok a s) :
    s.unread = [] ∧ ∃ el, Takes endOfLine line () [] el := by
  obtain ⟨el, h0, -, ht, -⟩ := line_ok sim_endOfLine
    (fun _ _ => consumes_endOfLine reads_held hl.single) hl.closed h
  exact ⟨h0, el, ht⟩

theorem blamed_chained {us : Line} {hd : List Tree}
    (hc : ctx.closing? (us ++ line) = some .otherwise)
    (ht : Takes elseKeyword (us ++ line) () line hd)
    (hk : (line.head?.map Nest.kind).any TokenKind.isConditional = true)
    (h : Fails (closing ctx lines) (us ++ line) e) : Blamed (.closing ctx (us ++ line)) lines e := by
  obtain ⟨s, h⟩ := h [] []
  obtain ⟨es, ho⟩ := @otherwise_eq_of_takes ctx line lines us hd ht
  rw [if_pos hk] at ho
  rw [closing_eq_otherwise hc] at h
  obtain h | ⟨r, s₁, h₁, h⟩ := bind_error h
  · have h := within_error h
    rw [ho] at h
    obtain h | ⟨_, _, -, h⟩ := bind_error h
    · have hu := (below .same lines.length).conditional_of (same_lines lines) ctx
      exact .inr ⟨_, _, .chained hc ht hk, fails_of_error hu h⟩
    · cases h
  · obtain ⟨s₂, h₁, -, -⟩ := within_ok h₁
    rw [ho] at h₁
    obtain ⟨_, _, -, h₁⟩ := bind_ok h₁
    cases h₁
    cases h

theorem blamed_else {us : Line} {hd : List Tree} (hl : line.Good) (hg : GoodLines lines)
    (hc : ctx.closing? (us ++ line) = some .otherwise)
    (ht : Takes elseKeyword (us ++ line) () line hd)
    (hk : (line.head?.map Nest.kind).any TokenKind.isConditional = false)
    (h : Fails (closing ctx lines) (us ++ line) e) : Blamed (.closing ctx (us ++ line)) lines e := by
  obtain ⟨s, h⟩ := h [] []
  obtain ⟨es, ho⟩ := @otherwise_eq_of_takes ctx line lines us hd ht
  rw [if_neg (by simp [hk])] at ho
  rw [closing_eq_otherwise hc] at h
  obtain h | ⟨r, ⟨mid, ts, es₁⟩, h₁, h⟩ := bind_error h
  · have h := within_error h
    rw [ho] at h
    obtain h | ⟨_, ⟨ns, _, _⟩, h₁, h⟩ := bind_error h
    · exact .inl (.elseLine hc ht hk (fails_of_error sim_endOfLine h))
    obtain ⟨h0, el, he⟩ := endOfLine_takes hl h₁
    obtain rfl : ns = [] := h0
    obtain h | ⟨_, _, -, h⟩ := bind_error h
    · have hu := (below .same lines.length).branch_of (same_lines lines) ctx
      exact .inr ⟨_, _, .otherwise hc ht hk he, fails_of_error hu (within_error h)⟩
    · cases h
  · obtain ⟨s₂, h₁, hs, -⟩ := within_ok h₁
    rw [ho] at h₁
    obtain ⟨_, ⟨ns, _, _⟩, h₂, h₁⟩ := bind_ok h₁
    obtain ⟨h0, el, he⟩ := endOfLine_takes hl h₂
    obtain rfl : ns = [] := h0
    obtain ⟨⟨after, ha⟩, s₃, h₃, h₁⟩ := bind_ok h₁
    cases h₁
    obtain ⟨s₄, h₃, hs', -⟩ := within_ok h₃
    obtain ⟨br, -, hp⟩ := (soundBelow _).branch_of hg ctx _ _ _ _ _ h₃
    obtain rfl : mid = s₄.unread := hs.trans hs'
    obtain h | ⟨_, _, -, h⟩ := bind_error h
    · exact .inl (.elseEndif hc ht hk he hp (fails_of_error (sim_endif ctx) h))
    · cases h

theorem blamed_closing (hl : line.Good) (hg : GoodLines lines)
    (h : Fails (closing ctx lines) line e) : Blamed (.closing ctx line) lines e := by
  by_cases hc : ctx.closing? line = some .otherwise
  · obtain ⟨us, ns, hd, rfl, ht⟩ := elseKeyword_takes hl hc
    cases hk : (ns.head?.map Nest.kind).any TokenKind.isConditional with
    | true => exact blamed_chained hc ht hk h
    | false => exact blamed_else hl.suffix hg hc ht hk h
  · obtain ⟨s, h⟩ := h [] []
    rw [closing_eq_endif hc] at h
    obtain h | ⟨_, s₁, -, h⟩ := bind_error h
    · exact .inl (.endif hc (fails_of_error (sim_endif ctx) h))
    · cases h

theorem blamed_branch (hg : GoodLines lines) (h : (Task.branch ctx).Fails lines e) :
    Blamed (.branch ctx) lines e := by
  obtain ⟨s, h⟩ := h [] []
  cases lines with
  | nil =>
    unfold branch at h
    cases h
    exact .inl .branch
  | cons line lines =>
    have hl : Line.Good line := hg line List.mem_cons_self
    have hgs := hg.suffix (List.suffix_cons line lines)
    unfold branch at h
    obtain h | ⟨_, _, h₁, h⟩ := bind_error h
    · cases h
    cases h₁
    by_cases hc : (ctx.closing? line).isSome = true
    · rw [if_pos hc] at h
      cases h
    · rw [if_neg hc] at h
      have hc : ctx.closing? line = none := by simpa using hc
      obtain h | ⟨⟨mid, hm⟩, ⟨ns, ts, es⟩, h₁, h⟩ := bind_error h
      · refine .inr ⟨_, _, .entry hc, ?_⟩
        cases ctx with
        | statements => exact fails_of_error (sim_statement (same_lines lines)) h
        | recipe =>
          exact fails_of_error ((below .same _).recipeItem_of (same_lines lines) (same_nests line)) h
      · have hp : ∃ us, ns = [] ∧ Parses (.entry ctx line) lines us mid := by
          cases ctx with
          | statements =>
            obtain ⟨us, hn, -, hp⟩ := (soundBelow _).statement_of hl hgs _ _ _ _ h₁
            exact ⟨us, hn, hp⟩
          | recipe =>
            obtain ⟨us, hn, -, hp⟩ := (soundBelow _).item_of hl hgs _ _ _ _ h₁
            exact ⟨us, hn, hp⟩
        obtain ⟨us, rfl, hp⟩ := hp
        obtain h | ⟨_, _, -, h⟩ := bind_error h
        · have hu := (below .same mid.length).branch_of (same_lines mid) ctx
          exact .inr ⟨_, _, .entries hc hp, fails_of_error hu h⟩
        · cases h

theorem blamed_recipes (hg : GoodLines lines) (h : Task.recipes.Fails lines e) :
    Blamed .recipes lines e := by
  obtain ⟨s, h⟩ := h [] []
  cases lines with
  | nil =>
    rw [recipes] at h
    cases h
  | cons line lines =>
    have hl : Line.Good line := hg line List.mem_cons_self
    have hgs := hg.suffix (List.suffix_cons line lines)
    rw [recipes] at h
    by_cases hc : Line.continuesRecipe (line :: lines) = true
    · rw [if_pos hc] at h
      obtain h | ⟨_, _, h₁, h⟩ := bind_error h
      · cases h
      cases h₁
      obtain h | ⟨⟨mid, hm⟩, ⟨ns, ts, es⟩, h₁, h⟩ := bind_error h
      · have hu := (below .same lines.length).recipeItem_of (same_lines lines) (same_nests line)
        exact .inr ⟨_, _, .item hc, fails_of_error hu h⟩
      obtain ⟨us, hn, -, hp⟩ := (soundBelow _).item_of hl hgs _ _ _ _ h₁
      obtain rfl : ns = [] := hn
      obtain h | ⟨_, _, -, h⟩ := bind_error h
      · have hu := (below .same mid.length).recipes_of (same_lines mid)
        exact .inr ⟨_, _, .items hc hp, fails_of_error hu h⟩
      · cases h
    · rw [if_neg hc] at h
      cases h

theorem blamed_file (hg : GoodLines lines) (h : Task.file.Fails lines e) :
    Blamed .file lines e := by
  obtain ⟨s, h⟩ := h [] []
  cases lines with
  | nil =>
    rw [statements] at h
    cases h
  | cons line lines =>
    have hl : Line.Good line := hg line List.mem_cons_self
    have hgs := hg.suffix (List.suffix_cons line lines)
    rw [statements] at h
    obtain h | ⟨_, _, h₁, h⟩ := bind_error h
    · cases h
    cases h₁
    obtain h | ⟨⟨mid, hm⟩, ⟨ns, ts, es⟩, h₁, h⟩ := bind_error h
    · exact .inr ⟨_, _, .statement, fails_of_error (sim_statement (same_lines lines)) h⟩
    obtain ⟨us, hn, -, hp⟩ := (soundBelow _).statement_of hl hgs _ _ _ _ h₁
    obtain rfl : ns = [] := hn
    exact .inr ⟨_, _, .statements hp, fails_of_error (sim_statements (same_lines mid)) h⟩

end Blamed

section Down

variable {task : Task} {lines file : List Line} {e : ParseError}

theorem blamed_of_fails (hg : GoodLines file) (ho : task.On file lines) (h : task.Fails lines e) :
    Blamed task lines e := by
  cases task with
  | statement line => exact blamed_statement (hg.suffix ho line List.mem_cons_self) h
  | item line => exact blamed_item h
  | conditional ctx line =>
    obtain ⟨hc, us, ho⟩ := ho
    have hl : Line.Good (us ++ line) := hg.suffix ho _ List.mem_cons_self
    exact blamed_conditional hl.suffix (hg.suffix ((List.suffix_cons _ _).trans ho)) hc h
  | closing ctx line =>
    have hgs := hg.suffix ho.2
    exact blamed_closing (hgs line List.mem_cons_self) (hgs.suffix (List.suffix_cons _ _)) h
  | branch ctx => exact blamed_branch (hg.suffix ho) h
  | recipes => exact blamed_recipes (hg.suffix ho) h
  | file => exact blamed_file (hg.suffix ho) h

/-- A task that fails reaches one that fails by itself. -/
theorem raises_of_fails (hg : GoodLines file) (ho : task.On file lines) (h : task.Fails lines e) :
    ∃ task' lines', Reaches task lines task' lines' ∧ Raises task' lines' e := by
  induction hn : 4 * lines.length + task.rank using Nat.strong_induction_on
    generalizing task lines with
  | _ n ih =>
    obtain hr | ⟨task₁, lines₁, hc, hf⟩ := blamed_of_fails hg ho h
    · exact ⟨task, lines, .refl, hr⟩
    · have hlt := hc.lt
      rw [hn] at hlt
      obtain ⟨task₂, lines₂, hreach, hr⟩ := ih _ hlt (hc.on ho) hf rfl
      exact ⟨task₂, lines₂, .head hc hreach, hr⟩

end Down

end Parser

end MakeTree
