import MakeTree.Proofs.Grammar.Lookahead
import MakeTree.Proofs.Grammar.Rows

/-!
How far recipes go. The lines of a recipe are commands and conditionals with commands in them, each
perhaps behind lines that are blank or hold only a comment (`LineKind.Recipe`). A recipe takes such
lines (`Parses.recipe`) as long as there are any (`Line.continuesRecipe_iff`), so it takes the
longest run of them (`LineKind.Recipe.longest`).
-/

namespace MakeTree

namespace LineKind

/-- A line that belongs to a recipe only if more of the recipe follows. -/
def isPad : LineKind → Bool
  | blank => true
  | comment => true
  | _ => false

/-- What a recipe goes on with: a command, or a conditional with a command in it. -/
def Item (ks : List LineKind) : Prop := ks = [recipe] ∨ RecipeBlock ks

/-- Lines that a recipe is made of. -/
inductive Recipe : List LineKind → Prop
  | nil : Recipe []
  | run {pads item ks : List LineKind} (hp : ∀ k ∈ pads, k.isPad = true) (hi : Item item)
      (h : Recipe ks) : Recipe (pads ++ (item ++ ks))

/-- Behind lines that are blank or hold only a comment, if any, a recipe would go on. -/
def Resumes (ks : List LineKind) : Prop := ∃ pads item after,
  ks = pads ++ (item ++ after) ∧ (∀ k ∈ pads, k.isPad = true) ∧ Item item

namespace Item

variable {us ws xs ys : List LineKind}

theorem head (h : Item us) : ∃ k ks, us = k :: ks ∧ k.isPad = false := by
  obtain rfl | ⟨c, body, rfl, -⟩ := h
  · exact ⟨_, _, rfl, rfl⟩
  · exact ⟨_, _, rfl, rfl⟩

theorem unique (h : Item us) (h' : Item ws) (he : us ++ xs = ws ++ ys) : us = ws ∧ xs = ys := by
  obtain rfl | ⟨c, body, rfl, hm, -⟩ := h
  · obtain rfl | ⟨c, body, rfl, -⟩ := h'
    · exact ⟨rfl, (List.cons.inj he).2⟩
    · cases (List.cons.inj he).1
  · obtain rfl | h' := h'
    · cases (List.cons.inj he).1
    · exact (h'.unique hm he).imp Eq.symm id

end Item

theorem run_unique {pads pads' us ws xs ys : List LineKind} (hp : ∀ k ∈ pads, k.isPad = true)
    (hp' : ∀ k ∈ pads', k.isPad = true) (h : Item us) (h' : Item ws)
    (he : pads ++ (us ++ xs) = pads' ++ (ws ++ ys)) : pads = pads' ∧ us = ws ∧ xs = ys := by
  have front {pads us : List LineKind} (hp : ∀ k ∈ pads, k.isPad = true) (h : Item us)
      (xs : List LineKind) : (pads ++ (us ++ xs)).takeWhile isPad = pads := by
    obtain ⟨k, ks, rfl, hk⟩ := h.head
    rw [List.takeWhile_append_of_pos hp, List.cons_append,
      List.takeWhile_cons_of_neg (by simp [hk]), List.append_nil]
  have hpads : pads = pads' := by rw [← front hp h xs, he, front hp' h']
  subst hpads
  exact ⟨rfl, h.unique h' (List.append_cancel_left he)⟩

namespace Resumes

variable {k : LineKind} {ks : List LineKind}

theorem not_nil : ¬ Resumes [] := by
  rintro ⟨pads, item, after, he, -, hi⟩
  obtain ⟨k, ks, rfl, -⟩ := hi.head
  simp at he

theorem append (h : Resumes ks) (ms : List LineKind) : Resumes (ks ++ ms) := by
  obtain ⟨pads, item, after, rfl, hp, hi⟩ := h
  exact ⟨pads, item, after ++ ms, by simp, hp, hi⟩

theorem cons_pad (hk : k.isPad = true) : Resumes (k :: ks) ↔ Resumes ks := by
  constructor
  · rintro ⟨pads, item, after, he, hp, hi⟩
    cases pads with
    | nil =>
      obtain ⟨j, js, rfl, hj⟩ := hi.head
      obtain ⟨rfl, -⟩ := List.cons.inj he
      rw [hk] at hj
      cases hj
    | cons p pads =>
      exact ⟨pads, item, after, (List.cons.inj he).2,
        fun j hj => hp j (List.mem_cons_of_mem p hj), hi⟩
  · rintro ⟨pads, item, after, rfl, hp, hi⟩
    exact ⟨k :: pads, item, after, rfl, List.forall_mem_cons.2 ⟨hk, hp⟩, hi⟩

theorem cons_item (hk : k.isPad = false) :
    Resumes (k :: ks) ↔ ∃ item after, k :: ks = item ++ after ∧ Item item := by
  constructor
  · rintro ⟨pads, item, after, he, hp, hi⟩
    cases pads with
    | nil => exact ⟨item, after, he, hi⟩
    | cons p pads =>
      obtain ⟨rfl, -⟩ := List.cons.inj he
      have := hp k List.mem_cons_self
      rw [hk] at this
      cases this
  · rintro ⟨item, after, he, hi⟩
    exact ⟨[], item, after, he, nofun, hi⟩

theorem recipe (ks : List LineKind) : Resumes (.recipe :: ks) :=
  (cons_item rfl).2 ⟨[.recipe], ks, rfl, .inl rfl⟩

theorem conditional (c : ConditionalKind) (ks : List LineKind) :
    Resumes (.keyword (.conditional c) :: ks) ↔
      endsInRecipe 0 false (.keyword (.conditional c) :: ks) = true := by
  rw [cons_item rfl, endsInRecipe_conditional]
  constructor
  · rintro ⟨item, after, he, rfl | hb⟩
    · cases (List.cons.inj he).1
    · exact ⟨item, after, he, hb⟩
  · rintro ⟨block, after, he, hb⟩
    exact ⟨block, after, he, .inr hb⟩

theorem not_other {k : LineKind} (hp : k.isPad = false) (hr : k ≠ .recipe)
    (hc : k.isConditional = false) (ks : List LineKind) : ¬ Resumes (k :: ks) := by
  rw [cons_item hp]
  rintro ⟨item, after, he, rfl | ⟨c, body, rfl, -⟩⟩
  · exact hr (List.cons.inj he).1
  · rw [(List.cons.inj he).1] at hc
    cases hc

end Resumes

namespace Recipe

variable {us ws : List LineKind}

theorem resumes (h : Recipe us) (hne : us ≠ []) : Resumes us := by
  cases h with
  | nil => exact absurd rfl hne
  | run hp hi h => exact ⟨_, _, _, rfl, hp, hi⟩

theorem pad {k : LineKind} (hk : k.isPad = true) (h : Recipe us) (hne : us ≠ []) :
    Recipe (k :: us) := by
  cases h with
  | nil => exact absurd rfl hne
  | run hp hi h => exact .run (List.forall_mem_cons.2 ⟨hk, hp⟩) hi h

theorem item (hi : Item ws) (h : Recipe us) : Recipe (ws ++ us) := by
  have hp : ∀ k ∈ ([] : List LineKind), k.isPad = true := nofun
  exact .run hp hi h

theorem right (h : Recipe us) (h' : Recipe (us ++ ws)) : Recipe ws := by
  induction h with
  | nil => exact h'
  | @run pads item ks hp hi _ ih =>
    generalize he : pads ++ (item ++ ks) ++ ws = ls at h'
    rw [List.append_assoc, List.append_assoc] at he
    cases h' with
    | nil =>
      obtain ⟨k, is, rfl, -⟩ := hi.head
      simp at he
    | run hp' hi' h' =>
      obtain ⟨-, -, rfl⟩ := run_unique hp hp' hi hi' he
      exact ih h'

theorem longest {rest : List LineKind} (h : Recipe us) (hr : ¬ Resumes (ws ++ rest))
    (h' : Recipe (us ++ ws)) : ws = [] := by
  by_contra hne
  exact hr (((h.right h').resumes hne).append rest)

end Recipe

theorem isDone_of_isPad {line : Line} (h : (ofLine line).isPad = true) :
    Line.isDone (Line.afterLeading line) = true := by
  have hk : ∀ n ∈ (Line.afterLeading line).head?, n.kind = .lineBreak ∨ n.kind = .comment := by
    intro n hn
    cases ho : ofLine line with
    | blank =>
      have hl := head_of_blank ho
      rw [Option.mem_def.1 hn] at hl
      exact .inl (by simpa [Nest.isLineBreak] using hl)
    | comment =>
      have hc := head_of_comment ho
      rw [Option.mem_def.1 hn] at hc
      exact .inr (by simpa [Nest.isComment] using hc)
    | _ => simp [ho, isPad] at h
  rw [Line.isDone_eq]
  cases ha : Line.afterLeading line with
  | nil => rfl
  | cons n ns =>
    have hn := hk n (by simp [ha])
    rw [List.dropWhile_cons_of_neg (by rcases hn with hn | hn <;> simp [hn])]
    simpa using hn

end LineKind

namespace Line

open LineKind

/-- A recipe goes on where the lines, also those within expansions, say so. -/
theorem continuesRecipe_iff {lines : List Line} (h : Lexed lines) :
    continuesRecipe lines = true ↔ Resumes (ofLines lines) := by
  induction lines with
  | nil => exact ⟨nofun, fun h => absurd h Resumes.not_nil⟩
  | cons line lines ih =>
    have ih := ih h.tail
    have hpad (hp : (ofLine line).isPad = true) (hk : ofLine line = .blank ∨ ofLine line = .comment) :
        continuesRecipe (line :: lines) = true ↔ Resumes (ofLines (line :: lines)) := by
      have hone := rows_of_flattenAll h.head.cut
        (flattenAll_of_isDone h.head (isDone_of_isPad hp))
      have hks : ofLines (line :: lines) = ofLine line :: ofLines lines := by
        rw [← List.singleton_append, ofLines_append h.cut h.head.closed]
        show (rows [line]).map ofLine ++ _ = _
        rw [hone]
        rfl
      rw [continuesRecipe_skip hk, ih, hks, Resumes.cons_pad hp]
    obtain ⟨ks, hks⟩ := ofLines_cons h.cut h.closed
    have hno (hp : (ofLine line).isPad = false) (hr : ofLine line ≠ .recipe)
        (hc : (ofLine line).isConditional = false) (he : continuesRecipe (line :: lines) = false) :
        continuesRecipe (line :: lines) = true ↔ Resumes (ofLines (line :: lines)) := by
      rw [he, hks]
      exact ⟨nofun, fun h => absurd h (Resumes.not_other hp hr hc ks)⟩
    cases hk : ofLine line with
    | blank => exact hpad (by simp [hk, isPad]) (.inl hk)
    | comment => exact hpad (by simp [hk, isPad]) (.inr hk)
    | recipe =>
      rw [continuesRecipe_recipe hk, hks, hk]
      exact ⟨fun _ => Resumes.recipe ks, fun _ => rfl⟩
    | other =>
      exact hno (by simp [hk, isPad]) (by simp [hk]) (by simp [hk, isConditional])
        (continuesRecipe_other hk)
    | keyword w =>
      cases w with
      | conditional c =>
        rw [continuesRecipe_conditional hk, isRecipeConditional, hks, hk, Resumes.conditional]
      | _ =>
        exact hno (by simp [hk, isPad]) (by simp [hk]) (by simp [hk, isConditional])
          (continuesRecipe_keyword hk (by simp))

end Line

namespace Parser

open LineKind

/-- The last of the trees is a command or a conditional. -/
def EndsInItem (ts : List Tree) : Prop :=
  ∃ us k vs, ts = us ++ [.node k vs] ∧ (k = .recipe ∨ k = .recipeConditional)

theorem EndsInItem.append {us : List Tree} (h : EndsInItem us) (ts : List Tree) :
    EndsInItem (ts ++ us) := by
  obtain ⟨vs, k, ws, rfl, hk⟩ := h
  exact ⟨ts ++ vs, k, ws, by simp, hk⟩

namespace Parses

variable {lines rest : List Line} {ts : List Tree}

theorem endsInItem_item {line : Line} (h : Parses (.item line) lines ts rest)
    (hk : (ofLine line).isPad = false) : EndsInItem ts := by
  cases h with
  | item hi h _ _ =>
    have hr : ofLine line = .recipe := by
      rcases hi with hi | hi | hi
      · exact hi
      · simp [hi, isPad] at hk
      · simp [hi, isPad] at hk
    obtain ⟨r, -, h⟩ := h []
    obtain ⟨es, h⟩ := h [] []
    rw [recipeItem, hr] at h
    obtain ⟨_, s, h, hs⟩ := bind_ok h
    obtain ⟨s', -, -, hb⟩ := within_ok h
    cases hs
    exact ⟨[], .recipe, s'.built, hb, .inl rfl⟩
  | itemConditional _ h =>
    cases h
    exact ⟨[], .recipeConditional, _, rfl, .inr rfl⟩

theorem endsInItem (h : Parses .recipes lines ts rest) (hc : Line.continuesRecipe lines = true) :
    EndsInItem ts := by
  generalize ht : Task.recipes = task at h
  induction h with
  | recipesEnd h => exact absurd hc (by simp [h])
  | @recipesItem line lines mid rest ts us _ hi hr _ ih =>
    by_cases hk : (ofLine line).isPad = true
    · refine (ih ?_ rfl).append ts
      have hpad : ofLine line = .blank ∨ ofLine line = .comment := by
        cases ho : ofLine line <;> simp [ho, isPad] at hk ⊢
      rw [Line.continuesRecipe_skip hpad] at hc
      cases hi with
      | item => exact hc
      | itemConditional hcond => simp [hcond] at hpad
    · have hi := hi.endsInItem_item (by simpa using hk)
      cases hr with
      | recipesEnd => rwa [List.append_nil]
      | recipesItem h hi' hr' => exact (ih h rfl).append ts
  | _ => cases ht

/-- A recipe takes lines that a recipe is made of, and no more would belong to it. -/
theorem recipe (h : Parses .recipes lines ts rest) (hl : Line.Lexed lines) :
    ∃ used, lines = used ++ rest ∧ SolidLines used ∧ Recipe (used.map ofLine) ∧
      Line.continuesRecipe rest = false := by
  generalize ht : Task.recipes = task at h
  induction h with
  | recipesEnd h => exact ⟨[], rfl, nofun, .nil, h⟩
  | @recipesItem line lines mid rest ts us hc hi _ _ ih =>
    cases hi with
    | item hk _ _ solid =>
      obtain ⟨used, rfl, hs, hrec, hend⟩ := ih hl.tail rfl
      refine ⟨line :: used, rfl, .cons solid hs, ?_, hend⟩
      rw [List.map_cons]
      -- behind a pad there is more of the recipe
      have hpad (hp : (ofLine line).isPad = true) (hk : ofLine line = .blank ∨ ofLine line = .comment) :
          Recipe (ofLine line :: used.map ofLine) := by
        refine .pad hp hrec fun hnil => ?_
        rw [Line.continuesRecipe_skip hk, List.map_eq_nil_iff.1 hnil, List.nil_append, hend] at hc
        cases hc
      rcases hk with hk | hk | hk
      · rw [hk]
        exact .item (.inl rfl) hrec
      · exact hpad (by simp [hk, isPad]) (.inl hk)
      · exact hpad (by simp [hk, isPad]) (.inr hk)
    | @itemConditional _ _ _ _ c hk h =>
      obtain ⟨u, rfl, solid, hu, body, hb, hm⟩ := h.scanned
      have hll : Line.Lexed ((line :: u) ++ mid) := hl
      obtain ⟨used, rfl, hs, hrec, hend⟩ := ih hll.right rfl
      refine ⟨line :: (u ++ used), by simp, ?_, ?_, hend⟩
      · exact .cons solid (hu.append hs)
      have hblock : ofLines (line :: u) = .keyword (.conditional c) :: (body ++ [.keyword .endif]) := by
        rw [ofLines_solid hll.left.cut hll.left.closed (SolidLines.cons solid hu),
          List.map_cons, hk, hb]
      rw [Line.continuesRecipe_conditional hk, Line.isRecipeConditional, ← List.cons_append,
        ofLines_append hll.cut hll.left.closed, hblock, List.cons_append,
        endsInRecipe_conditional] at hc
      obtain ⟨block, after, he, hfit⟩ := hc
      have hitem : LineKind.Item (.keyword (.conditional c) :: (body ++ [.keyword .endif])) :=
        .inr ((hfit.unique hm he).1 ▸ hfit)
      have hrun := Recipe.item hitem hrec
      rw [← hb, ← hk, ← List.map_cons, ← List.map_append] at hrun
      exact hrun
  | _ => cases ht

end Parses

end Parser

end MakeTree
