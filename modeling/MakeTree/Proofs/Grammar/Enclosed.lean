import MakeTree.Proofs.Grammar.Foreseen
import MakeTree.Proofs.Grammar.Raises
import MakeTree.Proofs.Grammar.Recipes

/-!
Conditionals in a recipe. When the parser comes to one, the lookahead has seen the `endif` of it and
of all conditionals inside it (`Calls.enclosed`), so a line by itself is all that can be refused there
(`Raises.fault`).
-/

namespace MakeTree

namespace LineKind

/-- The lines come to an `endif` that closes nothing among those in front of it. -/
def Closes (ks : List LineKind) : Prop :=
  ∃ body after, ks = body ++ .keyword .endif :: after ∧ Matched body

/-- The lines start with a conditional that is closed, with lines fit for a recipe in it. -/
def Opens (ks : List LineKind) : Prop :=
  ∃ c rest, ks = .keyword (.conditional c) :: rest ∧ Closes rest

theorem endsInRecipe_of_closed {ks : List LineKind} {depth : Nat} (hf : ∀ k ∈ ks, k.fit = true)
    (hc : opened ks + depth < closed ks) : endsInRecipe (depth + 1) true ks = true := by
  induction ks generalizing depth with
  | nil => exact absurd hc (Nat.not_lt_zero _)
  | cons k ks ih =>
    have hf' : ∀ j ∈ ks, j.fit = true := fun j hj => hf j (List.mem_cons_of_mem k hj)
    have hk : k.fit = true := hf k List.mem_cons_self
    simp only [opened_cons, closed_cons] at hc
    cases k with
    | blank => exact ih hf' (by simpa [isConditional] using hc)
    | comment => exact ih hf' (by simpa [isConditional] using hc)
    | recipe => exact ih hf' (by simpa [isConditional] using hc)
    | other => cases hk
    | keyword w =>
      cases w with
      | conditional c =>
        simp only [isConditional, if_true, reduceCtorEq, keyword.injEq, if_false] at hc
        exact ih hf' (by omega)
      | otherwise => exact ih hf' (by simpa [isConditional] using hc)
      | endif =>
        rw [endsInRecipe]
        split
        · rfl
        · next hd =>
          obtain ⟨d, rfl⟩ : ∃ d, depth = d + 1 := ⟨depth - 1, by omega⟩
          simp only [isConditional, Bool.false_eq_true, if_false, if_true] at hc
          exact ih hf' (by omega)
      | _ => cases hk

namespace Closes

variable {us ks : List LineKind} {k : LineKind}

theorem not_nil : ¬ Closes [] := by
  rintro ⟨body, after, h, -⟩
  simp at h

theorem right (hm : Matched us) (h : Closes (us ++ ks)) : Closes ks := by
  obtain ⟨body, after, he, hb⟩ := h
  obtain ⟨vs, -, hv, hm'⟩ := hm.split hb he
  exact ⟨vs, after, hv, hm'⟩

theorem of_otherwise (h : Closes (.keyword .otherwise :: ks)) : Closes ks := by
  have hm : Matched [.keyword .otherwise] := .singleton rfl rfl (by simp)
  exact right hm h

theorem of_conditional {c : ConditionalKind} (h : Closes (.keyword (.conditional c) :: ks)) :
    Closes ks := by
  obtain ⟨body, after, he, hm⟩ := h
  cases body with
  | nil => cases (List.cons.inj he).1
  | cons b body =>
    obtain ⟨rfl, rfl⟩ := List.cons.inj he
    have hc : opened body + 0 < closed body := by
      have := hm.even
      simp [isConditional] at this
      omega
    have hs := endsInRecipe_of_closed (fun k hk => hm.fit k (List.mem_cons_of_mem _ hk)) hc
    obtain ⟨us, vs, rfl, hf, hn, he, -⟩ := endsInRecipe_split hs
    exact ⟨us, vs ++ .keyword .endif :: after, by simp, hf, hn, he⟩

theorem fit (h : Closes (k :: ks)) : k.fit = true := by
  obtain ⟨body, after, he, hm⟩ := h
  cases body with
  | nil =>
    obtain ⟨rfl, -⟩ := List.cons.inj he
    rfl
  | cons b body =>
    obtain ⟨rfl, -⟩ := List.cons.inj he
    exact hm.fit k List.mem_cons_self

end Closes

theorem RecipeBlock.opens {block : List LineKind} (h : RecipeBlock block) (after : List LineKind) :
    Opens (block ++ after) := by
  obtain ⟨c, body, rfl, hm, -⟩ := h
  exact ⟨c, body ++ .keyword .endif :: after, by simp, body, after, rfl, hm⟩

end LineKind

namespace Line

variable {us line : Line} {lines : List Line}

theorem Lexed.behind (h : Lexed ((us ++ line) :: lines)) (hne : line ≠ []) :
    Lexed (line :: lines) := by
  have hf : ((us ++ line) :: lines).flatten = us ++ (line :: lines).flatten := by simp
  refine ⟨?_, ?_, fun n hn => h.plain n ?_, ?_⟩
  · rcases cut_cons.1 h.cut with ⟨⟨vs, n, he, hn, hv⟩, hc⟩ | ⟨⟨-, hv⟩, rfl⟩
    · obtain ⟨ws, m, rfl⟩ := (List.eq_nil_or_concat' line).resolve_left hne
      rw [← List.append_assoc] at he
      obtain ⟨rfl, he⟩ := List.append_inj' he rfl
      obtain rfl : m = n := by simpa using he
      exact cut_cons.2 (.inl ⟨⟨ws, m, rfl, hn, fun l hl => hv l (by simp [hl])⟩, hc⟩)
    · exact cut_cons.2 (.inr ⟨⟨hne, fun l hl => hv l (by simp [hl])⟩, rfl⟩)
  · have hs := h.sound
    rw [hf] at hs
    exact (Nest.soundAll_append.1 hs).2
  · rw [hf]
    exact List.mem_append_right _ hn
  · have hc := h.comments
    rw [hf] at hc
    exact hc.right

theorem split_unbroken {us ns : List Nest} {row : Line} {rows : List Line}
    (hu : ∀ n ∈ us, n.isLineBreak = false) (h : split ns = row :: rows) :
    split (us ++ ns) = (us ++ row) :: rows := by
  induction us with
  | nil => exact h
  | cons u us ih =>
    have ih := ih fun n hn => hu n (List.mem_cons_of_mem u hn)
    rw [List.cons_append, split, if_neg (by simp [hu u List.mem_cons_self]), ih]
    rfl

end Line

namespace LineKind

variable {line : Line} {lines : List Line}

theorem ofLines_cons_of_solid (h : Line.Lexed (line :: lines)) (hs : ∀ n ∈ line, Parser.Solid n) :
    ofLines (line :: lines) = ofLine line :: ofLines lines := by
  have h : Line.Lexed ([line] ++ lines) := h
  have hl : ∀ l ∈ [line], ∀ n ∈ l, Parser.Solid n := fun l hl => List.mem_singleton.1 hl ▸ hs
  rw [← List.singleton_append, ofLines_append h.cut h.left.closed,
    ofLines_solid h.left.cut h.left.closed hl]
  rfl

/-- Without what stands in front of the first nests that are no blanks, the lines behind the first
are what they were. -/
theorem ofLines_behind {us : Line} (h : Line.Lexed ((us ++ line) :: lines)) (hne : line ≠ [])
    (hs : ∀ n ∈ us, Parser.Solid n) : ∃ ks, ofLines ((us ++ line) :: lines) =
      ofLine (us ++ line) :: ks ∧ ofLines (line :: lines) = ofLine line :: ks := by
  have hu : ∀ n ∈ Nest.flattenAll us, n.isLineBreak = false := by
    intro m hm
    obtain ⟨n, hn, hm⟩ := Nest.mem_flattenAll hm
    by_contra hl
    have hl : n.isLineBreak = true := hs n hn m hm (by simpa using hl)
    obtain ⟨as, bs, rfl⟩ := List.append_of_mem hn
    have hsingle := h.single as n (bs ++ line) (by simp) hl
    exact hne (List.append_eq_nil_iff.1 hsingle).2
  have hf : Nest.flattenAll ((us ++ line) :: lines).flatten =
      Nest.flattenAll us ++ Nest.flattenAll (line :: lines).flatten := by
    rw [← Nest.flattenAll_append]
    simp
  have hb := h.behind hne
  obtain ⟨ks, hks⟩ := ofLines_cons hb.cut hb.closed
  obtain ⟨ks', hks'⟩ := ofLines_cons h.cut h.closed
  rw [hks, hks']
  refine ⟨ks', rfl, ?_⟩
  rw [ofLines] at hks hks'
  cases hr : Line.split (Nest.flattenAll (line :: lines).flatten) with
  | nil =>
    rw [hr] at hks
    cases hks
  | cons row rows =>
    rw [hf, Line.split_unbroken hu hr, List.map_cons] at hks'
    rw [hr, List.map_cons] at hks
    rw [← (List.cons.inj hks).2, (List.cons.inj hks').2]

theorem ofLine_of_conditional_head
    (h : (line.head?.map Nest.kind).any TokenKind.isConditional = true) :
    ∃ c, ofLine line = .keyword (.conditional c) := by
  obtain ⟨c, hc⟩ := Line.conditional_of_head h
  refine ⟨c, ?_⟩
  cases line with
  | nil => cases h
  | cons n ns =>
    have hp : ¬ (n :: ns).head?.any (·.kind == .recipePrefix) = true := by
      intro hp
      have hk : n.kind = .recipePrefix := by simpa using hp
      simp [hk, TokenKind.isConditional] at h
    rw [ofLine, if_neg hp, hc]

theorem ne_keyword_of_mem_ofLines (h : Line.Lexed [line]) {ks : List LineKind} {k j : LineKind}
    (hk : ofLines [line] = k :: ks) (hj : j ∈ ks) (w : Keyword) : j ≠ .keyword w := by
  obtain ⟨row, rest, hr, -, -, hv, -⟩ := Line.rows_line h
  have hm : (Line.rows [line]).map ofLine = k :: ks := hk
  rw [hr, List.map_cons] at hm
  rw [← (List.cons.inj hm).2] at hj
  obtain ⟨r, hr, rfl⟩ := List.mem_map.1 hj
  exact (hv r hr).ofLine w

theorem Opens.ne_nil (h : Line.Lexed (line :: lines)) (ho : Opens (ofLines (line :: lines))) :
    lines ≠ [] := by
  rintro rfl
  obtain ⟨c, ks, hks, body, after, rfl, -⟩ := ho
  exact ne_keyword_of_mem_ofLines h hks (by simp) .endif rfl

end LineKind

namespace Parser

open LineKind

/-- The task is part of a recipe. -/
def Task.InRecipe : Task → Prop
  | .item _ => True
  | .conditional .recipe _ => True
  | .closing .recipe _ => True
  | .branch .recipe => True
  | _ => False

/-- What the lookahead has seen when the parser of a recipe comes to the task. -/
def Task.Enclosed : Task → List Line → Prop
  | .item line, lines => IsItem (ofLine line) ∨ Opens (ofLines (line :: lines))
  | .conditional .recipe line, lines => Opens (ofLines (line :: lines))
  | .closing .recipe line, lines => Closes (ofLines (line :: lines))
  | .branch .recipe, lines => Closes (ofLines lines)
  | _, _ => True

section Calls

variable {task task' : Task} {lines lines' file : List Line}

theorem Calls.inRecipe (h : Calls task lines task' lines') (hr : task.InRecipe) :
    task'.InRecipe := by
  cases h with
  | @branch ctx => cases ctx <;> exact hr
  | @closing ctx => cases ctx <;> exact hr
  | @chained ctx => cases ctx <;> exact hr
  | @otherwise ctx => cases ctx <;> exact hr
  | @entry ctx => cases ctx <;> exact hr
  | @entries ctx => cases ctx <;> exact hr
  | itemConditional _ => trivial
  | _ => cases hr

theorem solid_of_conditionalHeader {line : Line} {hd : List Tree} (h : Line.Lexed (line :: lines))
    (hl : line.IsConditional) (ht : Takes conditionalHeader line () [] hd) :
    ∀ n ∈ line, Solid n := by
  obtain ⟨c, hk⟩ := hl
  have hc := h.closed_head
  exact solid_of_line (k := .root) (consumes_conditionalHeader reads_solid h.single
    (movable_of_keyword hk)) hc ht

theorem solid_of_elseKeyword {us line : Line} {hd : List Tree}
    (h : Line.Lexed ((us ++ line) :: lines))
    (hl : Context.recipe.closing? (us ++ line) = some .otherwise)
    (ht : Takes elseKeyword (us ++ line) () line hd) : ∀ n ∈ us, Solid n := by
  have hc := h.closed_head
  exact solid_of_consumes (k := .root)
    (consumes_elseKeyword reads_solid (Context.kind_of_closing? hl)) hc ht rfl

theorem lexed_of_on {ctx : Context} {line : Line} (hl : Line.Lexed file)
    (ho : (Task.conditional ctx line).On file lines) : Line.Lexed (line :: lines) := by
  obtain ⟨⟨c, hk⟩, us, ho⟩ := ho
  refine (hl.suffix ho).behind ?_
  rintro rfl
  cases hk

theorem Task.Enclosed.conditional {line : Line} {hd : List Tree} (hl : Line.Lexed file)
    (ho : (Task.conditional .recipe line).On file lines)
    (he : (Task.conditional .recipe line).Enclosed lines)
    (h : Takes conditionalHeader line () [] hd) : Closes (ofLines lines) := by
  have hx := lexed_of_on hl ho
  obtain ⟨c, ks, hks, hcl⟩ := he
  rw [ofLines_cons_of_solid hx (solid_of_conditionalHeader hx ho.1 h)] at hks
  obtain ⟨-, rfl⟩ := List.cons.inj hks
  exact hcl

theorem enclosed_entry {line : Line} (hx : Line.Lexed (line :: lines))
    (hn : Context.recipe.closing? line = none) (hcl : Closes (ofLines (line :: lines))) :
    (Task.item line).Enclosed lines := by
  obtain ⟨ks, hks⟩ := ofLines_cons hx.cut hx.closed
  rw [hks] at hcl
  have hne {k : Keyword} (hk : k = .otherwise ∨ k = .endif) : ofLine line ≠ .keyword k := by
    intro ho
    rcases hk with rfl | rfl <;> simp [Context.closing?, ho] at hn
  have hf := hcl.fit
  cases hk : ofLine line with
  | blank => exact .inl (.inr (.inl hk))
  | comment => exact .inl (.inr (.inr hk))
  | recipe => exact .inl (.inl hk)
  | other => simp [hk, fit] at hf
  | keyword w =>
    cases w with
    | conditional c =>
      rw [hk] at hks hcl
      exact .inr ⟨c, ks, hks, hcl.of_conditional⟩
    | otherwise => exact absurd hk (hne (.inl rfl))
    | endif => exact absurd hk (hne (.inr rfl))
    | _ => simp [hk, fit] at hf

theorem enclosed_item {line : Line} (hx : Line.Lexed (line :: lines))
    (hc : Line.continuesRecipe (line :: lines) = true) : (Task.item line).Enclosed lines := by
  obtain ⟨ks, hks⟩ := ofLines_cons hx.cut hx.closed
  rw [Line.continuesRecipe_iff hx, hks] at hc
  cases hp : (ofLine line).isPad with
  | true =>
    refine .inl (.inr ?_)
    cases ho : ofLine line <;> simp [ho, isPad] at hp ⊢
  | false =>
    obtain ⟨item, after, he, rfl | hb⟩ := (Resumes.cons_item hp).1 hc
    · exact .inl (.inl (List.cons.inj he).1)
    · refine .inr ?_
      rw [hks, he]
      exact hb.opens after

/-- What the lookahead has seen of a task it has seen of those that the task goes on with. -/
theorem Calls.enclosed (hl : Line.Lexed file) (h : Calls task lines task' lines')
    (ho : task.On file lines) (he : task.Enclosed lines) : task'.Enclosed lines' := by
  cases h with
  | recipes _ _ => trivial
  | conditional _ => trivial
  | @itemConditional line _ k hk =>
    refine he.resolve_left fun hi => ?_
    rcases hi with hi | hi | hi <;> simp [hi] at hk
  | @branch ctx line _ hd h =>
    cases ctx with
    | statements => trivial
    | recipe => exact he.conditional hl ho h
  | @closing ctx line mid lines after hd br h hb =>
    cases ctx with
    | statements => trivial
    | recipe =>
      have hcl := he.conditional hl ho h
      have hx : Line.Lexed lines := (lexed_of_on hl ho).tail
      obtain ⟨used, rfl, hp⟩ := hb.scanned
      rw [ofLines_append hx.cut hx.left.closed,
        ofLines_solid hx.left.cut hx.left.closed hp.solid] at hcl
      exact hcl.right hp.matched
  | @chained ctx us line _ hd hc h hk =>
    cases ctx with
    | statements => trivial
    | recipe =>
      have hx := hl.suffix ho.2
      obtain ⟨c, hcond⟩ := ofLine_of_conditional_head hk
      have hne : line ≠ [] := by
        rintro rfl
        cases hcond
      obtain ⟨ks, hks, hks'⟩ := ofLines_behind hx hne (solid_of_elseKeyword hx hc h)
      have hcl : Closes (ofLines ((us ++ line) :: lines)) := he
      rw [hks, Context.recipe_closing? hc] at hcl
      exact ⟨c, ks, by rw [hks', hcond], hcl.of_otherwise⟩
  | @otherwise ctx us line _ hd el hc h hk h' =>
    cases ctx with
    | statements => trivial
    | recipe =>
      have hx := hl.suffix ho.2
      have hcl : Closes (ofLines ((us ++ line) :: lines)) := he
      have hclosed := hx.closed_head
      have hs := solid_append (solid_of_elseKeyword hx hc h) (solid_of_line (k := .root)
        (consumes_endOfLine reads_solid hx.single.suffix) (Nest.closedAll_append.1 hclosed).2 h')
      rw [ofLines_cons_of_solid hx hs, Context.recipe_closing? hc] at hcl
      exact hcl.of_otherwise
  | @entry ctx line _ hn =>
    cases ctx with
    | statements => trivial
    | recipe =>
      exact enclosed_entry (hl.suffix ho) hn he
  | @entries ctx line _ _ _ hn h =>
    cases ctx with
    | statements => trivial
    | recipe =>
      have hx := hl.suffix ho
      obtain ⟨used, rfl, hp⟩ := h.scanned
      have hx : Line.Lexed ((line :: used) ++ lines') := hx
      have hcl : Closes (ofLines ((line :: used) ++ lines')) := he
      rw [ofLines_append hx.cut hx.left.closed,
        ofLines_solid hx.left.cut hx.left.closed hp.solid] at hcl
      exact hcl.right hp.matched
  | item hc => exact enclosed_item (hl.suffix ho) hc
  | items _ _ => trivial
  | statement => trivial
  | statements _ => trivial

end Calls

end Parser

end MakeTree
