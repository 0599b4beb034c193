import Mathlib.Data.List.SplitBy
import MakeTree.Grammar.Statement
import MakeTree.Proofs.Nest.Likeness

/-!
What a line is judged by comes out the same on lines that are alike: the runs of nests that make
expressions, the kinds of lines, and how far recipes and definitions reach.
-/

namespace MakeTree

theorem Line.head?_split {ns : List Nest} {l : Line} {ls : List Line}
    (h : Line.split ns = l :: ls) : l.head? = ns.head? := by
  cases ns with
  | nil => cases h
  | cons n ns =>
    unfold Line.split at h
    split at h
    · cases h
      rfl
    · split at h
      · cases h
        rfl
      · cases h
        rfl

namespace Likeness

/-- The test does not tell apart nests that are alike. -/
def Blind (ρ : Likeness) (p : Nest → Bool) : Prop := ∀ n m, ρ.Match n m → p m = p n

variable {ρ : Likeness} {p q : Nest → Bool} {n m : Nest} {ns ms : List Nest}

theorem blind_kind (f : TokenKind → Bool) : ρ.Blind fun n => f n.kind :=
  fun _ _ h => congrArg f h.kind

theorem blind_isWhitespace : ρ.Blind Nest.isWhitespace := blind_kind (· == .whitespace)

theorem blind_isLineBreak : ρ.Blind Nest.isLineBreak := blind_kind (· == .lineBreak)

theorem blind_isComment : ρ.Blind Nest.isComment := blind_kind (· == .comment)

theorem blind_isColon : ρ.Blind Nest.isColon := blind_kind (· == .colon)

theorem blind_isAssignOp : ρ.Blind Nest.isAssignOp := blind_kind (· == .assignOp)

theorem blind_isText (s : Text) : ρ.Blind (Nest.isText s) := fun _ _ h => h.isText s

theorem blind_isSpecifier : ρ.Blind Line.isSpecifier := blind_kind fun k => k.specifier?.isSome

theorem blind_false : ρ.Blind fun _ => false := fun _ _ _ => rfl

namespace Blind

theorem eq (hp : ρ.Blind p) (h : ρ.Match n m) : p m = p n := hp n m h

theorem or (hp : ρ.Blind p) (hq : ρ.Blind q) : ρ.Blind fun n => p n || q n :=
  fun _ _ h => by simp only [hp.eq h, hq.eq h]

theorem and (hp : ρ.Blind p) (hq : ρ.Blind q) : ρ.Blind fun n => p n && q n :=
  fun _ _ h => by simp only [hp.eq h, hq.eq h]

theorem not (hp : ρ.Blind p) : ρ.Blind fun n => !p n := fun _ _ h => by
  simp only [hp.eq h]

variable (hp : ρ.Blind p) (h : ρ.Nests ns ms)

include hp h

theorem takeWhile : ρ.Nests (ns.takeWhile p) (ms.takeWhile p) := by
  induction h with
  | nil => exact .nil
  | cons hn _ ih =>
    rw [List.takeWhile_cons, List.takeWhile_cons, hp.eq hn]
    split
    · exact .cons hn ih
    · exact .nil

theorem dropWhile : ρ.Nests (ns.dropWhile p) (ms.dropWhile p) := by
  induction h with
  | nil => exact .nil
  | cons hn h ih =>
    rw [List.dropWhile_cons, List.dropWhile_cons, hp.eq hn]
    split
    · exact ih
    · exact .cons hn h

theorem find? : Option.Rel ρ.Match (ns.find? p) (ms.find? p) := by
  induction h with
  | nil => exact .none
  | cons hn _ ih =>
    rw [List.find?_cons, List.find?_cons, hp.eq hn]
    split
    · exact .some hn
    · exact ih

theorem any : ms.any p = ns.any p := by
  induction h with
  | nil => rfl
  | cons hn _ ih => rw [List.any_cons, List.any_cons, hp.eq hn, ih]

theorem all : ms.all p = ns.all p := by
  induction h with
  | nil => rfl
  | cons hn _ ih => rw [List.all_cons, List.all_cons, hp.eq hn, ih]

theorem head?_any : ms.head?.any p = ns.head?.any p := by
  cases h with
  | nil => rfl
  | cons hn _ => exact hp.eq hn

theorem head?_all : ms.head?.all p = ns.head?.all p := by
  cases h with
  | nil => rfl
  | cons hn _ => exact hp.eq hn

end Blind

section Nest

theorem blind_breaksLine : ρ.Blind Nest.breaksLine :=
  fun n _ h => blind_isLineBreak.any (flatten n h)

theorem trimEnd (h : ρ.Nests ns ms) : ρ.Nests (Nest.trimEnd ns) (Nest.trimEnd ms) := by
  induction h with
  | nil => exact .nil
  | cons hn _ ih =>
    rw [Nest.trimEnd, Nest.trimEnd]
    generalize Nest.trimEnd _ = as at ih ⊢
    generalize Nest.trimEnd _ = bs at ih ⊢
    cases ih with
    | nil =>
      simp only [blind_isWhitespace.eq hn]
      split
      · exact .nil
      · exact .cons hn .nil
    | cons hk hs => exact .cons hn (.cons hk hs)

theorem span (hp : ρ.Blind p) (h : ρ.Nests ns ms) : ρ.Nests (Nest.span p ns) (Nest.span p ms) :=
  trimEnd ((blind_isLineBreak.not.and hp.not).takeWhile h)

theorem takeOperand (hp : ρ.Blind p) (h : ρ.Nests ns ms) (depth : Nat) :
    ρ.Nests (Nest.takeOperand p depth ns) (Nest.takeOperand p depth ms) := by
  induction h generalizing depth with
  | nil => exact .nil
  | @cons n m ns ms hn _ ih =>
    have hd : m.parenDepth depth = n.parenDepth depth := by
      simp only [Nest.parenDepth, hn.isText]
    rw [Nest.takeOperand, Nest.takeOperand, blind_isLineBreak.eq hn, hp.eq hn, hd]
    split
    · exact .nil
    · exact .cons hn (ih _)

theorem splitByLoop {r : Nest → Nest → Bool}
    (hr : ∀ {n m n' m'}, ρ.Match n m → ρ.Match n' m' → r m m' = r n n') (h : ρ.Nests ns ms)
    (hn : ρ.Match n m) {as bs : List Nest} (ha : ρ.Nests as bs) {runs runs' : List (List Nest)}
    (hs : List.Forall₂ ρ.Nests runs runs') :
    List.Forall₂ ρ.Nests (List.splitBy.loop r ns n as runs)
      (List.splitBy.loop r ms m bs runs') := by
  induction h generalizing n m as bs runs runs' with
  | nil =>
    rw [List.splitBy.loop, List.splitBy.loop]
    exact List.rel_reverse (.cons (List.rel_reverse (.cons hn ha)) hs)
  | cons hn' _ ih =>
    rw [List.splitBy.loop, List.splitBy.loop, hr hn hn']
    split
    · exact ih hn' (.cons hn ha) hs
    · exact ih hn' .nil (.cons (List.rel_reverse (.cons hn ha)) hs)

theorem wordRuns (h : ρ.Nests ns ms) :
    List.Forall₂ ρ.Nests (Nest.wordRuns ns) (Nest.wordRuns ms) := by
  cases h with
  | nil => exact .nil
  | cons hn h =>
    refine splitByLoop (fun h h' => ?_) h hn .nil .nil
    rw [blind_isWhitespace.eq h, blind_isWhitespace.eq h']

end Nest

section Line

theorem head?_kind (h : ρ.Nests ns ms) : ms.head?.map Nest.kind = ns.head?.map Nest.kind := by
  cases h with
  | nil => rfl
  | cons hn _ => exact congrArg some hn.kind

variable (h : ρ.Nests ns ms)

include h

theorem afterLeading : ρ.Nests (Line.afterLeading ns) (Line.afterLeading ms) :=
  (blind_kind TokenKind.isLeading).dropWhile h

theorem isDone : Line.isDone ms = Line.isDone ns :=
  (blind_isLineBreak.or blind_isComment).head?_all (blind_isWhitespace.dropWhile h)

theorem header : ρ.Nests (Line.header ns) (Line.header ms) :=
  (blind_breaksLine.not.and blind_isComment.not).takeWhile h

theorem separator? : Line.separator? ms = Line.separator? ns := by
  have hf := (blind_isColon.or blind_isAssignOp).find? (header h)
  rw [Line.separator?, Line.separator?]
  generalize (Line.header ns).find? _ = o at hf ⊢
  generalize (Line.header ms).find? _ = o' at hf ⊢
  cases hf with
  | none => rfl
  | some hn => exact congrArg some hn.kind

theorem hasAssignOp : Line.hasAssignOp ms = Line.hasAssignOp ns :=
  blind_isAssignOp.any (header h)

theorem ofLine : LineKind.ofLine ms = LineKind.ofLine ns := by
  rw [LineKind.ofLine, LineKind.ofLine, head?_kind (afterLeading h),
    (blind_kind (· == .recipePrefix)).head?_any h]

theorem closing? (ctx : Context) : ctx.closing? ms = ctx.closing? ns := by
  cases ctx with
  | statements => simp only [Context.closing?, head?_kind (afterLeading h)]
  | recipe => simp only [Context.closing?, ofLine h]

theorem split : List.Forall₂ ρ.Nests (Line.split ns) (Line.split ms) := by
  induction h with
  | nil => exact .nil
  | cons hn _ ih =>
    rw [Line.split, Line.split, blind_isLineBreak.eq hn]
    generalize Line.split _ = ls at ih ⊢
    generalize Line.split _ = ls' at ih ⊢
    split
    · exact .cons (.cons hn .nil) ih
    · cases ih with
      | nil => exact .cons (.cons hn .nil) .nil
      | cons hl hs => exact .cons (.cons hn hl) hs

theorem nesting : Line.nesting ms = Line.nesting ns := by
  rw [Line.nesting, Line.nesting, (blind_kind (· == .recipePrefix)).head?_any h]
  split
  · rfl
  · have ha := afterLeading h
    generalize Line.afterLeading ns = as at ha ⊢
    generalize Line.afterLeading ms = bs at ha ⊢
    cases ha with
    | nil => rfl
    | cons hn h' =>
      simp only [hn.kind, isDone h']
      split
      · rfl
      · have hf := (blind_isSpecifier.not.and blind_isWhitespace.not).find? (.cons hn h')
        generalize List.find? _ _ = o at hf ⊢
        generalize List.find? _ _ = o' at hf ⊢
        cases hf with
        | none => rfl
        | some hf => simp only [Option.any_some, hf.kind]

end Line

theorem startsExpansion (h : ρ.Match n m) : Line.startsExpansion m = Line.startsExpansion n := by
  rw [Line.startsExpansion, Line.startsExpansion, h.kind, h.first.isReference]

section Lines

variable {ls ls' : List Line} (h : List.Forall₂ ρ.Nests ls ls')

include h

theorem map_ofLine : ls'.map LineKind.ofLine = ls.map LineKind.ofLine := by
  induction h with
  | nil => rfl
  | cons hl _ ih => rw [List.map_cons, List.map_cons, ofLine hl, ih]

theorem ofLines : LineKind.ofLines ls' = LineKind.ofLines ls :=
  map_ofLine (split (flattenAll _ (List.rel_flatten h)))

theorem dropWhile_ofLine (f : LineKind → Bool) : List.Forall₂ ρ.Nests
    (ls.dropWhile fun l => f (LineKind.ofLine l)) (ls'.dropWhile fun l => f (LineKind.ofLine l)) := by
  induction h with
  | nil => exact .nil
  | cons hl h ih =>
    rw [List.dropWhile_cons, List.dropWhile_cons, ofLine hl]
    split
    · exact ih
    · exact .cons hl h

theorem continuesRecipe : Line.continuesRecipe ls' = Line.continuesRecipe ls := by
  have hd := dropWhile_ofLine h fun k => k == .blank || k == .comment
  have hh : ∀ {ks ks' : List Line}, List.Forall₂ ρ.Nests ks ks' →
      ks'.head?.map LineKind.ofLine = ks.head?.map LineKind.ofLine := fun h => by
    rw [← List.head?_map, ← List.head?_map, map_ofLine h]
  simp only [Line.continuesRecipe, Line.isRecipeConditional, hh hd, ofLines hd]

theorem endef? (depth : Nat) : Line.endef? depth ls' = Line.endef? depth ls := by
  induction h generalizing depth with
  | nil => rfl
  | cons hl _ ih =>
    rw [Line.endef?, Line.endef?, nesting hl]
    simp only [ih]

end Lines

/-- Whether a colon comes at once. -/
def colonNext (ns : List Nest) : Bool :=
  ns.head?.any fun n => n.isColon && n.first.leading.isEmpty

/-- Behind a nest for which `q` holds a colon comes at once on both sides or on neither. -/
def Seams (q : Nest → Bool) : List Nest → List Nest → Prop
  | n :: ns, _ :: ms => (q n = true → colonNext ms = colonNext ns) ∧ Seams q ns ms
  | _, _ => True

theorem seams_of_nests (hρ : ∀ {us vs}, ρ.trivia us vs → vs.isEmpty = us.isEmpty)
    (h : ρ.Nests ns ms) (q : Nest → Bool) : Seams q ns ms := by
  have hb : ρ.Blind fun n => n.isColon && n.first.leading.isEmpty := fun n m h => by
    simp only [blind_isColon.eq h, hρ h.first.leading]
  induction h with
  | nil => trivial
  | cons hn h ih => exact ⟨fun _ => hb.head?_any h, ih⟩

/-- What comes after the words in front of a colon. -/
def endsTargets (n : Nest) : Bool := n.isLineBreak || n.isComment || n.isColon

/-- Nests that are alike, also in whether one of two colons follows the other at once. -/
inductive Row (ρ : Likeness) : List Nest → List Nest → Prop
  | nil : Row ρ [] []
  | cons {n m : Nest} {ns ms : List Nest} (h : ρ.Match n m)
      (hc : endsTargets n = true → colonNext ms = colonNext ns) (hs : Row ρ ns ms) :
      Row ρ (n :: ns) (m :: ms)

namespace Row

theorem nests (h : ρ.Row ns ms) : ρ.Nests ns ms := by
  induction h with
  | nil => exact .nil
  | cons h _ _ ih => exact .cons h ih

theorem drop (h : ρ.Row ns ms) (count : Nat) : ρ.Row (ns.drop count) (ms.drop count) := by
  induction count generalizing ns ms with
  | zero => exact h
  | succ count ih =>
    cases h with
    | nil => exact .nil
    | cons _ _ hs => exact ih hs

theorem of_seams (h : ρ.Nests ns ms) (hs : Seams endsTargets ns ms) : ρ.Row ns ms := by
  induction h with
  | nil => exact .nil
  | cons hn _ ih => exact .cons hn hs.1 (ih hs.2)

end Row

abbrev Lines (ρ : Likeness) : List Line → List Line → Prop := List.Forall₂ ρ.Row

/-- A line ends with its line break, so it does not matter what comes behind that. -/
theorem lines (h : ρ.Nests ns ms) (hs : Seams (fun n => n.isComment || n.isColon) ns ms) :
    ρ.Lines (Line.split ns) (Line.split ms) := by
  induction h with
  | nil => exact .nil
  | @cons n _ ns ms hn _ ih =>
    have ih := ih hs.2
    have hl {l : Line} {ls : List Line} (he : Line.split ns = l :: ls) : l.head? = ns.head? :=
      Line.head?_split he
    have hl' {l : Line} {ls : List Line} (he : Line.split ms = l :: ls) : l.head? = ms.head? :=
      Line.head?_split he
    rw [Line.split, Line.split, blind_isLineBreak.eq hn]
    generalize Line.split ns = ls at ih hl ⊢
    generalize Line.split ms = ls' at ih hl' ⊢
    split
    · exact .cons (.cons hn (fun _ => rfl) .nil) ih
    · next hb =>
      cases ih with
      | nil => exact .cons (.cons hn (fun _ => rfl) .nil) .nil
      | cons h hls =>
        refine .cons (.cons hn (fun he => ?_) h) hls
        rw [colonNext, colonNext, hl rfl, hl' rfl]
        exact hs.1 (by simpa [endsTargets, hb] using he)

end Likeness

end MakeTree
