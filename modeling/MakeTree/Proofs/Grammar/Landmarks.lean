import MakeTree.Proofs.Grammar.Separators

/-!
Where the separator of a line stands among the trees. The parsers of a rule and of an assignment come
to what parts the line, and make it the first leaf of its kind (`shows_ruleHeader`,
`assignment_shows`).
-/

namespace MakeTree

namespace Parser

open MakeTree.Tree

variable {α β : Type}

/-- Behind trees of `us` stands the leaf of `n`, the first of its kind. -/
def Reveals (k : NodeKind) (us : List Nest) (n : Nest) (ts : List Tree) : Prop :=
  ∃ pre post, ts = pre ++ (n.first.leaves ++ post) ∧ Laid k us pre ∧ ∀ s, (n.kind, s) ∉ marks pre

/-- Where `p` succeeds in front of `ns`, the trees reveal the nest that has `ls` behind it. -/
def Shows (k : NodeKind) (p : Parser α) (ns : List Nest) (n : Nest) (ls : List Nest) : Prop :=
  Line.Sound ns → ∀ outer es a s, p ⟨ns, outer, es⟩ = .ok a s →
    ∃ us ts, ns = us ++ n :: ls ∧ s.built = outer ++ ts ∧ Reveals k us n ts

/-- What `p` builds stands behind what was built before. -/
def Extends (p : Parser α) (ns : List Nest) : Prop :=
  ∀ outer es a s, p ⟨ns, outer, es⟩ = .ok a s → ∃ ts, s.built = outer ++ ts

section Rules

variable {k : NodeKind} {p : Parser α} {f : α → Parser β} {ns ls : List Nest} {n : Nest}
  {Q : α → List Nest → List Tree → Prop}

theorem extends_of_uniform (h : Uniform p) : Extends p ns := by
  intro outer es a s hp
  obtain ⟨ts, hb, -⟩ := takes_of_ok h hp
  exact ⟨ts, hb⟩

theorem extends_of_consumes {S : List Nest → List Tree → Prop} {Q : α → List Nest → Prop}
    (h : Consumes S p ns Q) : Extends p ns := by
  intro outer es a s hp
  obtain ⟨-, ts, -, hb, -⟩ := h outer es a s hp
  exact ⟨ts, hb⟩

theorem shows_bind (hp : Builds k p ns Q) (hf : ∀ a ms ts, Q a ms ts →
    (∀ s, (n.kind, s) ∉ marks ts) ∧ Shows k (f a) ms n ls) : Shows k (p >>= f) ns n ls := by
  intro hl outer es b s h
  obtain ⟨a, ⟨ms, built, es'⟩, h₁, h₂⟩ := bind_ok h
  have hy := hp hl outer es
  rw [h₁] at hy
  obtain ⟨us, ts, hns, hb, hlaid, hq⟩ := hy
  simp only at hns hb hq
  subst hns hb
  obtain ⟨hm, hshow⟩ := hf a ms ts hq
  obtain ⟨vs, ws, rfl, hbuilt, pre, post, rfl, hlaid', hm'⟩ := hshow hl.suffix _ _ _ _ h₂
  refine ⟨us ++ vs, ts ++ (pre ++ (n.first.leaves ++ post)), (List.append_assoc _ _ _).symm,
    by rw [hbuilt, List.append_assoc], ts ++ pre, post, (List.append_assoc _ _ _).symm,
    hlaid.append hlaid', fun t ht => ?_⟩
  rw [marks_append] at ht
  exact (List.mem_append.1 ht).elim (hm t) (hm' t)

theorem shows_left (hp : Shows k p ns n ls) (hf : ∀ a ms, Extends (f a) ms) :
    Shows k (p >>= f) ns n ls := by
  intro hl outer es b s h
  obtain ⟨a, ⟨ms, built, es'⟩, h₁, h₂⟩ := bind_ok h
  obtain ⟨us, ts, hns, hb, pre, post, rfl, hlaid, hm⟩ := hp hl _ _ _ _ h₁
  simp only at hb
  subst hb
  obtain ⟨vs, hbuilt⟩ := hf a ms _ _ _ _ h₂
  refine ⟨us, _, hns, by rw [hbuilt, List.append_assoc], pre, post ++ vs, ?_, hlaid, hm⟩
  simp only [List.append_assoc]

theorem shows_expect {q : Nest → Bool} {es : List Expected} {p : Parser β}
    (hb : k.allows n.kind = true) (hq : q n = true) (hp : Extends p ls) :
    Shows k (expect q es >>= fun _ => p) (n :: ls) n ls := by
  intro hl outer events b s h
  obtain ⟨_, s₁, h₁, h₂⟩ := bind_ok h
  have he : expect q es ⟨n :: ls, outer, events⟩ =
      .ok () ⟨ls, outer ++ Nest.treesOf [n], events⟩ := by
    show (if q n = true then advance else fail es) _ = _
    rw [if_pos hq]
    rfl
  rw [he] at h₁
  cases h₁
  obtain ⟨post, hbuilt⟩ := hp _ _ _ _ h₂
  have ht : Nest.treesOf [n] = n.first.leaves := by
    rw [← (hl.head.eq_leaf hb).2]
    exact List.append_nil _
  refine ⟨[], n.first.leaves ++ post, rfl, ?_, [], post, rfl, .nil k, fun t ht => by cases ht⟩
  rw [hbuilt, ht, List.append_assoc]

end Rules

section Line

variable {us ls : Line} {n : Nest}

theorem dropWhile_append_cons {q : Nest → Bool} (hn : q n = false) (us ls : List Nest) :
    (us ++ n :: ls).dropWhile q = us.dropWhile q ++ n :: ls := by
  rw [List.dropWhile_append]
  split
  · next h => rw [List.isEmpty_iff.1 h, List.dropWhile_cons_of_neg (by simp [hn]), List.nil_append]
  · rfl

theorem not_isLeading_of_isSeparator (h : n.isSeparator = true) : n.kind.isLeading = false := by
  rcases Nest.kind_of_isSeparator h with hk | hk <;> rw [hk] <;> rfl

/-- What stands in front of what parts a line. -/
def Clear (us : Line) : Prop := ∀ m ∈ us, m.endsSearch = false ∧ m.isLineBreak = false

theorem Clear.dropWhile (h : Clear us) (q : Nest → Bool) : Clear (us.dropWhile q) :=
  fun m hm => h m ((List.dropWhile_suffix q).subset hm)

theorem clear_of_partedBy {line : Line} (h : line.PartedBy us n) (hl : Nest.Single line) :
    Clear us := by
  obtain ⟨⟨vs, rfl⟩, -, hfirst⟩ := h
  refine fun m hm => ⟨hfirst m hm, ?_⟩
  by_contra hb
  obtain ⟨as, bs, rfl⟩ := List.append_of_mem hm
  have := hl as m (bs ++ n :: vs) (by simp) (by simpa using hb)
  simp at this

theorem shows_targets (hu : Clear us) (hn : n.isColon = true) :
    Shows .rule targets (us ++ n :: ls) n ls := by
  have hk : n.kind = .colon := by simpa [Nest.isColon] using hn
  have hsep : n.isSeparator = true := by simp [Nest.isSeparator, hn]
  have hcolon (m : Nest) (h : (m.isColon && m.first.leading.isEmpty) = true) :
      m.Movable .rule := Nest.movable_of_isColon (Bool.and_eq_true_iff.1 h).1
  refine shows_bind builds_skipLeading ?_
  rintro _ _ ts ⟨rfl, hm⟩
  refine ⟨fun _ => hm.not_mem (by simp [hk]), ?_⟩
  rw [Line.afterLeading, dropWhile_append_cons (not_isLeading_of_isSeparator hsep)]
  have hu := hu.dropWhile fun m => m.kind.isLeading
  have hhead := List.head?_dropWhile_not (fun m : Nest => m.kind.isLeading) (us ++ n :: ls)
  rw [dropWhile_append_cons (not_isLeading_of_isSeparator hsep)] at hhead
  generalize us.dropWhile (fun m => m.kind.isLeading) = us at hu hhead
  refine shows_bind (builds_refuse (by decide)) ?_
  rintro _ _ _ ⟨rfl, rfl, m, ms, he, hlm, hcm, hnm⟩
  refine ⟨fun _ => List.not_mem_nil, ?_⟩
  have hw : m.isWhitespace = false := by
    rw [he] at hhead
    exact not_isWhitespace_of_not_isLeading (by simpa using hhead)
  have hd : ((m :: ms).drop (Nest.span (fun n => n.isComment || n.isColon)
      (m :: ms)).length).dropWhile Nest.isWhitespace = n :: ls := by
    rw [Nest.dropWhile_drop_span fun n hn => by
      simp_all [Nest.isWhitespace, Nest.isComment, Nest.isColon], ← he,
      List.dropWhile_append_of_pos fun m hm => by
        have := hu m hm
        simp_all [Nest.endsSearch, Nest.isSeparator]]
    exact List.dropWhile_cons_of_neg (by simp [hn])
  rw [he]
  refine shows_bind (builds_targetWords hw hlm hcm hnm) ?_
  rintro _ _ _ ⟨rfl, vs, rfl, -⟩
  refine ⟨fun _ => List.not_mem_nil, shows_bind builds_skipWhitespace ?_⟩
  rintro _ _ ts ⟨rfl, hm⟩
  refine ⟨fun _ => hm.not_mem (by simp [hk]), ?_⟩
  rw [hd]
  have hrest : Consumes (HeldBy .rule) (advanceIf (fun n => n.isColon && n.first.leading.isEmpty)
      >>= fun _ => skipWhitespace) ls fun _ _ => True :=
    consumes_bind reads_held (consumes_advanceIf reads_held hcolon) fun _ _ _ _ _ =>
      (consumes_skipWhitespace reads_held).mono fun _ _ _ => trivial
  exact shows_expect (by rw [hk]; rfl) hn (extends_of_consumes hrest)

theorem shows_ruleHeader (hu : Clear us) (hn : n.isColon = true) :
    Shows .rule ruleHeader (us ++ n :: ls) n ls := by
  refine shows_left (shows_targets hu hn) fun _ ms => extends_of_uniform ?_
  refine sim_unread_bind fun ns ms h => ?_
  rw [Likeness.hasAssignOp ((Likeness.blind_isText [';']).not.takeWhile h.nests)]
  exact sim_ite Iff.rfl (sim_then sim_assignment (sim_pure rfl)) <|
    sim_then (sim_prerequisites _) <| sim_then sim_orderOnly <|
      sim_then sim_inlineRecipe (sim_pure rfl)

theorem shows_assigned (hu : Clear us) (hn : n.isAssignOp = true)
    (hw : ∀ m ∈ (us ++ n :: ls).head?, m.isWhitespace = false) :
    Shows .assignment assigned (us ++ n :: ls) n ls := by
  have hk : n.kind = .assignOp := by simpa [Nest.isAssignOp] using hn
  have hfront (m : Nest) (hm : m ∈ us) : (!m.isLineBreak && !m.isAssignOp) = true := by
    have := hu m hm
    simp_all [Nest.endsSearch, Nest.isSeparator]
  have hspan : Nest.span Nest.isAssignOp (us ++ n :: ls) <+: us := by
    have ht : (us ++ n :: ls).takeWhile (fun m => !m.isLineBreak && !m.isAssignOp) = us := by
      rw [List.takeWhile_append_of_pos hfront, List.takeWhile_cons_of_neg (by simp [hn]),
        List.append_nil]
    rw [Nest.span, ht]
    exact Nest.trimEnd_isPrefix us
  have hc : ∀ m ∈ Nest.span Nest.isAssignOp (us ++ n :: ls), m.isComment = false := by
    intro m hm
    have := (hu m (hspan.subset hm)).1
    simp_all [Nest.endsSearch]
  have hname : Builds .assignment (expression Nest.isAssignOp) (us ++ n :: ls) fun _ ms ts =>
      ms.dropWhile Nest.isWhitespace = n :: ls ∧ marks ts = [] := by
    have hfirst := builds_first (k := .assignment) (Nest.span_isPrefix _ _) (Nest.trimmed_span hw)
      (fun m hm => (Nest.mem_span_imp hm).1) (.inl hc)
    refine builds_unread_bind (hfirst.mono ?_)
    rintro _ _ _ ⟨rfl, rfl, -⟩
    refine ⟨?_, rfl⟩
    rw [Nest.dropWhile_drop_span fun m hm => by simp_all [Nest.isWhitespace, Nest.isAssignOp],
      List.dropWhile_append_of_pos hfront]
    exact List.dropWhile_cons_of_neg (by simp [hn])
  refine shows_bind hname ?_
  rintro _ ms ts ⟨hd, hm⟩
  refine ⟨fun _ => by simp [hm], shows_bind builds_skipWhitespace ?_⟩
  rintro _ _ ts ⟨rfl, hm⟩
  refine ⟨fun _ => hm.not_mem (by simp [hk]), ?_⟩
  rw [hd]
  exact shows_expect (by rw [hk]; rfl) hn (extends_of_uniform sim_skipWhitespace)

theorem builds_specifiers_none {k : NodeKind} {m : Nest} {ms : List Nest}
    (h : isIntro m = false) : Builds k specifiers (m :: ms) fun found ls ts =>
      found = [] ∧ ls = m :: ms ∧ marks ts = [] := by
  obtain ⟨hspec, hw⟩ := Bool.or_eq_false_iff.1 h
  have hnone : m.kind.specifier? = none := by simpa [Line.isSpecifier] using hspec
  have hfound : specifiersOf [] (m :: ms) = pure ([], m :: ms) := by
    simp [specifiersOf, hnone, hw]
  refine builds_unread_bind ?_
  rw [hfound, pure_bind]
  refine builds_bind (builds_moveWhile fun _ => bare_of_isIntro) fun _ _ ls ts _ hm => ?_
  obtain ⟨rfl, -, hmarks⟩ := hm
  refine builds_pure ⟨rfl, List.dropWhile_cons_of_neg (by simp [hspec, hw]), ?_⟩
  rw [List.append_nil, hmarks, List.takeWhile_cons_of_neg (by simp [hspec, hw]), List.map_nil]

theorem assignment_shows (hl : Line.Sound (us ++ n :: ls)) (hu : Clear us)
    (hn : n.isAssignOp = true)
    (hi : ∀ m ∈ (Line.afterLeading (us ++ n :: ls)).head?, isIntro m = false)
    {outer : List Tree} {es : List Event} {a : Unit} {s : Cursor}
    (h : assignment ⟨us ++ n :: ls, outer, es⟩ = .ok a s) :
    ∃ ts, s.built = outer ++ [.node .assignment ts] ∧ Reveals .assignment us n ts := by
  have hk : n.kind = .assignOp := by simpa [Nest.isAssignOp] using hn
  have hsep : n.isSeparator = true := by simp [Nest.isSeparator, hn]
  obtain ⟨s', hr, -, hb⟩ := within_ok h
  suffices hshow : Shows .assignment _ (us ++ n :: ls) n ls by
    obtain ⟨vs, ts, hns, hbuilt, hts⟩ := hshow hl _ _ _ _ hr
    obtain rfl := List.append_cancel_right hns
    rw [List.nil_append] at hbuilt
    exact ⟨ts, hbuilt ▸ hb, hts⟩
  refine shows_bind builds_skipLeading ?_
  rintro _ _ ts ⟨rfl, hm⟩
  refine ⟨fun _ => hm.not_mem (by simp [hk]), ?_⟩
  rw [Line.afterLeading, dropWhile_append_cons (not_isLeading_of_isSeparator hsep)] at hi ⊢
  have hu := hu.dropWhile fun m => m.kind.isLeading
  generalize us.dropWhile (fun m => m.kind.isLeading) = us at hu hi
  obtain ⟨m, ms, he⟩ := List.exists_cons_of_ne_nil (List.append_ne_nil_of_right_ne_nil us
    (List.cons_ne_nil n ls))
  rw [he]
  rw [he] at hi
  refine shows_bind (builds_specifiers_none (hi m rfl)) ?_
  rintro _ _ ts ⟨rfl, rfl, hm⟩
  refine ⟨fun _ => by simp [hm], shows_bind (builds_refuse (by decide)) ?_⟩
  rintro _ _ _ ⟨rfl, rfl, -⟩
  refine ⟨fun _ => List.not_mem_nil, ?_⟩
  rw [← he]
  have hw : ∀ k ∈ (us ++ n :: ls).head?, k.isWhitespace = false := fun k hk =>
    not_isWhitespace_of_not_isIntro (hi k (he ▸ hk))
  refine shows_left (shows_assigned hu hn hw) fun _ ms => extends_of_uniform ?_
  exact sim_then (sim_expression Likeness.blind_isComment) sim_endOfLine

end Line

end Parser

end MakeTree
