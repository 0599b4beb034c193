import MakeTree.Proofs.Grammar.Parses

/-!
A parser that succeeds does what `Parses` says (`parses_of_ok`). The rules call each other on fewer
lines, or on as many with a rule further down, so each is taken from all rules on fewer lines
(`SoundBelow`).
-/

namespace MakeTree

/-- Lines as the parser is given them. -/
def GoodLines (lines : List Line) : Prop := ∀ l ∈ lines, Line.Good l

theorem GoodLines.suffix {lines rest : List Line} (h : GoodLines lines) (hs : rest <:+ lines) :
    GoodLines rest := fun l hl => h l (hs.subset hl)

namespace LineKind

theorem head_of_recipe {line : Line} (h : ofLine line = .recipe) :
    line.head?.any (·.kind == .recipePrefix) = true := by
  unfold ofLine at h
  split at h
  · assumption
  · split at h
    all_goals cases h

theorem head_of_blank {line : Line} (h : ofLine line = .blank) :
    (Line.afterLeading line).head?.all Nest.isLineBreak = true := by
  unfold ofLine at h
  split at h
  · cases h
  · cases hh : (Line.afterLeading line).head? with
    | none => rfl
    | some n =>
      rw [hh, Option.map_some] at h
      cases hk : n.kind with
      | lineBreak => simp [Nest.isLineBreak, hk]
      | _ =>
        rw [hk] at h
        cases h

theorem head_of_comment {line : Line} (h : ofLine line = .comment) :
    (Line.afterLeading line).head?.any Nest.isComment = true := by
  unfold ofLine at h
  split at h
  · cases h
  · cases hh : (Line.afterLeading line).head? with
    | none =>
      rw [hh] at h
      cases h
    | some n =>
      rw [hh, Option.map_some] at h
      cases hk : n.kind with
      | comment => simp [Nest.isComment, hk]
      | _ =>
        rw [hk] at h
        cases h

theorem kind_of_keyword {line : Line} {k : Keyword} (h : ofLine line = .keyword k) :
    (Line.afterLeading line).head?.map Nest.kind = some (.keyword k) := by
  unfold ofLine at h
  split at h
  · cases h
  · split at h
    all_goals cases h
    assumption

end LineKind

theorem Line.conditional_of_head {line : Line}
    (h : (line.head?.map Nest.kind).any TokenKind.isConditional = true) :
    ∃ k, (afterLeading line).head?.map Nest.kind = some (.keyword (.conditional k)) := by
  cases line with
  | nil => cases h
  | cons n ns =>
    have h : n.kind.isConditional = true := h
    cases hk : n.kind with
    | keyword j =>
      rw [hk] at h
      cases j with
      | conditional k =>
        refine ⟨k, ?_⟩
        rw [afterLeading, List.dropWhile_cons_of_neg (by simp [hk, TokenKind.isLeading])]
        exact congrArg some hk
      | _ => cases h
    | _ =>
      rw [hk] at h
      cases h

namespace Context

/-- Keywords that end a branch. -/
def closer? : Option TokenKind → Option Keyword
  | some (.keyword .otherwise) => some .otherwise
  | some (.keyword .endif) => some .endif
  | _ => none

theorem closer?_eq_some {o : Option TokenKind} {k : Keyword} (h : closer? o = some k) :
    o = some (.keyword k) ∧ (k = .otherwise ∨ k = .endif) := by
  unfold closer? at h
  split at h
  · cases h
    exact ⟨rfl, .inl rfl⟩
  · cases h
    exact ⟨rfl, .inr rfl⟩
  · cases h

theorem recipe_closing? {line : Line} {k : Keyword} (h : recipe.closing? line = some k) :
    LineKind.ofLine line = .keyword k := by
  obtain ⟨ho, -⟩ := closer?_eq_some h
  simp only at ho
  split at ho
  · next hl =>
    cases ho
    exact hl
  · cases ho

theorem kind_of_closing? {ctx : Context} {line : Line} {k : Keyword}
    (h : ctx.closing? line = some k) :
    (Line.afterLeading line).head?.map Nest.kind = some (.keyword k) := by
  cases ctx with
  | statements => exact (closer?_eq_some h).1
  | recipe => exact LineKind.kind_of_keyword (recipe_closing? h)

end Context

namespace Parser

section Line

variable {R : NodeKind → List Nest → List Tree → Prop} {k : NodeKind} {line : Line} {j : Keyword}

theorem movable_of_keyword
    (hk : (Line.afterLeading line).head?.map Nest.kind = some (.keyword j)) :
    ∀ n ∈ (Line.afterLeading line).head?, n.Movable k := by
  intro n hn
  rw [Option.mem_def.1 hn] at hk
  exact Nest.movable_of_kind (Option.some.inj hk) nofun nofun

theorem consumes_elseKeyword (hR : Reads R)
    (hk : (Line.afterLeading line).head?.map Nest.kind = some (.keyword j)) :
    Consumes (R k) elseKeyword line (fun _ _ => True) := by
  refine consumes_bind hR (consumes_skipLeading hR) fun _ _ _ _ ha => ?_
  refine consumes_bind hR (consumes_advance hR (ha ▸ movable_of_keyword hk)) fun _ _ _ _ _ => ?_
  exact (consumes_skipWhitespace hR).mono fun _ _ _ => trivial

theorem consumes_endif (hR : Reads R) {ctx : Context} (hs : Nest.Single line) :
    Consumes (R k) (endif ctx) line (fun _ ms => ms = []) := by
  refine consumes_unread_bind ?_
  split
  · next h =>
    have hm := movable_of_keyword (k := k) (Context.kind_of_closing? h)
    refine consumes_bind hR (consumes_skipLeading hR) fun _ _ _ h₁ ha => ?_
    refine consumes_bind hR (consumes_advance hR (ha ▸ hm)) fun _ _ _ h₂ _ => ?_
    subst h₁ h₂
    exact consumes_endOfLine hR hs.suffix.suffix
  · exact consumes_failAt _ _

theorem uniform_elseKeyword : Uniform elseKeyword :=
  sim_then sim_skipLeading (sim_then (sim_move 1) sim_skipWhitespace)

end Line

/-- A successful run on the line does what the relation says. -/
def Sound {P : List Line → Prop} (p : Parser { rest // P rest }) (line : Line) (task : Task)
    (lines : List Line) : Prop :=
  ∀ outer es r s, p ⟨line, outer, es⟩ = .ok r s →
    ∃ ts, s.unread = [] ∧ s.built = outer ++ ts ∧ Parses task lines ts r.1

/-- A branch leaves the line that ends it as the current line. -/
def SoundBranch (ctx : Context) (lines : List Line) : Prop :=
  ∀ ns outer es r s, branch ctx lines ⟨ns, outer, es⟩ = .ok r s →
    ∃ ts, s.built = outer ++ ts ∧ Parses (.branch ctx) lines ts (s.unread :: r.1)

/-- The rules that run over several lines, on fewer than `n` good lines. -/
structure SoundBelow (n : Nat) : Prop where
  statement : ∀ line lines, lines.length < n → Line.Good line → GoodLines lines →
    Sound (statement lines) line (.statement line) lines
  item : ∀ line lines, lines.length < n → Line.Good line → GoodLines lines →
    Sound (recipeItem line lines) line (.item line) lines
  closing : ∀ ctx line lines, lines.length < n → Line.Good line → GoodLines lines →
    Sound (closing ctx lines) line (.closing ctx line) lines
  branch : ∀ ctx lines, lines.length < n → GoodLines lines → SoundBranch ctx lines
  recipes : ∀ lines, lines.length < n → GoodLines lines →
    Sound (recipes lines) [] .recipes lines

theorem endif_ok {ctx : Context} {line : Line} (hl : line.Good) {after : List Line}
    {outer : List Tree} {es : List Event} {a : Unit} {s : Cursor}
    (h : endif ctx ⟨line, outer, es⟩ = .ok a s) : ∃ ts, s.unread = [] ∧ s.built = outer ++ ts ∧
      Parses (.closing ctx line) after ts after ∧ ctx.closing? line = some .endif := by
  have hc : ctx.closing? line = some .endif := by
    by_contra hc
    rw [endif, unread_bind_eq, if_neg hc] at h
    cases h
  have hcons {R} (hR : Reads R) {k : NodeKind} :
      Consumes (R k) (endif ctx) line (fun _ ms => ms = []) :=
    consumes_endif hR hl.single
  obtain ⟨ts, h0, hb, ht, hheld⟩ :=
    line_ok (sim_endif ctx) (fun _ _ => hcons reads_held) hl.closed h
  have hsolid := solid_of_line (hcons reads_solid (k := .root)) hl.closed ht
  exact ⟨ts, h0, hb, .closingEndif hc ht hheld hsolid, hc⟩

theorem item_ok {line : Line} (hl : line.Good) {lines : List Line} {p : Parser Unit}
    (hk : IsItem (LineKind.ofLine line)) (he : ∀ rest, recipeItem line rest = oneLine rest p)
    (hu : Uniform p) (hc : ∀ {R : NodeKind → List Nest → List Tree → Prop} {k}, Reads R →
      Consumes (R k) p line (fun _ ms => ms = [])) :
    Sound (recipeItem line lines) line (.item line) lines := by
  intro outer es r s hr
  rw [he] at hr
  obtain ⟨a, s₁, h₁, hr⟩ := bind_ok hr
  cases hr
  obtain ⟨ts, h0, hb, ht, hheld⟩ := line_ok hu (fun _ _ => hc reads_held) hl.closed h₁
  have hsolid := solid_of_line (hc (k := .root) reads_solid) hl.closed ht
  refine ⟨ts, h0, hb, .item hk (fun rest => ⟨Rest.all rest, rfl, ?_⟩) hheld hsolid⟩
  rw [he]
  exact ht.map_value

namespace SoundBelow

variable {lines : List Line} {line : Line}

theorem branch_of (h : SoundBelow lines.length) (hg : GoodLines lines) (ctx : Context) :
    SoundBranch ctx lines := by
  intro ns outer es r s hr
  cases lines with
  | nil =>
    unfold Parser.branch at hr
    cases hr
  | cons line lines =>
    have hl : Line.Good line := hg line List.mem_cons_self
    have hgs := hg.suffix (List.suffix_cons line lines)
    unfold Parser.branch at hr
    obtain ⟨_, _, h₁, hr⟩ := bind_ok hr
    cases h₁
    by_cases hc : (ctx.closing? line).isSome = true
    · rw [if_pos hc] at hr
      cases hr
      exact ⟨[], (List.append_nil _).symm, .branchEnd hc⟩
    · rw [if_neg hc] at hr
      obtain ⟨⟨mid, hm⟩, s₁, h₁, hr⟩ := bind_ok hr
      obtain ⟨⟨after, ha⟩, s₂, h₂, hr⟩ := bind_ok hr
      cases hr
      have hp : ∃ ts, s₁.built = outer ++ ts ∧ Parses (.entry ctx line) lines ts mid := by
        cases ctx with
        | statements =>
          obtain ⟨ts, -, hb, hp⟩ := h.statement line lines (Nat.lt_succ_self _) hl hgs _ _ _ _ h₁
          exact ⟨ts, hb, hp⟩
        | recipe =>
          obtain ⟨ts, -, hb, hp⟩ := h.item line lines (Nat.lt_succ_self _) hl hgs _ _ _ _ h₁
          exact ⟨ts, hb, hp⟩
      obtain ⟨ts, hb, hp⟩ := hp
      obtain ⟨us, hb', hp'⟩ :=
        h.branch ctx mid (Nat.lt_succ_of_le hm) (hgs.suffix hp.suffix) _ _ _ _ _ h₂
      refine ⟨ts ++ us, ?_, .branchEntry (by simpa using hc) hp hp'⟩
      rw [hb', hb, List.append_assoc]

theorem recipes_of (h : SoundBelow lines.length) (hg : GoodLines lines) :
    Sound (Parser.recipes lines) [] .recipes lines := by
  intro outer es r s hr
  cases lines with
  | nil =>
    rw [Parser.recipes] at hr
    cases hr
    exact ⟨[], rfl, (List.append_nil _).symm, .recipesEnd rfl⟩
  | cons line lines =>
    have hgs := hg.suffix (List.suffix_cons line lines)
    rw [Parser.recipes] at hr
    by_cases hc : Line.continuesRecipe (line :: lines) = true
    · rw [if_pos hc] at hr
      obtain ⟨_, _, h₁, hr⟩ := bind_ok hr
      cases h₁
      obtain ⟨⟨mid, hm⟩, s₁, h₁, hr⟩ := bind_ok hr
      obtain ⟨⟨after, ha⟩, s₂, h₂, hr⟩ := bind_ok hr
      cases hr
      have hl := hg line List.mem_cons_self
      obtain ⟨ts, hu, hb, hp⟩ := h.item line lines (Nat.lt_succ_self _) hl hgs _ _ _ _ h₁
      obtain ⟨ns, built, es₁⟩ := s₁
      obtain rfl : ns = [] := hu
      obtain ⟨us, hu', hb', hp'⟩ :=
        h.recipes mid (Nat.lt_succ_of_le hm) (hgs.suffix hp.suffix) _ _ _ _ h₂
      refine ⟨ts ++ us, hu', ?_, .recipesItem hc hp hp'⟩
      simp only at hb
      rw [hb', hb, List.append_assoc]
    · rw [if_neg hc] at hr
      cases hr
      exact ⟨[], rfl, (List.append_nil _).symm, .recipesEnd (by simpa using hc)⟩

theorem conditional_of (h : SoundBelow lines.length) (hl : Line.Good line)
    (hg : GoodLines lines) (ctx : Context) {k : ConditionalKind}
    (hk : (Line.afterLeading line).head?.map Nest.kind = some (.keyword (.conditional k))) :
    Sound (Parser.conditional ctx lines) line (.conditional ctx line) lines := by
  intro outer es r s hr
  rw [conditional_eq] at hr
  obtain ⟨s₁, hr, hu, hb⟩ := within_ok hr
  obtain ⟨_, s₂, h₁, hr⟩ := bind_ok hr
  obtain ⟨⟨after, ha⟩, s₃, h₂, hr⟩ := bind_ok hr
  obtain ⟨⟨rest, hle⟩, s₄, h₃, hr⟩ := bind_ok hr
  cases hr
  have hc {R} (hR : Reads R) {j : NodeKind} :=
    consumes_conditionalHeader hR (k := j) hl.single (movable_of_keyword hk)
  obtain ⟨hd, -, hb₁, ht, hheld⟩ :=
    line_ok sim_conditionalHeader (fun _ _ => hc reads_held) hl.closed h₁
  have hsolid := solid_of_line (hc reads_solid (j := .root)) hl.closed ht
  obtain ⟨ns₂, built₂, es₂⟩ := s₂
  obtain ⟨s₃', h₂, hu₂, hb₂⟩ := within_ok h₂
  obtain ⟨br, hbr, hp⟩ := h.branch_of hg ctx _ _ _ _ _ h₂
  have hmid : (s₃'.unread :: after) <:+ lines := hp.suffix
  obtain ⟨ns₃, built₃, es₃⟩ := s₃
  obtain rfl : ns₃ = s₃'.unread := hu₂
  obtain ⟨cl, hu₃, hb₃, hp'⟩ := h.closing ctx _ after ha (hg _ (hmid.subset List.mem_cons_self))
    (hg.suffix ((List.suffix_cons _ _).trans hmid)) _ _ _ _ h₃
  refine ⟨_, hu.trans hu₃, hb, ?_⟩
  simp only [List.nil_append] at hb₁ hb₂ hbr
  subst hb₁ hb₂ hbr
  rw [hb₃, List.append_assoc, List.singleton_append]
  exact .conditional ht hheld hsolid hp hp'

/-- An `else` with a conditional behind it closes the conditional; with a branch behind it, an
`endif` is left. -/
theorem otherwise_of (h : SoundBelow lines.length) (hl : Line.Good line) (hg : GoodLines lines)
    {ctx : Context} (hc : ctx.closing? line = some .otherwise) {es : List Event}
    {r : Bool × Rest lines} {s : Cursor} (hr : otherwise ctx lines ⟨line, [], es⟩ = .ok r s) :
    (r.1 = true ∧ s.unread = [] ∧
      Parses (.closing ctx line) lines [.node .elseBranch s.built] r.2.1) ∨
    (r.1 = false ∧ Line.Good s.unread ∧ ∀ {ts rest}, ctx.closing? s.unread = some .endif →
      Parses (.closing ctx s.unread) r.2.1 ts rest →
        Parses (.closing ctx line) lines (.node .elseBranch s.built :: ts) rest) := by
  rw [otherwise_eq] at hr
  obtain ⟨_, ⟨ns, built, es₁⟩, h₁, ho⟩ := bind_ok hr
  have hk := Context.kind_of_closing? hc
  obtain ⟨us, hd, hus, hb, ht, hheld, -⟩ := stretch_ok uniform_elseKeyword
    (fun _ _ => consumes_elseKeyword reads_held hk) hl.closed h₁
  have hsolid := solid_of_consumes (consumes_elseKeyword (k := .root) reads_solid hk)
    hl.closed ht hus
  simp only [List.nil_append] at hus hb ht
  subst hus hb
  have hl' := hl.suffix
  have ho : (if (ns.head?.map Nest.kind).any TokenKind.isConditional = true then
      Parser.conditional ctx lines >>= fun r => pure (true, r)
    else endOfLine >>= fun _ => within ctx.branch (Parser.branch ctx lines) >>= fun r =>
      pure (false, ⟨r.1, Nat.le_of_lt r.2⟩)) ⟨ns, built, es₁⟩ = .ok r s := ho
  split at ho
  · next hcond =>
    obtain ⟨k, hk'⟩ := Line.conditional_of_head hcond
    obtain ⟨_, s₂, h₂, ho⟩ := bind_ok ho
    cases ho
    obtain ⟨ts, hu, hb, hp⟩ := h.conditional_of hl' hg ctx hk' _ _ _ _ h₂
    rw [hb]
    exact .inl ⟨rfl, hu, .closingChained hc ht hheld hsolid hcond hp⟩
  · next hcond =>
    obtain ⟨_, ⟨ns₂, built₂, es₂⟩, h₂, ho⟩ := bind_ok ho
    obtain ⟨⟨after, ha⟩, s₃, h₃, ho⟩ := bind_ok ho
    cases ho
    have hend {R} (hR : Reads R) {k : NodeKind} := consumes_endOfLine hR (k := k) hl'.single
    obtain ⟨el, -, hb₂, ht', hheld'⟩ :=
      line_ok sim_endOfLine (fun _ _ => hend reads_held) hl'.closed h₂
    have hsolid' := solid_of_line (hend reads_solid (k := .root)) hl'.closed ht'
    obtain ⟨s₄, h₃, hu, hb₃⟩ := within_ok h₃
    obtain ⟨br, hbr, hp⟩ := h.branch_of hg ctx _ _ _ _ _ h₃
    simp only [List.nil_append] at hb₂ hbr
    rw [hu, hb₃, hb₂, hbr, List.append_assoc]
    refine .inr ⟨rfl, hg _ (hp.suffix.subset List.mem_cons_self), ?_⟩
    intro ts rest hm hp'
    exact .closingOtherwise hc ht hheld hsolid (by simpa using hcond) ht' hheld' hsolid' hp hm hp'

theorem closing_of (h : SoundBelow lines.length) (hl : Line.Good line) (hg : GoodLines lines)
    (ctx : Context) : Sound (Parser.closing ctx lines) line (.closing ctx line) lines := by
  intro outer es r s hr
  have hr : (if ctx.closing? line = some .otherwise then
      within .elseBranch (otherwise ctx lines) >>= fun r =>
        (if r.1 = true then pure () else endif ctx) >>= fun _ => pure r.2
      else endif ctx >>= fun _ => pure (.all lines)) ⟨line, outer, es⟩ = .ok r s := hr
  by_cases hc : ctx.closing? line = some .otherwise
  · rw [if_pos hc] at hr
    obtain ⟨⟨chained, rest⟩, ⟨mid, built, es₁⟩, h₁, hr⟩ := bind_ok hr
    obtain ⟨_, s₂, h₂, hr⟩ := bind_ok hr
    cases hr
    obtain ⟨s₃, ho, hu, hb⟩ := within_ok h₁
    simp only at hu hb
    subst hu
    obtain ⟨hch, h0, hp⟩ | ⟨hch, hgm, hp⟩ := h.otherwise_of hl hg hc ho
    all_goals
      simp only at hch
      subst hch
    · cases h₂
      exact ⟨_, h0, hb, hp⟩
    · obtain ⟨ts, h0, hb', hp', hm⟩ := endif_ok hgm h₂
      refine ⟨_, h0, ?_, hp hm hp'⟩
      rw [hb', hb, List.append_assoc, List.singleton_append]
  · rw [if_neg hc] at hr
    obtain ⟨_, s₁, h₁, hr⟩ := bind_ok hr
    cases hr
    obtain ⟨ts, hu, hb, hp, -⟩ := endif_ok hl h₁
    exact ⟨ts, hu, hb, hp⟩

theorem item_of (h : SoundBelow lines.length) (hl : Line.Good line) (hg : GoodLines lines) :
    Sound (Parser.recipeItem line lines) line (.item line) lines := by
  cases hk : LineKind.ofLine line with
  | recipe =>
    refine item_ok hl (p := recipeLine) (by simp [IsItem, hk])
      (fun rest => by rw [Parser.recipeItem, hk]) sim_recipeLine
      fun hR => consumes_recipeLine hR hl.single (LineKind.head_of_recipe hk)
  | blank =>
    refine item_ok hl (p := blankLine) (by simp [IsItem, hk])
      (fun rest => by rw [Parser.recipeItem, hk]) sim_blankLine
      fun hR => consumes_blankLine hR hl.single (LineKind.head_of_blank hk)
  | comment =>
    exact item_ok hl (p := commentLine) (by simp [IsItem, hk])
      (fun rest => by rw [Parser.recipeItem, hk]) sim_commentLine
      fun hR => consumes_commentLine hR hl.single
  | keyword k =>
    intro outer es r s hr
    rw [Parser.recipeItem, hk] at hr
    cases k with
    | conditional c =>
      obtain ⟨ts, hu, hb, hp⟩ := h.conditional_of hl hg .recipe (LineKind.kind_of_keyword hk)
        _ _ _ _ hr
      exact ⟨ts, hu, hb, .itemConditional hk hp⟩
    | _ => cases hr
  | other =>
    intro outer es r s hr
    rw [Parser.recipeItem, hk] at hr
    cases hr

theorem statement_of (h : SoundBelow lines.length) (hl : Line.Good line) (hg : GoodLines lines) :
    Sound (Parser.statement lines) line (.statement line) lines := by
  intro outer es r s hr
  rcases statement_cases line with ⟨hp, hs⟩ | ⟨⟨k, hk⟩, hs⟩ | ⟨hs⟩ | ⟨hr', hs⟩
  · obtain ⟨es', he⟩ := hs lines outer es
    rw [he] at hr
    obtain ⟨_, s₁, h₁, hr⟩ := bind_ok hr
    cases hr
    obtain ⟨ts, hu, hb, ht, hheld, hst⟩ := hp.ok hl h₁
    refine ⟨ts, hu, hb, .single (fun rest => ?_) hheld hst⟩
    exact TakesRest.of_eq ⟨Rest.all rest, rfl, ht.map_value⟩ (hs rest)
  · obtain ⟨es', he⟩ := hs lines outer es
    rw [he] at hr
    obtain ⟨ts, hu, hb, hp⟩ := h.conditional_of hl hg .statements hk _ _ _ _ hr
    exact ⟨ts, hu, hb, .statementConditional ⟨k, hk⟩ hp⟩
  · obtain ⟨es', he⟩ := hs lines outer es
    rw [he] at hr
    obtain ⟨used, ts, hlines, hu, hb, ht, hheld, hst⟩ := definition_ok hl hg hr
    refine ⟨ts, hu, hb, ?_⟩
    obtain ⟨rest, hle⟩ := r
    simp only at hlines
    subst hlines
    exact .alone (fun rest => (ht rest).of_eq (hs _)) hheld hst
  · obtain ⟨es', he⟩ := hs lines outer es
    rw [he] at hr
    obtain ⟨s₁, hr, hu, hb⟩ := within_ok hr
    obtain ⟨continues, s₂, h₁, hr⟩ := bind_ok hr
    obtain ⟨hd, h0, hb₂, ht, hheld⟩ := line_ok sim_ruleHeader
      (fun _ _ => consumes_ruleHeader reads_held hl.single) hl.closed h₁
    obtain ⟨ns₂, built₂, es₂⟩ := s₂
    simp only [List.nil_append] at h0 hb₂
    subst h0 hb₂
    cases continues with
    | true =>
      obtain ⟨ts, hu', hb', hp⟩ := h.recipes_of hg _ _ _ _ hr
      refine ⟨_, hu.trans hu', hb, ?_⟩
      rw [hb']
      exact .rule hr' ht hheld hp
    | false =>
      cases hr
      refine ⟨_, hu, hb, .single (fun rest => ?_) ?_ (.inl ⟨_, _, rfl⟩)⟩
      · have hh : Takes (ruleHeader >>= fun b => if b = true then Parser.recipes rest
            else pure (Rest.all rest)) line (Rest.all rest) [] (built₂ ++ []) := ht.bind takes_pure
        rw [List.append_nil] at hh
        exact TakesRest.of_eq ⟨Rest.all rest, rfl, hh.within .rule⟩ (hs rest)
      · exact hheld.node ⟨by decide, by decide⟩ (by decide)

end SoundBelow

theorem soundBelow (n : Nat) : SoundBelow n := by
  induction n with
  | zero => exact ⟨nofun, nofun, nofun, nofun, nofun⟩
  | succ n ih =>
    have h (lines : List Line) (hl : lines.length < n + 1) : SoundBelow lines.length := by
      have hle := Nat.le_of_lt_succ hl
      exact ⟨fun l ls hs => ih.1 l ls (by omega), fun l ls hs => ih.2 l ls (by omega),
        fun c l ls hs => ih.3 c l ls (by omega), fun c ls hs => ih.4 c ls (by omega),
        fun ls hs => ih.5 ls (by omega)⟩
    exact ⟨fun _ ls hl => (h ls hl).statement_of, fun _ ls hl => (h ls hl).item_of,
      fun c _ ls hl hg hgs => (h ls hl).closing_of hg hgs c,
      fun c ls hl hgs => (h ls hl).branch_of hgs c, fun ls hl => (h ls hl).recipes_of⟩

/-- Statements that are parsed are parsed as the relation says. -/
theorem parses_of_ok {lines : List Line} (hg : GoodLines lines) {ns : List Nest}
    {outer : List Tree} {es : List Event} {a : Unit} {s : Cursor}
    (h : statements lines ⟨ns, outer, es⟩ = .ok a s) :
    ∃ ts, s.built = outer ++ ts ∧ Parses .file lines ts [] := by
  induction hn : lines.length using Nat.strong_induction_on generalizing lines ns outer es with
  | _ n ih =>
    cases lines with
    | nil =>
      rw [statements] at h
      cases h
      exact ⟨[], (List.append_nil _).symm, .fileEnd⟩
    | cons line lines =>
      have hgs := hg.suffix (List.suffix_cons line lines)
      rw [statements] at h
      obtain ⟨_, _, h₁, h⟩ := bind_ok h
      cases h₁
      obtain ⟨⟨mid, hm⟩, ⟨ns₁, built₁, es₁⟩, h₁, h⟩ := bind_ok h
      obtain ⟨ts, -, hb, hp⟩ :=
        (soundBelow lines.length).statement_of (hg line List.mem_cons_self) hgs _ _ _ _ h₁
      rw [List.length_cons] at hn
      obtain ⟨us, hb', hp'⟩ := ih mid.length (by omega) (hgs.suffix hp.suffix) h rfl
      refine ⟨ts ++ us, ?_, .fileStatement hp hp'⟩
      simp only at hb
      rw [hb', hb, List.append_assoc]

end Parser

end MakeTree
