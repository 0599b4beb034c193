import MakeTree.Proofs.Grammar.Dispatch
import MakeTree.Proofs.Grammar.Rows

/-!
Where a line is parted. The parser looks for a colon or an assignment operator among the nests of a
line, where expansions count as one; on the tokens that is the first one outside every expansion,
unless a comment is in front of it (`separator?_eq_some`).
-/

namespace MakeTree

namespace Nest

def opens (us : List Nest) : Nat := us.countP (·.kind == .expansionPrefix)

def closes (us : List Nest) : Nat := us.countP (·.kind == .expansionSuffix)

/-- All expansions that the tokens open they close. -/
def Outside (us : List Nest) : Prop := opens us = closes us

section Counts

variable (us vs : List Nest)

@[simp] theorem opens_nil : opens [] = 0 := rfl

@[simp] theorem closes_nil : closes [] = 0 := rfl

@[simp] theorem opens_append : opens (us ++ vs) = opens us + opens vs := List.countP_append

@[simp] theorem closes_append : closes (us ++ vs) = closes us + closes vs := List.countP_append

theorem opens_cons (n : Nest) :
    opens (n :: us) = opens us + if n.kind = .expansionPrefix then 1 else 0 := by
  simp [opens, List.countP_cons]

theorem closes_cons (n : Nest) :
    closes (n :: us) = closes us + if n.kind = .expansionSuffix then 1 else 0 := by
  simp [closes, List.countP_cons]

end Counts

theorem Outside.append_iff {us vs : List Nest} (h : Outside us) :
    Outside (us ++ vs) ↔ Outside vs := by
  rw [Outside] at h
  simp only [Outside, opens_append, closes_append]
  omega

theorem outside_singleton {n : Nest} (hp : n.kind ≠ .expansionPrefix)
    (hs : n.kind ≠ .expansionSuffix) : Outside [n] := by
  simp [Outside, opens_cons, closes_cons, hp, hs]

mutual

theorem outside_flatten {n : Nest} (h : n.Closed) : Outside n.flatten := by
  match n with
  | leaf x => exact outside_singleton h.1 h.2
  | quoted x inside trailing =>
    have hk : (quoted x inside trailing).kind = .stringLiteral := h
    exact outside_singleton (by simp [hk]) (by simp [hk])
  | raw x =>
    have hk : (raw x).kind = .stringLiteral := h
    exact outside_singleton (by simp [hk]) (by simp [hk])
  | expansion opener body closer =>
    have hb : opens (flattenAll body) = closes (flattenAll body) := outside_flattenAll h.2.1
    have ho : (leaf opener).kind = .expansionPrefix := h.1
    have hc : (leaf closer).kind = .expansionSuffix := h.2.2
    simp [Outside, flatten, opens_cons, closes_cons, ho, hc, hb]

theorem outside_flattenAll {ns : List Nest} (h : ClosedAll ns) : Outside (flattenAll ns) := by
  match ns with
  | [] => rfl
  | n :: ns => exact (outside_flatten h.1).append_iff.2 (outside_flattenAll h.2)

end

mutual

theorem closes_lt {n : Nest} (h : n.Closed) {us vs : List Nest} (he : n.flatten = us ++ vs)
    (hu : us ≠ []) (hv : vs ≠ []) : closes us < opens us := by
  obtain ⟨u, us, rfl⟩ := List.exists_cons_of_ne_nil hu
  obtain ⟨vs, v, rfl⟩ := (List.eq_nil_or_concat' vs).resolve_left hv
  match n with
  | leaf x => simp [flatten] at he
  | quoted x inside trailing => simp [flatten] at he
  | raw x => simp [flatten] at he
  | expansion opener body closer =>
    rw [flatten, List.cons_append, ← List.append_assoc] at he
    obtain ⟨rfl, hbody⟩ := List.cons.inj he
    have hle := closes_le h.2.1 (List.append_inj' hbody rfl).1
    have ho : (leaf opener).kind = .expansionPrefix := h.1
    simp only [opens_cons, closes_cons, ho]
    simp
    omega

theorem closes_le {ns : List Nest} (h : ClosedAll ns) {us vs : List Nest}
    (he : flattenAll ns = us ++ vs) : closes us ≤ opens us := by
  match ns with
  | [] =>
    rw [(List.append_eq_nil_iff.1 he.symm).1]
    exact le_rfl
  | n :: ns =>
    obtain ⟨as, rfl, hs⟩ | ⟨bs, hn, -⟩ := List.append_eq_append_iff.1 he
    · have hn : opens n.flatten = closes n.flatten := outside_flatten h.1
      have hle := closes_le h.2 hs
      simp only [opens_append, closes_append]
      omega
    · by_cases hu : us = []
      · subst hu
        exact le_rfl
      · by_cases hb : bs = []
        · rw [hb, List.append_nil] at hn
          rw [← hn]
          exact (outside_flatten h.1).ge
        · exact (closes_lt h.1 hn hu hb).le

end

/-- A colon or an assignment operator. -/
def isSeparator (n : Nest) : Bool := n.isColon || n.isAssignOp

/-- Where the search for a separator ends. -/
def endsSearch (n : Nest) : Bool := n.isSeparator || n.isComment

theorem kind_of_isSeparator {n : Nest} (h : n.isSeparator = true) :
    n.kind = .colon ∨ n.kind = .assignOp := by
  simpa [isSeparator, isColon, isAssignOp] using h

theorem not_isComment_of_isSeparator {n : Nest} (h : n.isSeparator = true) :
    n.isComment = false := by
  rcases kind_of_isSeparator h with hk | hk <;> simp [isComment, hk]

theorem not_isLineBreak_of_isSeparator {n : Nest} (h : n.isSeparator = true) :
    n.isLineBreak = false := by
  rcases kind_of_isSeparator h with hk | hk <;> simp [isLineBreak, hk]

theorem endsSearch_congr {m n : Nest} (h : m.kind = n.kind) : m.endsSearch = n.endsSearch := by
  simp only [endsSearch, isSeparator, isColon, isAssignOp, isComment, h]

theorem endsSearch_of_isSeparator {n : Nest} (h : n.isSeparator = true) : n.endsSearch = true := by
  rw [endsSearch, h, Bool.true_or]

theorem flatten_of_endsSearch {n : Nest} (hc : n.Closed) (h : n.endsSearch = true) :
    n.flatten = [n] := by
  refine flatten_eq_of_closed hc fun hk => ?_
  simp [endsSearch, isSeparator, isColon, isAssignOp, isComment, hk] at h

theorem endsSearch_of_flatten {n m : Nest} (hc : n.Closed) {us vs : List Nest}
    (he : n.flatten = us ++ m :: vs) (ho : Outside us) : m.endsSearch = n.endsSearch := by
  cases us with
  | nil =>
    have hh := head_flattenAll [n]
    rw [flattenAll, flattenAll, List.append_nil, he] at hh
    exact endsSearch_congr (Option.some.inj hh)
  | cons u us => exact absurd ho (closes_lt hc he (by simp) (by simp)).ne'

end Nest

namespace Line

/-- `n`, behind `us`, is the first colon or assignment operator of the row that is outside every
expansion, and no comment outside every expansion is in front of it. -/
structure SeparatedBy (row us : Line) (n : Nest) : Prop where
  split : ∃ vs, row = us ++ n :: vs
  separator : n.isSeparator = true
  outside : Nest.Outside us
  first : ∀ vs m ws, us = vs ++ m :: ws → Nest.Outside vs → m.endsSearch = false

/-- The same of a line whose expansions are gathered. -/
structure PartedBy (line us : Line) (n : Nest) : Prop where
  split : ∃ vs, line = us ++ n :: vs
  separator : n.isSeparator = true
  first : ∀ m ∈ us, m.endsSearch = false

variable {row line us : Line} {n m : Nest}

theorem separatedBy_flatten_append (hc : m.Closed) (hm : m.endsSearch = false) :
    SeparatedBy (m.flatten ++ row) us n ↔ ∃ vs, us = m.flatten ++ vs ∧ SeparatedBy row vs n := by
  have ho := Nest.outside_flatten hc
  constructor
  · rintro ⟨⟨ws, hrow⟩, hsep, hout, hfirst⟩
    obtain ⟨as, rfl, hrest⟩ | ⟨bs, hn, hrest⟩ := List.append_eq_append_iff.1 hrow
    · refine ⟨as, rfl, ⟨ws, hrest⟩, hsep, ho.append_iff.1 hout, fun vs k xs hk hv => ?_⟩
      exact hfirst (m.flatten ++ vs) k xs (by rw [hk, List.append_assoc]) (ho.append_iff.2 hv)
    · cases bs with
      | nil =>
        rw [List.append_nil] at hn
        exact ⟨[], by rw [hn, List.append_nil], ⟨ws, hrest.symm⟩, hsep, rfl, fun vs k xs hk => by
          simp at hk⟩
      | cons b bs =>
        obtain ⟨rfl, -⟩ := List.cons.inj hrest
        have hends := Nest.endsSearch_of_flatten hc hn hout
        rw [hm, Nest.endsSearch_of_isSeparator hsep] at hends
        cases hends
  · rintro ⟨vs, rfl, ⟨ws, rfl⟩, hsep, hout, hfirst⟩
    refine ⟨⟨ws, (List.append_assoc _ _ _).symm⟩, hsep, ho.append_iff.2 hout, ?_⟩
    intro xs k ys hk hx
    obtain ⟨as, rfl, hv⟩ | ⟨bs, hn, hv⟩ := List.append_eq_append_iff.1 hk
    · exact hfirst as k ys hv (ho.append_iff.1 hx)
    · cases bs with
      | nil => exact hfirst [] k ys hv.symm rfl
      | cons b bs =>
        obtain ⟨rfl, -⟩ := List.cons.inj hv
        rw [Nest.endsSearch_of_flatten hc hn hx, hm]

theorem separatedBy_cons (hm : m.endsSearch = true) :
    SeparatedBy (m :: row) us n ↔ us = [] ∧ n = m ∧ m.isSeparator = true := by
  constructor
  · rintro ⟨⟨ws, hrow⟩, hsep, -, hfirst⟩
    cases us with
    | nil =>
      obtain ⟨rfl, -⟩ := List.cons.inj hrow
      exact ⟨rfl, rfl, hsep⟩
    | cons u us =>
      obtain ⟨rfl, -⟩ := List.cons.inj hrow
      exact absurd (hfirst [] m us rfl rfl) (by simp [hm])
  · rintro ⟨rfl, rfl, hsep⟩
    exact ⟨⟨row, rfl⟩, hsep, rfl, fun vs k ws hk => by simp at hk⟩

/-- The first separator of the tokens is the first one among the nests. -/
theorem separatedBy_flattenAll (h : Nest.ClosedAll line) :
    SeparatedBy (Nest.flattenAll line) us n ↔
      ∃ ms, us = Nest.flattenAll ms ∧ PartedBy line ms n := by
  induction line generalizing us with
  | nil =>
    constructor
    · rintro ⟨⟨ws, hrow⟩, -⟩
      simp [Nest.flattenAll] at hrow
    · rintro ⟨ms, -, ⟨ws, hline⟩, -⟩
      simp at hline
  | cons m line ih =>
    rw [Nest.flattenAll]
    cases hm : m.endsSearch with
    | true =>
      rw [Nest.flatten_of_endsSearch h.1 hm, List.singleton_append, separatedBy_cons hm]
      constructor
      · rintro ⟨rfl, rfl, hsep⟩
        exact ⟨[], rfl, ⟨line, rfl⟩, hsep, nofun⟩
      · rintro ⟨ms, rfl, ⟨ws, hline⟩, hsep, hfirst⟩
        cases ms with
        | nil =>
          obtain ⟨rfl, -⟩ := List.cons.inj hline
          exact ⟨rfl, rfl, hsep⟩
        | cons k ms =>
          obtain ⟨rfl, -⟩ := List.cons.inj hline
          exact absurd (hfirst m List.mem_cons_self) (by simp [hm])
    | false =>
      rw [separatedBy_flatten_append h.1 hm]
      constructor
      · rintro ⟨vs, rfl, hsep⟩
        obtain ⟨ms, rfl, ⟨ws, hline⟩, hsep, hfirst⟩ := (ih h.2).1 hsep
        exact ⟨m :: ms, rfl, ⟨ws, by rw [hline, List.cons_append]⟩, hsep,
          List.forall_mem_cons.2 ⟨hm, hfirst⟩⟩
      · rintro ⟨ms, rfl, ⟨ws, hline⟩, hsep, hfirst⟩
        cases ms with
        | nil =>
          obtain ⟨rfl, -⟩ := List.cons.inj hline
          rw [Nest.endsSearch_of_isSeparator hsep] at hm
          cases hm
        | cons k ms =>
          obtain ⟨rfl, hrest⟩ := List.cons.inj hline
          exact ⟨Nest.flattenAll ms, rfl, (ih h.2).2
            ⟨ms, rfl, ⟨ws, hrest⟩, hsep, (List.forall_mem_cons.1 hfirst).2⟩⟩

theorem PartedBy.not_breaksLine (h : PartedBy line us n) (hl : Nest.Single line)
    (hs : ∀ m ∈ line, Parser.Solid m) : ∀ m ∈ us ++ [n], m.breaksLine = false := by
  obtain ⟨⟨vs, rfl⟩, hsep, -⟩ := h
  intro m hm
  have hmem : m ∈ us ++ n :: vs := by
    rw [List.append_cons]
    exact List.mem_append_left vs hm
  rw [Nest.breaksLine, List.any_eq_false]
  intro x hx hb
  have hbreak := hs m hmem x hx hb
  rcases List.mem_append.1 hm with hm | hm
  · obtain ⟨as, bs, rfl⟩ := List.append_of_mem hm
    have := hl as m (bs ++ n :: vs) (by simp) hbreak
    simp at this
  · exact absurd hbreak (by simp [List.mem_singleton.1 hm, Nest.not_isLineBreak_of_isSeparator hsep])

theorem separator?_eq_some (hl : Nest.Single line) (hs : ∀ m ∈ line, Parser.Solid m)
    {t : TokenKind} : separator? line = some t ↔ ∃ us n, PartedBy line us n ∧ n.kind = t := by
  rw [separator?, Option.map_eq_some_iff]
  constructor
  · rintro ⟨n, hf, rfl⟩
    obtain ⟨hsep, us, vs, hh, hus⟩ := List.find?_eq_some_iff_append.1 hf
    obtain ⟨ws, hline⟩ : header line <+: line := List.takeWhile_prefix _
    rw [hh, List.append_assoc] at hline
    refine ⟨us, n, ⟨⟨vs ++ ws, hline.symm⟩, hsep, fun m hm => ?_⟩, rfl⟩
    have hmem : m ∈ header line := hh ▸ List.mem_append_left _ hm
    have hin := List.mem_takeWhile_imp hmem
    have hnot := hus m hm
    simp_all [Nest.endsSearch, Nest.isSeparator]
  · rintro ⟨us, n, h, rfl⟩
    have hb := h.not_breaksLine hl hs
    obtain ⟨⟨vs, rfl⟩, hsep, hfirst⟩ := h
    have hc (m : Nest) (hm : m ∈ us ++ [n]) : m.isComment = false := by
      rcases List.mem_append.1 hm with hm | hm
      · have := hfirst m hm
        simp_all [Nest.endsSearch]
      · exact List.mem_singleton.1 hm ▸ Nest.not_isComment_of_isSeparator hsep
    refine ⟨n, ?_, rfl⟩
    rw [header, List.append_cons, List.takeWhile_append_of_pos fun m hm => by
      simp [hb m hm, hc m hm]]
    rw [List.append_assoc, List.find?_append, List.find?_eq_none.2 fun m hm => ?_]
    · rw [Option.none_or, List.singleton_append, List.find?_cons_of_pos (by exact hsep)]
    · have := hfirst m hm
      simp_all [Nest.endsSearch, Nest.isSeparator]

theorem separator?_afterLeading (h : Nest.ClosedAll line) :
    separator? (afterLeading line) = separator? line := by
  induction line with
  | nil => rfl
  | cons n line ih =>
    by_cases hn : n.kind.isLeading = true
    · rw [afterLeading_of_isLeading hn, ih h.2]
      have hk : n.kind = .whitespace ∨ n.kind = .recipePrefix := by
        unfold TokenKind.isLeading at hn
        split at hn
        · next hk => exact .inl hk
        · next hk => exact .inr hk
        · cases hn
      have hb : n.breaksLine = false := by
        rw [Nest.breaksLine, Nest.flatten_eq_of_closed h.1 (by rcases hk with hk | hk <;> simp [hk])]
        rcases hk with hk | hk <;> simp [Nest.isLineBreak, hk]
      have hc : (n.isComment || n.isColon || n.isAssignOp) = false := by
        rcases hk with hk | hk <;> simp [Nest.isComment, Nest.isColon, Nest.isAssignOp, hk]
      simp only [Bool.or_eq_false_iff] at hc
      rw [separator?, separator?, header, header, List.takeWhile_cons_of_pos (by simp [hb, hc.1.1]),
        List.find?_cons_of_neg (by simp [hc.1.2, hc.2])]
    · rw [afterLeading_of_not_isLeading hn]

end Line

end MakeTree
