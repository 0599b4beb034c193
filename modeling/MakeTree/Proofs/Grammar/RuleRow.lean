import MakeTree.Proofs.Grammar.Dispatch
import MakeTree.Proofs.Grammar.WordTrees

/-!
The first line of a rule, cut where its parts end: the targets and the colons (`TargetRow`), and
behind them an assignment or two lists and a command (`RestRow`). The trees of the line are those of
the parts (`gives_ruleHeader`).
-/

namespace MakeTree

namespace Nest

def isBar (n : Nest) : Bool := n.isText ['|']

def isSemicolon (n : Nest) : Bool := n.isText [';']

/-- Whether a list of prerequisites ends in front of the nest. -/
def endsList (n : Nest) : Bool := n.endsLine || (n.isBar || n.isSemicolon)

/-- The trees of a list that has no node if it is empty. -/
def listTrees (kind : NodeKind) (us : List Nest) : List Tree :=
  if us = [] then [] else [.node kind (wordTrees us)]

end Nest

/-- The targets of a rule and its colons, with the blanks beside them. -/
structure TargetRow where
  lead : List Nest
  words : List Nest
  gap : List Nest
  colon : Nest
  second : Option Nest
  blanks : List Nest

namespace TargetRow

/-- What stands behind the targets. -/
def separators (r : TargetRow) : List Nest := r.gap ++ r.colon :: (r.second.toList ++ r.blanks)

def nests (r : TargetRow) : List Nest := r.lead ++ (r.words ++ r.separators)

def trees (r : TargetRow) : List Tree :=
  Nest.treesOf r.lead ++ .node .targets (Nest.wordTrees r.words) :: Nest.treesOf r.separators

/-- The parts end where they have to, in front of `rest`. A second colon counts if nothing is between
it and the first. -/
structure Cut (r : TargetRow) (rest : List Nest) : Prop where
  lead : Nest.Skipped (·.kind.isLeading) r.lead (r.words ++ r.separators)
  words : ∀ n ∈ r.words, n.endsLine = false ∧ n.isColon = false
  gap : ∀ n ∈ r.gap, n.isWhitespace = true
  colon : r.colon.isColon = true
  second : ∀ n ∈ r.second, n.isColon = true ∧ n.first.leading = []
  next : r.second = none → ∀ n ∈ (r.blanks ++ rest).head?,
    ¬ (n.isColon = true ∧ n.first.leading = [])
  blanks : Nest.Skipped Nest.isWhitespace r.blanks rest

end TargetRow

/-- A list of prerequisites and the blanks behind it. -/
structure ListRow where
  words : List Nest
  gap : List Nest

namespace ListRow

def nests (r : ListRow) : List Nest := r.words ++ r.gap

def trees (r : ListRow) (kind : NodeKind) : List Tree :=
  Nest.listTrees kind r.words ++ Nest.treesOf r.gap

structure Cut (r : ListRow) (rest : List Nest) : Prop where
  words : ∀ n ∈ r.words, n.endsList = false
  gap : ∀ n ∈ r.gap, n.isWhitespace = true
  next : ∀ n ∈ rest.head?, n.endsList = true

end ListRow

/-- A command behind what leads it, and the blanks and the line break behind it. -/
structure CommandRow where
  lead : Nest
  blanks : List Nest
  command : List Nest
  tail : List Nest

namespace CommandRow

def nests (r : CommandRow) : List Nest := r.lead :: (r.blanks ++ (r.command ++ r.tail))

def trees (r : CommandRow) : List Tree :=
  Nest.treesOf (r.lead :: r.blanks) ++ .node .expression (Nest.treesOf r.command) ::
    Nest.treesOf r.tail

structure Cut (r : CommandRow) : Prop where
  blanks : Nest.Skipped Nest.isWhitespace r.blanks (r.command ++ r.tail)
  command : Nest.Spanned (fun _ => false) r.command r.tail
  tail : ∀ n ∈ r.tail.dropWhile Nest.isWhitespace, n.isLineBreak = true

end CommandRow

/-- The list behind a bar, if there is one, in front of `rest`. -/
inductive OrderRow : List Nest → List Nest → List Tree → Prop
  | none {rest : List Nest} (hb : ∀ n ∈ rest.head?, n.isBar = false)
      (hr : ∀ n ∈ rest.head?, n.endsList = true) : OrderRow [] rest []
  | list {bar : Nest} {blanks rest : List Nest} {r : ListRow} (hb : bar.isBar = true)
      (hs : Nest.Skipped Nest.isWhitespace blanks (r.nests ++ rest)) (hr : r.Cut rest) :
      OrderRow (bar :: (blanks ++ r.nests)) rest
        (Nest.treesOf (bar :: blanks) ++ r.trees .orderOnly)

/-- The end of the line: a command behind a semicolon, or at most a comment. -/
inductive EndRow : List Nest → List Tree → Prop
  | command {r : CommandRow} (hl : r.lead.isSemicolon = true) (hr : r.Cut) :
      EndRow r.nests [.node .recipe r.trees]
  | plain {ns : List Nest} (hs : ∀ n ∈ ns.head?, n.isSemicolon = false)
      (hn : ∀ n ∈ ns.dropWhile Nest.isWhitespace, n.isComment = true ∨ n.isLineBreak = true) :
      EndRow ns (Nest.treesOf ns)

/-- What stands behind the colons: an assignment, or the lists of prerequisites and the end of the
line. -/
inductive RestRow : List Nest → Bool → List Tree → Prop
  | assigns {rest : List Nest} {us : List Tree}
      (ha : Line.hasAssignOp (rest.takeWhile (!·.isText [';'])) = true)
      (h : Parser.Held rest [.node .assignment us]) : RestRow rest false [.node .assignment us]
  | lists {r : ListRow} {us tail : List Nest} {ts vs : List Tree}
      (ha : Line.hasAssignOp ((r.nests ++ (us ++ tail)).takeWhile (!·.isText [';'])) = false)
      (hr : r.Cut (us ++ tail)) (ho : OrderRow us tail ts) (he : EndRow tail vs) :
      RestRow (r.nests ++ (us ++ tail)) true (r.trees .prerequisites ++ (ts ++ vs))

namespace Parser

variable {ns : List Nest}

theorem not_stop_of_isWhitespace {n : Nest} (h : n.isWhitespace = true) :
    n.endsList = false ∧ n.isColon = false := by
  have hk : n.kind = .whitespace := beq_iff_eq.1 h
  have ht (s : Text) : n.isText s = false := by
    rw [Nest.isText, Token.isText, show n.token.kind = .whitespace from hk]
    rfl
  simp [Nest.endsList, Nest.endsLine, Nest.isLineBreak, Nest.isComment, Nest.isBar,
    Nest.isSemicolon, Nest.isColon, ht, hk]

theorem gives_targets : Gives targets ns fun _ ms ts =>
    ∃ r : TargetRow, ns = r.nests ++ ms ∧ ts = r.trees ∧ r.Cut ms := by
  refine gives_bind gives_moveWhile fun _ ms ts hm => ?_
  obtain ⟨lead, rfl, rfl, hlead⟩ := hm
  refine gives_bind gives_refuse fun _ ms' ts hm => ?_
  obtain ⟨rfl, rfl, -⟩ := hm
  have hw (n : Nest) (hn : n.isWhitespace = true) := (not_stop_of_isWhitespace hn).2
  refine gives_bind (gives_within (gives_words hw)) fun _ ls ts hls => ?_
  obtain ⟨us, rfl, words, rfl, rfl, hwords⟩ := hls
  refine gives_bind gives_moveWhile fun _ ls' ts hg => ?_
  obtain ⟨gap, rfl, rfl, hgap⟩ := hg
  refine gives_bind gives_expect fun _ ms ts hc => ?_
  obtain ⟨colon, hcolon, rfl, rfl⟩ := hc
  refine gives_bind gives_advanceIf fun _ ls ts hm => ?_
  obtain ⟨second, rfl, rfl, hsecond, hnext⟩ : ∃ second : Option Nest, ms = second.toList ++ ls ∧
      ts = Nest.treesOf second.toList ∧
      (∀ n ∈ second, n.isColon = true ∧ n.first.leading = []) ∧
      (second = none → ∀ n ∈ ls.head?, ¬ (n.isColon = true ∧ n.first.leading = [])) := by
    obtain ⟨n, hn, rfl, rfl⟩ | ⟨hn, rfl, rfl⟩ := hm
    · exact ⟨some n, rfl, rfl, by simpa using hn, nofun⟩
    · refine ⟨none, rfl, rfl, nofun, fun _ m hm => ?_⟩
      rw [hm] at hn
      simpa using hn
  refine gives_moveWhile.mono ?_
  rintro _ rest ts ⟨blanks, rfl, rfl, hblanks⟩
  refine ⟨⟨lead, words, gap, colon, second, blanks⟩, ?_, ?_, ?_⟩
  · simp [TargetRow.nests, TargetRow.separators]
  · have hsep : Nest.treesOf (gap ++ colon :: (second.toList ++ blanks)) = Nest.treesOf gap ++
        (Nest.treesOf [colon] ++ (Nest.treesOf second.toList ++ Nest.treesOf blanks)) := by
      rw [← Nest.treesOf_append, ← Nest.treesOf_append, ← Nest.treesOf_append]
      rfl
    rw [TargetRow.trees, TargetRow.separators, hsep]
    rfl
  · refine ⟨⟨hlead.all, fun n hn => hlead.next n ?_⟩, fun n hn => ?_, hgap.all, hcolon, hsecond,
      hnext, hblanks⟩
    · simpa [TargetRow.separators, List.head?_append] using hn
    · obtain ⟨hl, hs⟩ := hwords.all n hn
      rw [Bool.or_eq_false_iff] at hs
      exact ⟨by rw [Nest.endsLine, hl, hs.1]; rfl, hs.2⟩

theorem gives_prerequisites (kind : NodeKind) (hns : ∀ n ∈ ns.head?, n.isWhitespace = false) :
    Gives (prerequisites kind) ns fun _ ms ts =>
      ∃ r : ListRow, ns = r.nests ++ ms ∧ ts = r.trees kind ∧ r.Cut ms := by
  have hends (n : Nest) : (n.isLineBreak || n.isComment || endsPrerequisites n) = n.endsList := rfl
  refine gives_endsOr_bind (gives_ite (fun h => ?_) fun h => ?_)
  · refine gives_pure ⟨⟨[], []⟩, rfl, rfl, nofun, nofun, fun n hn => ?_⟩
    rw [hn] at h
    exact h
  · obtain ⟨n, ns, rfl⟩ : ∃ n ms, ns = n :: ms := by
      cases ns with
      | nil => exact absurd rfl h
      | cons n ns => exact ⟨n, ns, rfl⟩
    have hn : n.endsList = false := by simpa [hends] using h
    refine gives_bind (gives_within (gives_words fun m hm => ?_)) fun _ ls ts hls => ?_
    · exact (Bool.or_eq_false_iff.1 (not_stop_of_isWhitespace hm).1).2
    obtain ⟨us, rfl, words, he, rfl, hwords⟩ := hls
    refine gives_moveWhile.mono ?_
    rintro _ ms ts ⟨gap, rfl, rfl, hgap⟩
    have hne : words ≠ [] := by
      simp only [Nest.endsList, Nest.endsLine, Bool.or_eq_false_iff] at hn
      refine hwords.ne_nil he.symm (hns n rfl) hn.1.1 ?_
      rw [Bool.or_eq_false_iff, endsPrerequisites, Bool.or_eq_false_iff]
      exact ⟨hn.1.2, hn.2⟩
    refine ⟨⟨words, gap⟩, ?_, ?_, fun m hm => ?_, hgap.all, fun m hm => ?_⟩
    · rw [he, ListRow.nests, List.append_assoc]
    · rw [ListRow.trees, Nest.listTrees, if_neg hne]
    · obtain ⟨hl, hs⟩ := hwords.all m hm
      rw [← hends, hl, Bool.false_or]
      exact hs
    · have hnext := hwords.next m (by rwa [hgap.dropWhile])
      rw [← hends, Bool.or_assoc, Bool.or_eq_true]
      exact hnext

theorem gives_orderOnly (hns : ∀ n ∈ ns.head?, n.endsList = true) : Gives orderOnly ns
    fun _ ms ts => ∃ us, ns = us ++ ms ∧ OrderRow us ms ts := by
  refine gives_nextIs_bind (gives_ite (fun h => ?_) fun h => ?_)
  · obtain ⟨bar, ns, rfl⟩ : ∃ n ms, ns = n :: ms := by
      cases ns with
      | nil => cases h
      | cons n ns => exact ⟨n, ns, rfl⟩
    refine gives_bind (gives_advance bar ns) fun _ ms ts hm => ?_
    obtain ⟨rfl, rfl⟩ := hm
    refine gives_bind gives_moveWhile fun _ ms ts hm => ?_
    obtain ⟨blanks, rfl, rfl, hblanks⟩ := hm
    refine (gives_prerequisites .orderOnly hblanks.next).mono ?_
    rintro _ ms ts ⟨r, rfl, rfl, hr⟩
    refine ⟨bar :: (blanks ++ r.nests), by simp, ?_⟩
    have htrees : Nest.treesOf [bar] ++ (Nest.treesOf blanks ++ r.trees .orderOnly) =
        Nest.treesOf (bar :: blanks) ++ r.trees .orderOnly := by
      rw [← List.append_assoc, ← Nest.treesOf_append]
      rfl
    rw [htrees]
    exact .list h hblanks hr
  · refine gives_pure ⟨[], rfl, .none (fun n hn => ?_) hns⟩
    rw [hn] at h
    simpa [Nest.isBar] using h

theorem gives_command {n : Nest} (hs : Nest.Single (n :: ns)) : Gives command (n :: ns)
    fun _ ms ts => ms = [] ∧
      ∃ r : CommandRow, n :: ns = r.nests ∧ r.lead = n ∧ ts = r.trees ∧ r.Cut := by
  refine gives_bind (gives_advance n ns) fun _ ms ts hm => ?_
  obtain ⟨rfl, rfl⟩ := hm
  refine gives_bind gives_moveWhile fun _ ms ts hm => ?_
  obtain ⟨blanks, rfl, rfl, hblanks⟩ := hm
  refine gives_bind (gives_expression fun _ _ => rfl) fun _ ms ts hm => ?_
  obtain ⟨words, rfl, rfl, hwords⟩ := hm
  refine gives_bind gives_moveWhile fun _ ms ts hm => ?_
  obtain ⟨gap, rfl, rfl, hgap⟩ := hm
  have hnext := hwords.next
  rw [hgap.dropWhile] at hnext
  have hs' : Nest.Single ms := hs.tail.suffix.suffix.suffix
  refine gives_advanceIf.mono ?_
  rintro _ ls ts h
  obtain ⟨rfl, rfl, hls⟩ : ls = [] ∧ ts = Nest.treesOf ms ∧ ∀ m ∈ ms, m.isLineBreak = true := by
    obtain ⟨m, hm, rfl, rfl⟩ | ⟨hm, rfl, rfl⟩ := h
    · obtain rfl := hs'.eq_nil hm
      exact ⟨rfl, rfl, by simpa using hm⟩
    · cases ls with
      | nil => exact ⟨rfl, rfl, nofun⟩
      | cons m ls =>
        have hb := hnext m rfl
        rw [show m.isLineBreak = false from hm] at hb
        simp at hb
  refine ⟨rfl, ⟨n, blanks, words, gap ++ ms⟩, rfl, rfl, ?_, hblanks, hwords, ?_⟩
  · have hcons : Nest.treesOf (n :: blanks) = Nest.treesOf [n] ++ Nest.treesOf blanks :=
      Nest.treesOf_append [n] blanks
    rw [CommandRow.trees, hcons, Nest.treesOf_append, List.append_assoc]
    rfl
  · rwa [hgap.dropWhile]

theorem gives_inlineRecipe (hs : Nest.Single ns) : Gives inlineRecipe ns fun _ ms ts =>
    ms = [] ∧ EndRow ns ts := by
  refine gives_nextIs_bind (gives_ite (fun h => ?_) fun h => ?_)
  · obtain ⟨n, ns, rfl⟩ : ∃ n ms, ns = n :: ms := by
      cases ns with
      | nil => cases h
      | cons n ns => exact ⟨n, ns, rfl⟩
    refine (gives_within (gives_command hs)).mono ?_
    rintro _ ms ts ⟨us, rfl, rfl, r, he, rfl, rfl, hr⟩
    rw [he]
    exact ⟨rfl, .command h hr⟩
  · refine (gives_endOfLine hs).mono ?_
    rintro _ ms ts ⟨rfl, rfl, hall⟩
    refine ⟨rfl, .plain (fun n hn => ?_) hall⟩
    rw [hn] at h
    simpa [Nest.isSemicolon] using h

theorem gives_assignment (hs : Nest.Single ns) (hc : Nest.ClosedAll ns) :
    Gives assignment ns fun _ ms ts => ms = [] ∧ Held ns ts ∧ ∃ us, ts = [.node .assignment us] := by
  intro outer es a s h
  obtain ⟨ts, hu, hb, -, hheld⟩ :=
    line_ok sim_assignment (fun _ _ => consumes_assignment reads_held hs) hc h
  obtain ⟨s', -, -, hb'⟩ := within_ok h
  exact ⟨ts, hb, hu, hheld, _, List.append_cancel_left (hb.symm.trans hb')⟩

/-- The first line of a rule is cut into its parts, and its trees are theirs. -/
theorem gives_ruleHeader (hs : Nest.Single ns) (hc : Nest.ClosedAll ns) :
    Gives ruleHeader ns fun continues ms ts => ms = [] ∧ ∃ (r : TargetRow) (rest : List Nest)
      (us : List Tree), ns = r.nests ++ rest ∧ ts = r.trees ++ us ∧ r.Cut rest ∧
        RestRow rest continues us := by
  refine gives_bind gives_targets fun _ rest ts hm => ?_
  obtain ⟨r, rfl, rfl, hr⟩ := hm
  have hs' : Nest.Single rest := hs.suffix
  refine gives_unread_bind (gives_ite (fun h => ?_) fun h => ?_)
  · refine gives_bind (gives_assignment hs' (Nest.closedAll_append.1 hc).2) fun _ ms ts hm =>
      gives_pure ?_
    obtain ⟨rfl, hheld, us, rfl⟩ := hm
    rw [List.append_nil]
    exact ⟨rfl, r, rest, _, rfl, rfl, hr, .assigns h hheld⟩
  · refine gives_bind (gives_prerequisites .prerequisites hr.blanks.next) fun _ ms ts hm => ?_
    obtain ⟨l, rfl, rfl, hl⟩ := hm
    refine gives_bind (gives_orderOnly hl.next) fun _ tail ts hm => ?_
    obtain ⟨us, rfl, hus⟩ := hm
    refine gives_bind (gives_inlineRecipe hs'.suffix.suffix) fun _ ms vs hm => gives_pure ?_
    obtain ⟨rfl, htail⟩ := hm
    rw [List.append_nil]
    exact ⟨rfl, r, _, _, rfl, rfl, hr, .lists (by simpa using h) hl hus htail⟩

theorem Parses.item_trees {line : Line} {lines rest : List Line} {ts : List Tree}
    (h : Parses (.item line) lines ts rest) :
    (∃ k us, ts = [.node k us] ∧ k ∈ [.recipe, .blankLine, .commentLine]) ∨
      Parses (.conditional .recipe line) lines ts rest := by
  cases h with
  | item hk h _ _ =>
    have single {p : Parser Unit} {k : NodeKind} {r : Rest lines} {s : Cursor}
        (h : oneLine lines (within k p) ⟨line, [], []⟩ = .ok r s) (hb : s.built = ts) :
        ∃ us, ts = [.node k us] := by
      obtain ⟨_, s', h, hs⟩ := bind_ok h
      cases hs
      obtain ⟨s₁, -, -, hw⟩ := within_ok h
      rw [← hb, hw]
      exact ⟨_, rfl⟩
    obtain ⟨r, -, h⟩ := h lines
    obtain ⟨es, h⟩ := h [] []
    rw [recipeItem] at h
    rcases hk with hk | hk | hk
    · rw [hk] at h
      obtain ⟨us, rfl⟩ := single h rfl
      exact .inl ⟨_, us, rfl, by decide⟩
    · rw [hk] at h
      obtain ⟨us, rfl⟩ := single h rfl
      exact .inl ⟨_, us, rfl, by decide⟩
    · rw [hk] at h
      obtain ⟨us, rfl⟩ := single h rfl
      exact .inl ⟨_, us, rfl, by decide⟩
  | itemConditional _ h => exact .inr h

theorem Parses.mem_recipes {lines rest : List Line} {ts : List Tree}
    (h : Parses .recipes lines ts rest) {t : Tree} (ht : t ∈ ts) :
    ∃ k us, t = .node k us ∧ k ∈ NodeKind.recipeItems := by
  generalize htask : Task.recipes = task at h
  induction h with
  | recipesEnd => cases ht
  | recipesItem _ hi _ _ ih =>
    rcases List.mem_append.1 ht with ht | ht
    · obtain ⟨k, us, rfl, hk⟩ | h := hi.item_trees
      · refine ⟨k, us, List.mem_singleton.1 ht, ?_⟩
        revert hk
        cases k <;> decide
      · cases h
        exact ⟨.recipeConditional, _, List.mem_singleton.1 ht, by decide⟩
    · exact ih ht rfl
  | _ => cases htask

/-- A rule is its first line, cut into parts, and a recipe unless the line assigns. -/
theorem Parses.rule_rows {line : Line} {lines rest : List Line} {us : List Tree}
    (hl : line.Good) (hg : GoodLines lines)
    (h : Parses (.statement line) lines [.node .rule us] rest) :
    (∀ n ∈ line, Solid n) ∧ ∃ (r : TargetRow) (ns : List Nest) (continues : Bool)
      (vs ts : List Tree), line = r.nests ++ ns ∧ us = r.trees ++ (vs ++ ts) ∧ r.Cut ns ∧
        RestRow ns continues vs ∧ Held line (r.trees ++ vs) ∧
        ∀ t ∈ ts, ∃ k ws, t = .node k ws ∧ k ∈ NodeKind.recipeItems := by
  obtain ⟨-, continues, hd, ts, rfl, ht, hrec, hend⟩ := h.rule_parts hl hg
  have hheld : Held line hd := held_of_consumes (fun k _ => consumes_ruleHeader reads_held hl.single)
    hl.closed ht (List.append_nil line).symm
  have hsolid := solid_of_line (consumes_ruleHeader reads_solid hl.single (k := .root)) hl.closed ht
  obtain ⟨-, r, ns, vs, rfl, rfl, hr, hrest⟩ := (gives_ruleHeader hl.single hl.closed).of_takes ht
  refine ⟨hsolid, r, ns, continues, vs, ts, rfl, List.append_assoc _ _ _, hr, hrest, hheld, ?_⟩
  intro t hm
  cases continues with
  | true => exact (hrec rfl).mem_recipes hm
  | false =>
    rw [(hend rfl).1] at hm
    cases hm

end Parser

end MakeTree
