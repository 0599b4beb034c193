import MakeTree.Proofs.Grammar.Gives

/-!
The first line of a conditional, cut where its parts end: what leads the keyword, and the test behind
it (`gives_conditionalHeader`). A test in parentheses is two operands with a comma between them, and
in each of them the literal parentheses that open are closed again (`ComparisonRow.Cut`).
-/

namespace MakeTree

namespace Token

/-- What a token adds to the number of literal parentheses that are open. -/
def paren (t : Token) : Int := if t.isText ['('] then 1 else if t.isText [')'] then -1 else 0

/-- The literal parentheses that open, less those that close. -/
def parens : List Token → Int
  | [] => 0
  | t :: ts => t.paren + parens ts

theorem parens_cons (t : Token) (ts : List Token) : parens (t :: ts) = t.paren + parens ts :=
  rfl

theorem parens_append (us vs : List Token) : parens (us ++ vs) = parens us + parens vs := by
  induction us with
  | nil => rw [List.nil_append, parens, Int.zero_add]
  | cons u us ih => rw [List.cons_append, parens, ih, parens, Int.add_assoc]

theorem paren_of_kind {t : Token} (h : t.kind ≠ .plainText) : t.paren = 0 := by
  simp [paren, isText, h]

theorem parens_of_kind {ts : List Token} (h : ∀ t ∈ ts, t.kind ≠ .plainText) : parens ts = 0 := by
  induction ts with
  | nil => rfl
  | cons t ts ih =>
    rw [parens_cons, paren_of_kind (h t List.mem_cons_self),
      ih fun u hu => h u (List.mem_cons_of_mem t hu)]
    rfl

end Token

namespace Nest

/-- The literal parentheses that open outside of expansions, less those that close there. -/
def parens (ns : List Nest) : Int := Token.parens (ns.map token)

theorem parens_cons (n : Nest) (ns : List Nest) : parens (n :: ns) = n.token.paren + parens ns :=
  Token.parens_cons _ _

theorem parens_append (ms ns : List Nest) : parens (ms ++ ns) = parens ms + parens ns := by
  rw [parens, List.map_append, Token.parens_append]
  rfl

theorem parens_blanks {ns : List Nest} (h : ∀ n ∈ ns, n.isWhitespace = true) : parens ns = 0 := by
  refine Token.parens_of_kind fun t ht => ?_
  obtain ⟨n, hn, rfl⟩ := List.mem_map.1 ht
  have hk : n.token.kind = .whitespace := beq_iff_eq.1 (h n hn)
  rw [hk]
  decide

theorem parenDepth_eq {n : Nest} {depth : Nat} (h : n.isText [')'] = true → depth ≠ 0) :
    (n.parenDepth depth : Int) = depth + n.token.paren := by
  unfold parenDepth Token.paren
  change ((if n.isText ['('] then depth + 1 else if n.isText [')'] then depth - 1 else depth : Nat) :
    Int) = depth + if n.isText ['('] then 1 else if n.isText [')'] then -1 else 0
  split
  · omega
  · split
    · next hc =>
      have := h hc
      omega
    · omega

/-- Nests with `depth` parentheses open in front of them, in front of the first that is a stop where
none is open, or of the end of the line. -/
structure Confined (stop : Nest → Bool) (depth : Int) (us rest : List Nest) : Prop where
  low : ∀ ms, ms <+: us → 0 ≤ depth + parens ms
  inside : ∀ ms n, ms ++ [n] <+: us → stop n = true → 0 < depth + parens ms
  next : ∀ n ∈ rest.head?, n.isLineBreak = true ∨ depth + parens us = 0 ∧ stop n = true

namespace Confined

variable {stop : Nest → Bool} {us rest : List Nest}

theorem cons {n : Nest} {depth : Int} (h : Confined stop (depth + n.token.paren) us rest)
    (hd : 0 ≤ depth) (hn : stop n = true → 0 < depth) : Confined stop depth (n :: us) rest where
  low ms hms := by
    rcases List.prefix_cons_iff.1 hms with rfl | ⟨ms, rfl, hpre⟩
    · simpa [parens, Token.parens] using hd
    · rw [parens_cons, ← Int.add_assoc]
      exact h.low ms hpre
  inside ms m hms hm := by
    cases ms with
    | nil =>
      obtain rfl : m = n := (List.cons_prefix_cons.1 hms).1
      simpa [parens, Token.parens] using hn hm
    | cons a ms =>
      obtain ⟨rfl, hpre⟩ := List.cons_prefix_cons.1 hms
      rw [parens_cons, ← Int.add_assoc]
      exact h.inside ms m hpre hm
  next m hm := by
    rw [parens_cons, ← Int.add_assoc]
    exact h.next m hm

theorem trim {blanks : List Nest} (h : Confined stop 0 (us ++ blanks) rest)
    (hb : ∀ n ∈ blanks, n.isWhitespace = true) : Confined stop 0 us rest where
  low ms hms := h.low ms (hms.trans (List.prefix_append us blanks))
  inside ms n hms := h.inside ms n (hms.trans (List.prefix_append us blanks))
  next n hn := by
    have h := h.next n hn
    rwa [parens_append, parens_blanks hb, Int.add_zero] at h

end Confined

/-- The counter of an operand is the number of parentheses open: where none is, the next that closes
is a stop. -/
theorem confined_takeOperand {stop : Nest → Bool} (hs : ∀ n, n.isText [')'] = true → stop n = true)
    (ns : List Nest) (depth : Nat) : Confined stop depth (takeOperand stop depth ns)
      (ns.drop (takeOperand stop depth ns).length) := by
  induction ns generalizing depth with
  | nil =>
    refine ⟨fun ms hms => ?_, fun ms n hms => ?_, nofun⟩
    · rw [List.prefix_nil.1 hms]
      simp [parens, Token.parens]
    · exact absurd (List.prefix_nil.1 hms) (by simp)
  | cons n ns ih =>
    rw [takeOperand]
    by_cases h : (n.isLineBreak || (depth == 0 && stop n)) = true
    · rw [if_pos h]
      refine ⟨fun ms hms => ?_, fun ms m hms => ?_, fun m hm => ?_⟩
      · rw [List.prefix_nil.1 hms]
        simp [parens, Token.parens]
      · exact absurd (List.prefix_nil.1 hms) (by simp)
      · obtain rfl : n = m := Option.some.inj hm
        simpa [parens, Token.parens] using h
    · rw [if_neg h]
      simp only [Bool.or_eq_true, Bool.and_eq_true, beq_iff_eq, not_or, not_and] at h
      have hn (hst : stop n = true) : depth ≠ 0 := fun hd => h.2 hd hst
      have ih := ih (n.parenDepth depth)
      rw [parenDepth_eq fun hc => hn (hs n hc)] at ih
      refine ih.cons (by omega) fun hst => ?_
      have := hn hst
      omega

/-- One side of a comparison: neither blank at an end nor a parenthesis that does not match another,
and no stop outside of parentheses. -/
structure Side (stop : Nest → Bool) (us : List Nest) : Prop where
  low : ∀ ms, ms <+: us → 0 ≤ parens ms
  closed : parens us = 0
  inside : ∀ ms n, ms ++ [n] <+: us → stop n = true → 0 < parens ms
  first : ∀ n ∈ us.head?, n.isWhitespace = false
  last : ∀ n ∈ us.getLast?, n.isWhitespace = false

end Nest

/-- A comparison in parentheses. -/
structure ComparisonRow where
  opener : Nest
  lead : List Nest
  left : List Nest
  gap : List Nest
  comma : Nest
  blanks : List Nest
  right : List Nest
  tail : List Nest
  closer : Nest

namespace ComparisonRow

/-- Whether the left side ends in front of the nest. -/
def endsLeft (n : Nest) : Bool := n.kind == .comma || n.isText [')']

def front (r : ComparisonRow) : List Nest := r.opener :: r.lead

/-- What stands between the sides. -/
def middle (r : ComparisonRow) : List Nest := r.gap ++ r.comma :: r.blanks

def back (r : ComparisonRow) : List Nest := r.tail ++ [r.closer]

def nests (r : ComparisonRow) : List Nest :=
  r.front ++ (r.left ++ (r.middle ++ (r.right ++ r.back)))

def trees (r : ComparisonRow) : List Tree :=
  Nest.treesOf r.front ++ ([.node .expression (Nest.treesOf r.left)] ++
    (Nest.treesOf r.middle ++ ([.node .expression (Nest.treesOf r.right)] ++ Nest.treesOf r.back)))

structure Cut (r : ComparisonRow) : Prop where
  opener : r.opener.isText ['('] = true
  lead : ∀ n ∈ r.lead, n.isWhitespace = true
  left : Nest.Side endsLeft r.left
  gap : ∀ n ∈ r.gap, n.isWhitespace = true
  comma : r.comma.kind = .comma
  blanks : ∀ n ∈ r.blanks, n.isWhitespace = true
  right : Nest.Side (·.isText [')']) r.right
  tail : ∀ n ∈ r.tail, n.isWhitespace = true
  closer : r.closer.isText [')'] = true

end ComparisonRow

/-- What stands behind the keyword of a conditional, up to `ms`, and its trees. -/
inductive TestRow (keyword : TokenKind) : List Nest → List Nest → List Tree → Prop
  | name {ns ms : List Nest} {ts : List Tree} {k : ConditionalKind}
      (hk : keyword = .keyword (.conditional k)) (hd : k = .ifdef ∨ k = .ifndef) :
      TestRow keyword ns ms ts
  | quoted {ns ms : List Nest} {ts : List Tree} (hn : ns.head?.any (·.kind == .stringLiteral) = true)
      (ht : ∃ t ∈ ts, t.kind = .leaf .quote) : TestRow keyword ns ms ts
  | comparison {ms : List Nest} {r : ComparisonRow} (hr : r.Cut) :
      TestRow keyword (r.nests ++ ms) ms r.trees

/-- The first line of a conditional. -/
structure HeaderRow where
  lead : List Nest
  keyword : Nest
  blanks : List Nest
  /-- the trees of the test -/
  test : List Tree
  ending : List Nest

namespace HeaderRow

def front (r : HeaderRow) : List Nest := r.lead ++ r.keyword :: r.blanks

def trees (r : HeaderRow) : List Tree :=
  Nest.treesOf r.front ++ .node .condition r.test :: Nest.treesOf r.ending

/-- The parts end where they have to; behind the blanks there is `test`, and behind the line
`rest`. -/
structure Cut (r : HeaderRow) (test rest : List Nest) : Prop where
  lead : Nest.Skipped (·.kind.isLeading) r.lead (r.keyword :: (r.blanks ++ test))
  blanks : Nest.Skipped Nest.isWhitespace r.blanks test
  row : TestRow r.keyword.kind test (r.ending ++ rest) r.test
  ending : ∀ n ∈ r.ending.dropWhile Nest.isWhitespace, n.isComment = true ∨ n.isLineBreak = true

end HeaderRow

namespace Parser

variable {ns : List Nest} {expected : List Expected}

/-- One side of a comparison, and what ends it. -/
def side (stop q : Nest → Bool) (expected : List Expected) : Parser Unit := do
  operand stop
  skipWhitespace
  expect q expected

theorem parenthesized_eq : parenthesized = (do
    advance
    skipWhitespace
    side ComparisonRow.endsLeft (·.kind == .comma) [.token .comma]
    skipWhitespace
    side (·.isText [')']) (·.isText [')']) [.closeParen]) := by
  simp only [side, bind_assoc]
  rfl

theorem gives_confined {stop : Nest → Bool} (hs : ∀ n, n.isText [')'] = true → stop n = true) :
    Gives (operand stop) ns fun _ ms ts => ∃ us blanks rest, ns = us ++ ms ∧ ms = blanks ++ rest ∧
      ts = [.node .expression (Nest.treesOf us)] ∧ Nest.Confined stop 0 us rest ∧
      (∀ n ∈ blanks, n.isWhitespace = true) ∧ ∀ n ∈ us.getLast?, n.isWhitespace = false := by
  obtain ⟨blanks, hblanks, hall⟩ := Nest.trimEnd_append (Nest.takeOperand stop 0 ns)
  have hconf := Nest.confined_takeOperand hs ns 0
  have hsplit : Nest.takeOperand stop 0 ns ++ ns.drop (Nest.takeOperand stop 0 ns).length = ns :=
    List.prefix_iff_eq_append.1 (Nest.takeOperand_isPrefix stop 0 ns)
  refine gives_operand.mono fun _ ms ts hm => ?_
  obtain ⟨hms, hts⟩ := hm
  rw [← hblanks] at hconf hsplit
  have hrest := hsplit.trans hms
  rw [List.append_assoc] at hrest
  exact ⟨_, blanks, _, hms, (List.append_cancel_left hrest).symm, hts, hconf.trim hall, hall,
    Nest.trimEnd_getLast? _⟩

theorem skipped_of_confined {stop : Nest → Bool} {us blanks rest : List Nest}
    (h : Nest.Confined stop 0 us rest) (hb : ∀ n ∈ blanks, n.isWhitespace = true)
    (hw : ∀ n, n.isWhitespace = true → stop n = false) :
    Nest.Skipped Nest.isWhitespace blanks rest := by
  refine ⟨hb, fun n hn => ?_⟩
  rcases h.next n hn with hbreak | ⟨-, hstop⟩
  · have hk : n.kind = .lineBreak := beq_iff_eq.1 hbreak
    simp [Nest.isWhitespace, hk]
  · by_contra hne
    rw [hw n (Bool.not_eq_false _ ▸ hne)] at hstop
    cases hstop

theorem gives_side {stop q : Nest → Bool} (hs : ∀ n, n.isText [')'] = true → stop n = true)
    (hw : ∀ n, n.isWhitespace = true → stop n = false) (hq : ∀ n, q n = true → n.isLineBreak = false)
    (hns : ∀ n ∈ ns.head?, n.isWhitespace = false) :
    Gives (side stop q expected) ns fun _ ms ts => ∃ us gap n, ns = us ++ (gap ++ n :: ms) ∧
      ts = .node .expression (Nest.treesOf us) :: Nest.treesOf (gap ++ [n]) ∧
      Nest.Side stop us ∧ (∀ m ∈ gap, m.isWhitespace = true) ∧ q n = true := by
  refine gives_bind (gives_confined hs) fun _ ls ts hl => ?_
  obtain ⟨us, blanks, rest, rfl, rfl, rfl, hside, hall, hlast⟩ := hl
  refine gives_bind gives_moveWhile fun _ ls ts hl => ?_
  obtain ⟨gap, hgap, rfl, hskip⟩ := hl
  have hrest := hskip.dropWhile
  rw [← hgap, (skipped_of_confined hside hall hw).dropWhile] at hrest
  subst hrest
  obtain rfl := List.append_cancel_right hgap
  refine gives_expect.mono ?_
  rintro _ ms ts ⟨n, hn, rfl, rfl⟩
  have hclosed : Nest.parens us = 0 := by
    rcases hside.next n rfl with hb | ⟨hz, -⟩
    · rw [hq n hn] at hb
      cases hb
    · omega
  refine ⟨us, blanks, n, rfl, ?_, ⟨?_, hclosed, ?_, ?_, hlast⟩, hall, hn⟩
  · rw [Nest.treesOf_append]
    rfl
  · intro ms hms
    have := hside.low ms hms
    omega
  · intro ms m hms hm
    have := hside.inside ms m hms hm
    omega
  · intro m hm
    refine hns m ?_
    rw [List.head?_append, show us.head? = some m from hm]
    rfl

theorem gives_parenthesized (h : ns.head?.any (·.isText ['(']) = true) :
    Gives parenthesized ns fun _ ms ts => ∃ r : ComparisonRow, ns = r.nests ++ ms ∧
      ts = r.trees ∧ r.Cut := by
  cases ns with
  | nil => cases h
  | cons opener ns =>
    have hw (n : Nest) (hn : n.isWhitespace = true) : n.isText [')'] = false := by
      have hk : n.kind = .whitespace := beq_iff_eq.1 hn
      by_contra hc
      rw [Nest.kind_of_isText (Bool.not_eq_false _ ▸ hc)] at hk
      cases hk
    rw [parenthesized_eq]
    refine gives_bind (gives_advance opener ns) fun _ ls ts hl => ?_
    obtain ⟨rfl, rfl⟩ := hl
    refine gives_bind gives_moveWhile fun _ ls ts hl => ?_
    obtain ⟨lead, rfl, rfl, hlead⟩ := hl
    refine gives_bind (gives_side (fun n hn => ?_) (fun n hn => ?_) (fun n hn => ?_) hlead.next)
      fun _ ls ts hl => ?_
    · rw [ComparisonRow.endsLeft, hn, Bool.or_true]
    · have hk : n.kind = .whitespace := beq_iff_eq.1 hn
      rw [ComparisonRow.endsLeft, hw n hn, hk]
      rfl
    · have hk : n.kind = .comma := beq_iff_eq.1 hn
      simp [Nest.isLineBreak, hk]
    obtain ⟨left, gap, comma, rfl, rfl, hleft, hgap, hcomma⟩ := hl
    refine gives_bind gives_moveWhile fun _ ls ts hl => ?_
    obtain ⟨blanks, rfl, rfl, hblanks⟩ := hl
    refine (gives_side (fun n hn => hn) hw (fun n hn => ?_) hblanks.next).mono ?_
    · simp [Nest.isLineBreak, Nest.kind_of_isText hn]
    rintro _ ms ts ⟨right, tail, closer, rfl, rfl, hright, htail, hcloser⟩
    refine ⟨⟨opener, lead, left, gap, comma, blanks, right, tail, closer⟩, ?_, ?_, h, hlead.all,
      hleft, hgap, beq_iff_eq.1 hcomma, hblanks.all, hright, htail, hcloser⟩
    · simp [ComparisonRow.nests, ComparisonRow.front, ComparisonRow.middle, ComparisonRow.back]
    · have hopen : Nest.treesOf (opener :: lead) = Nest.treesOf [opener] ++ Nest.treesOf lead :=
        Nest.treesOf_append [opener] lead
      have hcomma : Nest.treesOf (gap ++ comma :: blanks) =
          Nest.treesOf (gap ++ [comma]) ++ Nest.treesOf blanks := by
        rw [← Nest.treesOf_append, List.append_assoc, List.singleton_append]
      simp only [ComparisonRow.trees, ComparisonRow.front, ComparisonRow.middle,
        ComparisonRow.back, hopen, hcomma, List.append_assoc, List.cons_append, List.nil_append]

theorem gives_quotedOperand : Gives quotedOperand ns fun _ _ ts => ∃ t ∈ ts, t.kind = .leaf .quote := by
  have quote (x : Lexeme) : ∃ t ∈ x.openQuote, t.kind = .leaf .quote :=
    ⟨_, List.mem_append_right _ (List.mem_singleton.2 rfl), rfl⟩
  refine gives_unread_bind ?_
  match ns with
  | .quoted x inside trailing :: ns =>
    intro outer es a s h
    obtain ⟨_, _, hr, h⟩ := bind_ok h
    cases hr
    obtain ⟨_, s₁, hf, h⟩ := bind_ok h
    cases h
    obtain ⟨-, hb⟩ := fragments_ok hf
    obtain ⟨t, ht, hk⟩ := quote x
    exact ⟨_, congrArg (· ++ _) hb, t, by simp [ht], hk⟩
  | .raw x :: ns =>
    intro outer es a s h
    cases h
    obtain ⟨t, ht, hk⟩ := quote x
    exact ⟨_, rfl, t, by simp [ht], hk⟩
  | .leaf x :: ns => exact gives_fail
  | .expansion opener body closer :: ns => exact gives_fail
  | [] => exact gives_fail

theorem gives_quotedPair : Gives quotedPair ns fun _ _ ts => ∃ t ∈ ts, t.kind = .leaf .quote := by
  refine gives_bind gives_quotedOperand fun _ ms ts hm => ?_
  refine gives_bind gives_moveWhile fun _ ls us _ => ?_
  refine gives_quotedOperand.mono fun _ _ vs _ => ?_
  obtain ⟨t, ht, hk⟩ := hm
  exact ⟨t, List.mem_append_left _ ht, hk⟩

theorem gives_definedName : Gives definedName ns fun _ _ _ => True := by
  refine gives_bind gives_refuse fun _ ms ts _ => ?_
  refine gives_unread_bind ((gives_first (Nest.span_isPrefix _ ms)).mono fun _ _ _ _ => trivial)

theorem gives_condition (keyword : TokenKind) : Gives (condition keyword) ns fun _ ms ts =>
    ∃ us, ts = [.node .condition us] ∧ TestRow keyword ns ms us := by
  refine gives_within ?_
  refine gives_ite (fun h => ?_) fun _ => ?_
  · refine gives_definedName.mono fun _ ms ts _ => ?_
    simp only [Bool.or_eq_true, beq_iff_eq] at h
    rcases h with h | h
    · exact .name h (.inl rfl)
    · exact .name h (.inr rfl)
  · refine gives_nextIs_bind (gives_ite (fun h => ?_) fun _ => ?_)
    · refine (gives_parenthesized h).mono ?_
      rintro _ ms ts ⟨r, rfl, rfl, hr⟩
      exact .comparison hr
    · refine gives_nextIs_bind (gives_ite (fun h => ?_) fun _ => gives_fail)
      exact gives_quotedPair.mono fun _ ms ts ht => .quoted h ht

/-- The first line of a conditional is cut into its parts. -/
theorem gives_conditionalHeader : Gives conditionalHeader ns fun _ rest ts =>
    ∃ (r : HeaderRow) (test : List Nest), ns = r.front ++ test ∧ ts = r.trees ∧ r.Cut test rest := by
  refine gives_bind gives_moveWhile fun _ ms ts hm => ?_
  obtain ⟨lead, rfl, rfl, hlead⟩ := hm
  refine gives_kind?_bind ?_
  cases ms with
  | nil => exact gives_fail
  | cons keyword ms =>
    refine gives_bind (gives_advance keyword ms) fun _ ls ts hl => ?_
    obtain ⟨rfl, rfl⟩ := hl
    refine gives_bind gives_moveWhile fun _ test ts hl => ?_
    obtain ⟨blanks, rfl, rfl, hblanks⟩ := hl
    refine gives_bind (gives_condition keyword.kind) fun _ ls ts hl => ?_
    obtain ⟨us, rfl, hrow⟩ := hl
    refine gives_endsLine.mono ?_
    rintro _ rest ts ⟨ending, rfl, rfl, hending, -⟩
    refine ⟨⟨lead, keyword, blanks, us, ending⟩, test, ?_, ?_, hlead, hblanks, hrow, hending⟩
    · simp [HeaderRow.front]
    · have hfront : Nest.treesOf (lead ++ keyword :: blanks) =
          Nest.treesOf lead ++ (Nest.treesOf [keyword] ++ Nest.treesOf blanks) := by
        rw [Nest.treesOf_append, ← Nest.treesOf_append [keyword]]
        rfl
      simp only [HeaderRow.trees, HeaderRow.front, hfront, List.append_assoc]
      rfl

end Parser

end MakeTree
