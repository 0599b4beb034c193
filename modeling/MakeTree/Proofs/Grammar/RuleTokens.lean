import Mathlib.Data.List.DropRight
import MakeTree.Proofs.Grammar.RuleRow

/-!
The parts of the first line of a rule, told by its tokens alone: `RuleTokens.targets` and so on are
functions of the tokens of the line, or of those behind its colons. They are the tokens of the parts
that the line is cut into.
-/

namespace MakeTree

namespace Token

def isBlank (t : Token) : Bool := t.kind == .whitespace
def isLineBreak (t : Token) : Bool := t.kind == .lineBreak
def isColon (t : Token) : Bool := t.kind == .colon
def isAssignOp (t : Token) : Bool := t.kind == .assignOp
def isBar (t : Token) : Bool := t.isText ['|']
def isSemicolon (t : Token) : Bool := t.isText [';']

def endsLine (t : Token) : Bool := t.isLineBreak || t.kind == .comment

/-- Whether a command or the end of the line comes. -/
def endsWords (t : Token) : Bool := t.endsLine || t.isSemicolon

/-- Whether a list of prerequisites ends in front of the token. -/
def endsList (t : Token) : Bool := t.endsLine || (t.isBar || t.isSemicolon)

theorem endsWords_eq_false {t : Token} (h : t.endsList = false) : t.endsWords = false := by
  simp only [endsList, endsWords, Bool.or_eq_false_iff] at h ⊢
  exact ⟨h.1, h.2.2⟩

/-- The tokens without the blanks at either end. -/
def trim (ts : List Token) : List Token := (ts.dropWhile isBlank).rdropWhile isBlank

end Token

namespace RuleTokens

open MakeTree.Token

/-- The tokens of a line in front of its first colon. -/
def targets (row : List Token) : List Token := before isColon (row.dropWhile (·.kind.isLeading))

/-- Whether a second colon starts where the first ends. -/
def isDouble (row : List Token) : Bool :=
  match onward isColon row with
  | colon :: next :: _ => next.isColon && next.position.offset == colon.stop
  | _ => false

/-- The tokens behind the colon or the two of them. -/
def rest (row : List Token) : List Token := (onward isColon row).drop (if isDouble row then 2 else 1)

section Rest

variable (ts : List Token)

/-- Whether there is an assignment operator in front of a command. -/
def assigns : Bool := (outer (before endsWords ts)).any isAssignOp

def prerequisites : List Token := before endsList ts

/-- The tokens behind a bar that ends the prerequisites. -/
def behindBar? : Option (List Token) :=
  match onward endsList ts with
  | [] => none
  | t :: ts => if t.isBar then some ts else none

def orderOnly : List Token := ((behindBar? ts).map (before endsWords)).getD []

/-- The tokens behind the lists. -/
def ending : List Token := ((behindBar? ts).map (onward endsWords)).getD (onward endsList ts)

end Rest

/-- The tokens of a command behind a semicolon, up to the end of the line. -/
def inline? : List Token → Option (List Token)
  | [] => none
  | t :: ts => if t.isSemicolon then some (trim (before isLineBreak ts)) else none

/-- The tokens of the command behind a semicolon that ends the lists. -/
def command? (ts : List Token) : Option (List Token) := inline? (ending ts)

end RuleTokens

namespace Nest

open MakeTree.Token

theorem cut_tokensOf {stop : Token → Bool} (us vs : List Nest) (hs : SoundAll (us ++ vs))
    (hu : ∀ n ∈ us, stop n.token = false) (hv : ∀ n ∈ vs.head?, stop n.token = true) :
    before stop (tokensOf (us ++ vs)) = tokensOf us ∧
      onward stop (tokensOf (us ++ vs)) = tokensOf vs := by
  have hc := closedAll_of_soundAll hs
  have hpos : ∀ n ∈ us, (!stop n.token) = true := fun n hn => by rw [hu n hn]; rfl
  rw [before_tokensOf stop hc, onward_tokensOf stop hc, List.takeWhile_append_of_pos hpos,
    List.dropWhile_append_of_pos hpos]
  cases vs with
  | nil => exact ⟨by rw [List.takeWhile_nil, List.append_nil], rfl⟩
  | cons v vs =>
    simp [hv v rfl]

theorem tokensOf_cons_token {n : Nest} {ns : List Nest} (h : n.Sound)
    (hk : n.kind ≠ .expansionPrefix) : tokensOf (n :: ns) = n.token :: tokensOf ns := by
  rw [tokensOf_cons, flatten_eq_of_closed h.closed hk]
  rfl

theorem exists_tokensOf_cons (n : Nest) (ns : List Nest) :
    ∃ ts, tokensOf (n :: ns) = n.token :: ts := by
  cases n <;> exact ⟨_, rfl⟩

theorem dropWhile_tokensOf {q : TokenKind → Bool} (hq : q .expansionPrefix = false) {ns : List Nest}
    (hs : SoundAll ns) :
    (tokensOf ns).dropWhile (q ·.kind) = tokensOf (ns.dropWhile fun n => q n.kind) := by
  rw [tokensOf, List.dropWhile_map, tokensOf, ← dropWhile_flattenAll hq (closedAll_of_soundAll hs)]
  rfl

theorem map_first_flatten (n : Nest) : ∃ xs, n.flatten.map first = n.first :: xs := by
  cases n <;> exact ⟨_, rfl⟩

theorem Seated.adjacent {start : Nat} {n m : Nest} {ns : List Nest} (h : Seated start (n :: m :: ns))
    (hn : n.Sound) (hk : n.kind ≠ .expansionPrefix) :
    m.token.position.offset = n.token.stop ↔ m.first.leading = [] := by
  obtain ⟨xs, hx, hs⟩ := h
  obtain ⟨ys, hy⟩ := map_first_flatten m
  have hxs : xs = n.first :: m.first :: (ys ++ (flattenAll ns).map first) := by
    rw [← map_first_ofLexeme xs, hx, flattenAll, flattenAll, flatten_eq_of_closed hn.closed hk]
    simp [hy]
  subst hxs
  have ho : m.token.position.offset =
      n.token.stop + (Trivia.textOf m.first.leading).byteSize := by
    have hstart := hs.1.offset
    have hnext := hs.2.1.offset
    rw [Lexeme.text, Text.byteSize_append] at hnext
    show m.first.token.position.offset = n.first.token.stop + _
    rw [Token.stop]
    omega
  rw [ho]
  constructor
  · intro hz
    refine (Trivia.textOf_eq_nil hs.2.1.leading).1 ?_
    by_contra hne
    have hpos := Text.byteSize_pos hne
    omega
  · intro hl
    rw [hl]
    rfl

end Nest

namespace TargetRow.Cut

open MakeTree.Nest

variable {r : TargetRow} {ns : List Nest}

theorem nests_append (r : TargetRow) (ns : List Nest) : r.nests ++ ns =
    r.lead ++ ((r.words ++ r.gap) ++ r.colon :: (r.second.toList ++ (r.blanks ++ ns))) := by
  simp [TargetRow.nests, TargetRow.separators]

theorem colon_kind (h : r.Cut ns) : r.colon.kind = .colon := beq_iff_eq.1 h.colon

theorem no_colon (h : r.Cut ns) : ∀ n ∈ r.words ++ r.gap, n.token.isColon = false := by
  refine List.forall_mem_append.2 ⟨fun n hn => (h.words n hn).2, fun n hn => ?_⟩
  have hk : n.token.kind = .whitespace := beq_iff_eq.1 (h.gap n hn)
  rw [Token.isColon, hk]
  rfl

theorem cut_colon (h : r.Cut ns) {us : List Nest} (hu : ∀ n ∈ us, n.token.isColon = false)
    (hs : SoundAll (us ++ ((r.words ++ r.gap) ++ r.colon :: (r.second.toList ++ (r.blanks ++ ns))))) :
    Token.before Token.isColon (tokensOf
        (us ++ ((r.words ++ r.gap) ++ r.colon :: (r.second.toList ++ (r.blanks ++ ns))))) =
          tokensOf (us ++ (r.words ++ r.gap)) ∧
      Token.onward Token.isColon (tokensOf
        (us ++ ((r.words ++ r.gap) ++ r.colon :: (r.second.toList ++ (r.blanks ++ ns))))) =
          r.colon.token :: tokensOf (r.second.toList ++ (r.blanks ++ ns)) := by
  rw [← List.append_assoc] at hs ⊢
  have hcolon : r.colon.Sound := (soundAll_append.1 hs).2.1
  rw [← tokensOf_cons_token hcolon (by rw [h.colon_kind]; decide)]
  refine cut_tokensOf _ _ hs (List.forall_mem_append.2 ⟨hu, h.no_colon⟩) ?_
  rintro n ⟨⟩
  exact h.colon

theorem onward_eq (h : r.Cut ns) (hs : SoundAll (r.nests ++ ns)) :
    Token.onward Token.isColon (tokensOf (r.nests ++ ns)) =
      r.colon.token :: tokensOf (r.second.toList ++ (r.blanks ++ ns)) := by
  rw [nests_append] at hs ⊢
  refine (h.cut_colon (fun n hn => ?_) hs).2
  have hl := h.lead.all n hn
  cases hc : n.token.isColon with
  | false => rfl
  | true =>
    rw [show n.kind = .colon from beq_iff_eq.1 hc] at hl
    cases hl

theorem targets_eq (h : r.Cut ns) (hs : SoundAll (r.nests ++ ns)) :
    RuleTokens.targets (tokensOf (r.nests ++ ns)) = tokensOf (r.words ++ r.gap) := by
  rw [RuleTokens.targets, dropWhile_tokensOf rfl hs]
  rw [nests_append] at hs ⊢
  have hnext : Skipped (·.kind.isLeading) r.lead
      ((r.words ++ r.gap) ++ r.colon :: (r.second.toList ++ (r.blanks ++ ns))) := by
    refine ⟨h.lead.all, fun n hn => h.lead.next n ?_⟩
    simpa [TargetRow.separators, List.head?_append] using hn
  rw [hnext.dropWhile]
  exact (h.cut_colon (List.forall_mem_nil _) (soundAll_append.1 hs).2).1

theorem isDouble_eq (h : r.Cut ns) (hs : SoundAll (r.nests ++ ns)) {start : Nat}
    (hseat : Seated start (r.nests ++ ns)) :
    RuleTokens.isDouble (tokensOf (r.nests ++ ns)) = r.second.isSome := by
  rw [RuleTokens.isDouble, h.onward_eq hs]
  have hk : r.colon.kind ≠ .expansionPrefix := by rw [h.colon_kind]; decide
  rw [nests_append] at hs hseat
  obtain ⟨-, hs⟩ := soundAll_append.1 hs
  obtain ⟨-, hcolon, hs⟩ := soundAll_append.1 hs
  have hseat := hseat.split.2.split.2
  have adjacent {m : Nest} {ms : List Nest} (hm : r.second.toList ++ (r.blanks ++ ns) = m :: ms) :
      m.token.position.offset = r.colon.token.stop ↔ m.first.leading = [] := by
    rw [hm] at hseat
    exact hseat.adjacent hcolon hk
  cases hm : r.second.toList ++ (r.blanks ++ ns) with
  | nil =>
    have hnone : r.second = none := by
      cases hr : r.second with
      | none => rfl
      | some m => simp [hr] at hm
    rw [hnone]
    rfl
  | cons m ms =>
    obtain ⟨ts, hts⟩ := exists_tokensOf_cons m ms
    rw [hts]
    have hadj := adjacent hm
    cases hr : r.second with
    | none =>
      have hnot := h.next hr m (by simp [hr] at hm; simp [hm])
      rw [← hadj] at hnot
      simpa [Token.isColon, Nest.isColon, Nest.kind] using hnot
    | some n =>
      obtain rfl : n = m := by simp [hr] at hm; exact hm.1
      obtain ⟨hc, hl⟩ := h.second n hr
      have hc : n.token.isColon = true := hc
      simp [hadj.2 hl, hc]

theorem rest_eq (h : r.Cut ns) (hs : SoundAll (r.nests ++ ns)) {start : Nat}
    (hseat : Seated start (r.nests ++ ns)) :
    RuleTokens.rest (tokensOf (r.nests ++ ns)) = tokensOf (r.blanks ++ ns) := by
  rw [RuleTokens.rest, h.isDouble_eq hs hseat, h.onward_eq hs]
  rw [nests_append] at hs
  have hs := (soundAll_append.1 (soundAll_append.1 hs).2).2.2
  cases hr : r.second with
  | none => rfl
  | some n =>
    rw [hr] at hs
    have hk : n.kind = .colon := beq_iff_eq.1 (h.second n hr).1
    show (r.colon.token :: tokensOf (n :: (r.blanks ++ ns))).drop 2 = _
    rw [tokensOf_cons_token hs.1 (by rw [hk]; decide)]
    rfl

end TargetRow.Cut

namespace Nest

open MakeTree.Token

variable {ns : List Nest}

/-- On a line no expansion breaks, so the search for an assignment ends where the header does. -/
theorem hasAssignOp_eq (hs : ∀ n ∈ ns, Parser.Solid n) :
    Line.hasAssignOp (ns.takeWhile (!·.isText [';'])) =
      (ns.takeWhile fun n => !n.token.endsWords).any isAssignOp := by
  unfold Line.hasAssignOp Line.header
  rw [List.takeWhile_takeWhile]
  induction ns with
  | nil => rfl
  | cons n ns ih =>
    have hb : n.breaksLine = n.isLineBreak := by
      cases hb : n.breaksLine with
      | false => exact (n.not_isLineBreak_of_not_breaksLine hb).symm
      | true =>
        obtain ⟨m, hm, hl⟩ := List.any_eq_true.1 hb
        exact (hs n List.mem_cons_self m hm hl).symm
    have hq : (decide ((!n.breaksLine && !n.isComment) = true ∧ (!n.isText [';']) = true)) =
        !n.token.endsWords := by
      rw [hb]
      show _ = !((n.isLineBreak || n.isComment) || n.isText [';'])
      cases n.isLineBreak <;> cases n.isComment <;> cases n.isText [';'] <;> rfl
    have ih := ih fun m hm => hs m (List.mem_cons_of_mem n hm)
    rw [List.takeWhile_cons, List.takeWhile_cons, hq]
    cases n.token.endsWords with
    | true => rfl
    | false => exact congrArg (n.isAssignOp || ·) ih

theorem assigns_tokensOf {blanks : List Nest} (hs : SoundAll (blanks ++ ns))
    (hb : ∀ n ∈ blanks, n.isWhitespace = true) (hsolid : ∀ n ∈ ns, Parser.Solid n) :
    RuleTokens.assigns (tokensOf (blanks ++ ns)) =
      Line.hasAssignOp (ns.takeWhile (!·.isText [';'])) := by
  have hclosed := closedAll_of_soundAll hs
  have hcut : ClosedAll ((blanks ++ ns).takeWhile fun n => !n.token.endsWords) := by
    rw [← List.takeWhile_append_dropWhile (p := fun n : Nest => !n.token.endsWords)
      (l := blanks ++ ns)] at hclosed
    exact (closedAll_append.1 hclosed).1
  have hpos : ∀ n ∈ blanks, (!n.token.endsWords) = true := fun n hn => by
    rw [endsWords_eq_false (Parser.not_stop_of_isWhitespace (hb n hn)).1]
    rfl
  have hnone : blanks.any isAssignOp = false := by
    refine List.any_eq_false.2 fun n hn => ?_
    have hk : n.kind = .whitespace := beq_iff_eq.1 (hb n hn)
    simp [isAssignOp, hk]
  rw [hasAssignOp_eq hsolid, RuleTokens.assigns, before_tokensOf endsWords hclosed,
    outer_tokensOf hcut, List.any_map, List.takeWhile_append_of_pos hpos, List.any_append]
  show (blanks.any isAssignOp || _) = _
  rw [hnone]
  rfl

theorem getLast_tokensOf (hs : SoundAll ns) (h : ∀ n ∈ ns.getLast?, n.isWhitespace = false)
    (hne : tokensOf ns ≠ []) : ((tokensOf ns).getLast hne).isBlank = false := by
  rcases List.eq_nil_or_concat' ns with rfl | ⟨ms, n, rfl⟩
  · exact absurd rfl hne
  · have hn := (soundAll_append.1 hs).2.1
    have hw : n.isWhitespace = false := h n (by simp)
    obtain ⟨ts, t, ht, hlast⟩ : ∃ ts t, n.flatten.map token = ts ++ [t] ∧ t.isBlank = false := by
      cases n with
      | expansion opener body closer =>
        refine ⟨opener.token :: (flattenAll body).map token, closer.token, ?_, ?_⟩
        · rw [flatten, List.map_cons, List.map_append]
          rfl
        · rw [Token.isBlank, hn.2.2.2.2]
          rfl
      | _ => exact ⟨[], _, rfl, hw⟩
    have hall : tokensOf (ms ++ [n]) = (tokensOf ms ++ ts) ++ [t] := by
      rw [tokensOf_append, tokensOf_cons, ht, List.append_assoc]
      simp [tokensOf, flattenAll]
    simp only [hall, List.getLast_concat, hlast]

theorem trim_tokensOf {blanks us gap : List Nest} (hs : SoundAll (blanks ++ (us ++ gap)))
    (hb : Skipped isWhitespace blanks (us ++ gap)) (hg : ∀ n ∈ gap, n.isWhitespace = true)
    (hu : ∀ n ∈ us.getLast?, n.isWhitespace = false) :
    trim (tokensOf (blanks ++ (us ++ gap))) = tokensOf us := by
  have hdrop : (tokensOf (blanks ++ (us ++ gap))).dropWhile Token.isBlank =
      tokensOf ((blanks ++ (us ++ gap)).dropWhile isWhitespace) :=
    dropWhile_tokensOf (q := (· == .whitespace)) rfl hs
  obtain ⟨hus, hgap⟩ := soundAll_append.1 (soundAll_append.1 hs).2
  have hblank : ∀ t ∈ (tokensOf gap).reverse, t.isBlank = true := fun t ht =>
    beq_iff_eq.2 (tokensOf_blanks hgap hg t (List.mem_reverse.1 ht))
  have hself : (tokensOf us).rdropWhile Token.isBlank = tokensOf us :=
    List.rdropWhile_eq_self_iff.2 fun hne => by simp [getLast_tokensOf hus hu hne]
  rw [trim, hdrop, hb.dropWhile, tokensOf_append, List.rdropWhile, List.reverse_append,
    List.dropWhile_append_of_pos hblank]
  exact hself

end Nest

section Rest

open MakeTree.Nest MakeTree.Token

variable {blanks us tail : List Nest} {ts vs : List Tree}

theorem ListRow.Cut.cut {r : ListRow} {rest : List Nest} (h : r.Cut rest)
    (hs : SoundAll (blanks ++ (r.nests ++ rest))) (hb : ∀ n ∈ blanks, n.isWhitespace = true) :
    before endsList (tokensOf (blanks ++ (r.nests ++ rest))) = tokensOf (blanks ++ r.nests) ∧
      onward endsList (tokensOf (blanks ++ (r.nests ++ rest))) = tokensOf rest := by
  have blank {n : Nest} (hn : n.isWhitespace = true) : n.token.endsList = false :=
    (Parser.not_stop_of_isWhitespace hn).1
  rw [← List.append_assoc] at hs ⊢
  refine cut_tokensOf _ _ hs (List.forall_mem_append.2 ⟨fun n hn => blank (hb n hn), ?_⟩) h.next
  exact List.forall_mem_append.2 ⟨h.words, fun n hn => blank (h.gap n hn)⟩

theorem EndRow.endsWords (he : EndRow tail vs) (ht : ∀ n ∈ tail.head?, n.endsList = true) :
    ∀ n ∈ tail.head?, n.token.endsWords = true := by
  cases he with
  | @command r hl =>
    rintro n ⟨⟩
    exact Bool.or_eq_true_iff.2 (.inr hl)
  | plain _ hn =>
    cases tail with
    | nil => exact nofun
    | cons m tail =>
      rintro n ⟨⟩
      have ht := ht m rfl
      have hw : m.isWhitespace = false := by
        by_contra hw
        rw [(Parser.not_stop_of_isWhitespace (Bool.not_eq_false _ ▸ hw)).1] at ht
        cases ht
      rw [List.dropWhile_cons_of_neg (by simp [hw])] at hn
      have hn := (hn m List.mem_cons_self).symm
      exact Bool.or_eq_true_iff.2 (.inl (Bool.or_eq_true_iff.2 hn))

theorem OrderRow.cut (ho : OrderRow us tail ts) (he : EndRow tail vs) (hs : SoundAll (us ++ tail))
    {all : List Token} (ha : onward endsList all = tokensOf (us ++ tail)) :
    RuleTokens.ending all = tokensOf tail ∧ ∃ (front blanks : List Nest) (r : ListRow),
      us = front ++ r.nests ∧ ts = treesOf front ++ r.trees .orderOnly ∧
      (∀ n ∈ front, n.isBar = true ∨ n.isWhitespace = true) ∧ blanks ⊆ front ∧
      (∀ n ∈ blanks, n.isWhitespace = true) ∧ (∀ n ∈ r.gap, n.isWhitespace = true) ∧
      RuleTokens.orderOnly all = tokensOf (blanks ++ r.nests) := by
  cases ho with
  | none hb =>
    have hbehind : RuleTokens.behindBar? all = Option.none := by
      rw [RuleTokens.behindBar?, ha, List.nil_append]
      cases tail with
      | nil => rfl
      | cons m tail =>
        obtain ⟨xs, hxs⟩ := exists_tokensOf_cons m tail
        have hm : m.token.isBar = false := hb m rfl
        simp [hxs, hm]
    rw [RuleTokens.ending, RuleTokens.orderOnly, hbehind]
    exact ⟨ha, [], [], ⟨[], []⟩, rfl, rfl, nofun, List.Subset.refl _, nofun, nofun, rfl⟩
  | @list bar blanks rest r hb hsk hr =>
    have hbar : bar.kind ≠ .expansionPrefix := by
      rw [kind_of_isText hb]
      decide
    have hbehind : RuleTokens.behindBar? all = some (tokensOf ((blanks ++ r.nests) ++ tail)) := by
      rw [RuleTokens.behindBar?, ha, List.cons_append, tokensOf_cons_token hs.1 hbar]
      exact if_pos hb
    have blank {n : Nest} (hn : n.isWhitespace = true) : n.token.endsWords = false :=
      endsWords_eq_false (Parser.not_stop_of_isWhitespace hn).1
    have hcut := cut_tokensOf (blanks ++ r.nests) tail hs.2
      (List.forall_mem_append.2 ⟨fun n hn => blank (hsk.all n hn), List.forall_mem_append.2
        ⟨fun n hn => endsWords_eq_false (hr.words n hn), fun n hn => blank (hr.gap n hn)⟩⟩)
      (he.endsWords hr.next)
    rw [RuleTokens.ending, RuleTokens.orderOnly, hbehind]
    refine ⟨hcut.2, bar :: blanks, blanks, r, rfl, rfl, fun n hn => ?_,
      List.subset_cons_self bar blanks, hsk.all, hr.gap, hcut.1⟩
    rcases List.mem_cons.1 hn with rfl | hn
    · exact .inl hb
    · exact .inr (hsk.all n hn)

theorem CommandRow.Cut.inline?_eq {r : CommandRow} (h : r.Cut) (hl : r.lead.isSemicolon = true)
    (hs : SoundAll r.nests) : RuleTokens.inline? (tokensOf r.nests) = some (tokensOf r.command) := by
  have hlead : r.lead.kind ≠ .expansionPrefix := by
    rw [kind_of_isText hl]
    decide
  have hsplit : r.blanks ++ (r.command ++ r.tail) =
      (r.blanks ++ (r.command ++ r.tail.takeWhile isWhitespace)) ++
        r.tail.dropWhile isWhitespace := by
    rw [List.append_assoc, List.append_assoc, List.takeWhile_append_dropWhile]
  have hgap : ∀ n ∈ r.tail.takeWhile isWhitespace, n.isWhitespace = true :=
    fun n hn => List.mem_takeWhile_imp hn
  have hl : r.lead.token.isSemicolon = true := hl
  have hrest : SoundAll (r.blanks ++ (r.command ++ r.tail)) := hs.2
  rw [hsplit] at hrest
  have blank {n : Nest} (hn : n.isWhitespace = true) : n.token.isLineBreak = false :=
    (Bool.or_eq_false_iff.1 (endsLine_of_isWhitespace hn)).1
  have hcut : before Token.isLineBreak (tokensOf (r.blanks ++ (r.command ++ r.tail))) =
      tokensOf (r.blanks ++ (r.command ++ r.tail.takeWhile isWhitespace)) := by
    rw [hsplit]
    refine (cut_tokensOf _ _ hrest ?_ ?_).1
    · refine List.forall_mem_append.2 ⟨fun n hn => blank (h.blanks.all n hn), ?_⟩
      exact List.forall_mem_append.2
        ⟨fun n hn => (h.command.all n hn).1, fun n hn => blank (hgap n hn)⟩
    · exact fun n hn => h.tail n (List.mem_of_mem_head? hn)
  · rw [CommandRow.nests, tokensOf_cons_token hs.1 hlead, RuleTokens.inline?, if_pos hl,
      hcut, trim_tokensOf (soundAll_append.1 hrest).1 ⟨h.blanks.all, ?_⟩ hgap h.command.last]
    -- what comes behind the blanks is no blank, also where there is no command
    intro n hn
    refine h.blanks.next n ?_
    cases hc : r.command with
    | cons m ms => simpa [hc] using hn
    | nil =>
      cases ht : r.tail with
      | nil => simp [hc, ht] at hn
      | cons m ms =>
        have hm := h.blanks.next m (by simp [hc, ht])
        simp [hc, ht, hm] at hn

theorem inline?_plain {ns : List Nest} (hs : ∀ n ∈ ns.head?, n.isSemicolon = false) :
    RuleTokens.inline? (tokensOf ns) = none := by
  cases ns with
  | nil => rfl
  | cons n ns =>
    obtain ⟨ts, hts⟩ := exists_tokensOf_cons n ns
    rw [hts, RuleTokens.inline?, if_neg]
    rw [show n.token.isSemicolon = false from hs n rfl]
    decide

end Rest

end MakeTree
