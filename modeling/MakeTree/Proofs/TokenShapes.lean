import MakeTree.Proofs.Lexer.Words
import MakeTree.Proofs.PrefixTokens
import MakeTree.View.Assignment

/-!
How tokens are written, and that they are as long as they can be (`lexer_lexemes`). What a token of
a kind reads off a text depends on what follows it: runs of blanks and words do not go on there, no
longer operator stands there, and a quote by itself has no other on its line.
-/

namespace MakeTree

namespace Text

/-- A run of characters that does not go on in what follows it. -/
structure IsRun (p : Char → Bool) (s after : Text) : Prop where
  ne_nil : s ≠ []
  chars : ∀ d ∈ s, p d = true
  stops : ∀ d ∈ after.head?, p d = false

theorem IsRun.takeWhile {p : Char → Bool} {c : Char} (hc : p c = true) (t : Text) :
    IsRun p (c :: t.takeWhile p) (t.dropWhile p) := by
  constructor
  · exact List.cons_ne_nil _ _
  · intro d hd
    rcases List.mem_cons.1 hd with rfl | hd
    · exact hc
    · exact List.mem_takeWhile_imp hd
  · intro d hd
    have hstop := List.head?_dropWhile_not p t
    rw [Option.mem_def.1 hd] at hstop
    simpa using hstop

theorem beginsLineBreak_iff {t : Text} :
    t.BeginsLineBreak ↔ t[0]? = some '\r' ∨ t[0]? = some '\n' := by
  rw [← lineBreak?_isSome, Option.isSome_iff_ne_none, ne_eq, lineBreak?_eq_none, not_not]

theorem beginsContinuation_iff {t : Text} : t.BeginsContinuation ↔
    t[0]? = some '\\' ∧ (t[1]? = some '\r' ∨ t[1]? = some '\n') := by
  rw [← continuation?_isSome, Option.isSome_iff_ne_none, ne_eq, continuation?_eq_none, not_not]

theorem exists_cons {t : Text} {d : Char} (h : t[0]? = some d) : ∃ r, t = d :: r := by
  rw [← List.head?_eq_getElem?] at h
  exact List.head?_eq_some_iff.1 h

theorem exists_cons_cons {t : Text} {d e : Char} (h : t[0]? = some d ∧ t[1]? = some e) :
    ∃ r, t = d :: e :: r := by
  obtain ⟨r, rfl⟩ := exists_cons h.1
  obtain ⟨r, rfl⟩ := exists_cons (t := r) (by simpa using h.2)
  exact ⟨r, rfl⟩

/-- A literal: quotes around text that holds neither that quote nor a line break. -/
def IsQuoted (s : Text) : Prop :=
  ∃ q inside, (q = '"' ∨ q = '\'') ∧ s = q :: (inside ++ [q]) ∧
    ∀ d ∈ inside, d ≠ q ∧ d ≠ '\n' ∧ d ≠ '\r'

/-- A parenthesis or hash sign behind a backslash. -/
def IsEscaped (s : Text) : Prop := ∃ d, (d = '(' ∨ d = ')' ∨ d = '#') ∧ s = ['\\', d]

/-- A character that makes no longer token with what follows it, and is no token of another kind. -/
structure Lone (d : Char) (after : Text) : Prop where
  inWord : isWordChar d = false
  blank : isBlank d = false
  legal : isIllegal d = false
  lineBreak : d ≠ '\n' ∧ d ≠ '\r'
  mark : d ≠ '#' ∧ d ≠ ',' ∧ d ≠ ':'
  operator : ∀ op : AssignOp, ¬ op.spelling.toList <+: d :: after
  quote : d = '"' ∨ d = '\'' → d ∉ line after
  dollar : d = '$' → after = [] ∨ after.BeginsLineBreak ∨ after.BeginsContinuation
  backslash : d = '\\' →
    after.head? ∉ ['(', ')', '#'].map some ∧ ¬ after.BeginsLineBreak

end Text

/-- What a token of the kind is, in front of the text `after`. -/
def TokenKind.Reads (s after : Text) : TokenKind → Prop
  | lineBreak => s.IsLineBreak ∧ s.EndsLine after
  | recipePrefix => ∃ d, s = [d]
  | comment => s.head? = some '#' ∧ s.IsRun (fun d => d != '\n' && d != '\r') after
  | stringLiteral => s.IsQuoted
  | plainText =>
    s.IsRun isWordChar after ∨ s = ['$', '$', '('] ∨ s.IsEscaped ∨ ∃ d, s = [d] ∧ Text.Lone d after
  | expansionPrefix => s = ['$', '('] ∨ s = ['$', '{']
  | expansionSuffix => s = [')'] ∨ s = ['}']
  | varRef => (∃ d, s = ['$', d] ∧ d ≠ '(' ∧ d ≠ '{' ∧ ¬ Text.BeginsLineBreak (d :: after) ∧
    ¬ Text.BeginsContinuation (d :: after)) ∧ ¬ ['$', '$', '('] <+: s ++ after
  | assignOp => (∃ op : AssignOp, s = op.spelling.toList) ∧
    ∀ op : AssignOp, op.spelling.toList <+: s ++ after → op.spelling.toList.length ≤ s.length
  | colon => s = [':'] ∧ ∀ op : AssignOp, ¬ op.spelling.toList <+: s ++ after
  | comma => s = [',']
  | whitespace => s.IsRun isBlank after
  | keyword k => s ∈ k.spellings ∧ s.IsRun isWordChar after

namespace AssignOp

variable {op : AssignOp}

theorem of_prefix {d : Char} {t : Text} (h : op.spelling.toList <+: d :: t) : d = '=' ∨
    d = ':' ∧ (t[0]? = some '=' ∨ t[0]? = some ':' ∧ t[1]? = some '=') ∨
    (d = '?' ∨ d = '+' ∨ d = '!') ∧ t[0]? = some '=' := by
  obtain ⟨r, h⟩ := h
  cases op with
  | deferred => cases h; exact .inl rfl
  | conditional => cases h; exact .inr (.inr ⟨.inl rfl, rfl⟩)
  | immediate => cases h; exact .inr (.inl ⟨rfl, .inl rfl⟩)
  | immediatePosix => cases h; exact .inr (.inl ⟨rfl, .inr ⟨rfl, rfl⟩⟩)
  | append => cases h; exact .inr (.inr ⟨.inr (.inl rfl), rfl⟩)
  | shell => cases h; exact .inr (.inr ⟨.inr (.inr rfl), rfl⟩)

theorem length_le_three (op : AssignOp) : op.spelling.toList.length ≤ 3 := by
  cases op <;> decide

theorem length_le_two {d : Char} {t : Text} (h : op.spelling.toList <+: d :: '=' :: t) :
    op.spelling.toList.length ≤ 2 := by
  cases op with
  | immediatePosix =>
    obtain ⟨r, h⟩ := h
    cases h
  | _ => decide

end AssignOp

theorem Text.Lone.sign {d : Char} {t : Text}
    (hd : d ∈ ['$', '\\', '(', ')', '}', '?', '+', '!', '"', '\''])
    (hop : d = '?' ∨ d = '+' ∨ d = '!' → t[0]? ≠ some '=')
    (hquote : d = '"' ∨ d = '\'' → d ∉ line t)
    (hdollar : d = '$' → t = [] ∨ t.BeginsLineBreak ∨ t.BeginsContinuation)
    (hback : d = '\\' → t.head? ∉ ['(', ')', '#'].map some ∧ ¬ t.BeginsLineBreak) : Lone d t := by
  have hsign : isWordChar d = false ∧ isBlank d = false ∧ isIllegal d = false ∧
      (d ≠ '\n' ∧ d ≠ '\r') ∧ (d ≠ '#' ∧ d ≠ ',' ∧ d ≠ ':') ∧ d ≠ '=' := by
    clear hop hquote hdollar hback
    simp only [List.mem_cons, List.not_mem_nil, or_false] at hd
    rcases hd with rfl | rfl | rfl | rfl | rfl | rfl | rfl | rfl | rfl | rfl <;> decide
  obtain ⟨hword, hblank, hlegal, hbreak, hmark, heq⟩ := hsign
  refine ⟨hword, hblank, hlegal, hbreak, hmark, fun op h => ?_, hquote, hdollar, hback⟩
  rcases AssignOp.of_prefix h with h | ⟨h, -⟩ | ⟨h, h'⟩
  · exact heq h
  · exact hmark.2.2 h
  · exact hop h h'

namespace Shape

variable {frames : List Frame} {b : Bool} {c : Char} {t : Text}

/-- The piece is a token as its kind is written, if it is one. -/
def Reads (c : Char) (after : Text) : Shape → Prop
  | token kind more _ => kind.Reads (c :: after.take more) (after.drop more)
  | _ => True

theorem take_takeWhile (p : Char → Bool) (t : Text) :
    t.take (t.takeWhile p).length = t.takeWhile p ∧
      t.drop (t.takeWhile p).length = t.dropWhile p := by
  have htake := (List.prefix_iff_eq_take.1 (List.takeWhile_prefix (l := t) p)).symm
  refine ⟨htake, ?_⟩
  have hsplit := List.take_append_drop (t.takeWhile p).length t
  rw [htake] at hsplit
  exact List.append_cancel_left (hsplit.trans List.takeWhile_append_dropWhile.symm)

theorem reads_plain (h : Text.Lone c t) : (plain 0).Reads c t :=
  .inr (.inr (.inr ⟨c, by simp, by simpa using h⟩))

theorem reads_bracket (hc : c ∈ ['(', ')', '}']) : (plain 0).Reads c t := by
  have hne : c ∈ ['$', '\\', '(', ')', '}', '?', '+', '!', '"', '\''] ∧
      ¬ (c = '?' ∨ c = '+' ∨ c = '!') ∧ ¬ (c = '"' ∨ c = '\'') ∧ c ≠ '$' ∧ c ≠ '\\' := by
    simp only [List.mem_cons, List.not_mem_nil, or_false] at hc
    rcases hc with rfl | rfl | rfl <;> decide
  obtain ⟨hsign, hop, hquote, hdollar, hback⟩ := hne
  apply reads_plain
  exact .sign hsign (fun h => absurd h hop) (fun h => absurd h hquote) (fun h => absurd h hdollar)
    (fun h => absurd h hback)

theorem reads_dollar (t : Text) : (dollar t).Reads '$' t := by
  rw [dollar_eq]
  split
  · next h =>
    obtain ⟨r, rfl⟩ := Text.exists_cons_cons h
    exact .inr (.inl rfl)
  · next hdouble =>
    split
    · next h =>
      rcases h with h | h
      · obtain ⟨r, rfl⟩ := Text.exists_cons h
        exact .inl rfl
      · obtain ⟨r, rfl⟩ := Text.exists_cons h
        exact .inr rfl
    · next hopen =>
      split
      · next h =>
        apply reads_plain
        refine .sign (by decide) (fun h => absurd h (by decide)) (fun h => absurd h (by decide))
          (fun _ => ?_) (fun h => absurd h (by decide))
        rw [Text.beginsLineBreak_iff, Text.beginsContinuation_iff]
        exact h.imp_left fun h => by simpa using h
      · next h =>
        obtain ⟨y, r, rfl⟩ := List.exists_cons_of_ne_nil (l := t) (by rintro rfl; simp at h)
        rw [← Text.beginsLineBreak_iff, ← Text.beginsContinuation_iff, not_or, not_or] at h
        refine ⟨⟨y, rfl, fun hy => hopen (.inl ?_), fun hy => hopen (.inr ?_), h.2⟩, fun hd => ?_⟩
        · rw [hy]
          rfl
        · rw [hy]
          rfl
        · obtain ⟨r', hd⟩ := hd
          cases hd
          exact hdouble ⟨rfl, rfl⟩

theorem reads_backslash (hb : Text.continuation? ('\\' :: t) = none) :
    (backslash t).Reads '\\' t := by
  rw [backslash_eq]
  split
  · next h =>
    obtain ⟨y, r, rfl⟩ := List.exists_cons_of_ne_nil (l := t) (by rintro rfl; simp at h)
    exact .inr (.inr (.inl ⟨y, by simpa using h, rfl⟩))
  · next h =>
    apply reads_plain
    refine .sign (by decide) (fun h => absurd h (by decide)) (fun h => absurd h (by decide))
      (fun h => absurd h (by decide)) (fun _ => ⟨?_, ?_⟩)
    · simpa [List.head?_eq_getElem?] using h
    · rw [Text.continuation?_eq_none, Text.beginsContinuation_iff] at hb
      rw [Text.beginsLineBreak_iff]
      exact fun h => hb ⟨rfl, h⟩

theorem reads_closing (hc : c = ')' ∨ c = '}') : (closing frames).Reads c t := by
  have hbracket : c ∈ ['(', ')', '}'] := List.mem_cons_of_mem _ (by simpa using hc)
  have hsuffix : [c] = [')'] ∨ [c] = ['}'] := by simpa using hc
  unfold closing
  split
  · exact reads_bracket hbracket
  · exact hsuffix
  · exact reads_bracket hbracket

theorem reads_opening : (opening frames).Reads '(' t := by
  unfold opening
  split <;> exact reads_bracket (by decide)

theorem reads_assign {n : Nat} (op : AssignOp) (hop : c :: t.take n = op.spelling.toList)
    (hlong : ∀ op : AssignOp, op.spelling.toList <+: c :: t →
      op.spelling.toList.length ≤ (c :: t.take n).length) : (assign n).Reads c t := by
  refine ⟨⟨op, hop⟩, ?_⟩
  rwa [List.cons_append, List.take_append_drop]

theorem reads_equals : (assign 0).Reads '=' t := by
  refine reads_assign .deferred rfl fun op hop => ?_
  obtain ⟨r, hop⟩ := hop
  cases op with
  | deferred => exact Nat.le_refl _
  | _ => cases hop

theorem reads_colon : (colon t).Reads ':' t := by
  rw [colon_eq]
  split
  · next h =>
    obtain ⟨r, rfl⟩ := Text.exists_cons_cons h
    exact reads_assign .immediatePosix rfl fun op _ => op.length_le_three
  · split
    · next h =>
      obtain ⟨r, rfl⟩ := Text.exists_cons h
      exact reads_assign .immediate rfl fun op => AssignOp.length_le_two
    · next h h' =>
      refine ⟨rfl, fun op hop => ?_⟩
      rcases AssignOp.of_prefix hop with hd | ⟨-, hd | hd⟩ | ⟨hd, -⟩
      · exact absurd hd (by decide)
      · exact h' hd
      · exact h hd
      · exact absurd hd (by decide)

theorem reads_beforeEquals (hc : c = '?' ∨ c = '+' ∨ c = '!') :
    (beforeEquals t).Reads c t := by
  rw [beforeEquals_eq]
  split
  · next h =>
    obtain ⟨r, rfl⟩ := Text.exists_cons h
    obtain ⟨op, hop⟩ : ∃ op : AssignOp, [c, '='] = op.spelling.toList := by
      rcases hc with rfl | rfl | rfl
      · exact ⟨.conditional, rfl⟩
      · exact ⟨.append, rfl⟩
      · exact ⟨.shell, rfl⟩
    exact reads_assign op hop fun op' => AssignOp.length_le_two
  · next h =>
    have hsign : c ∈ ['$', '\\', '(', ')', '}', '?', '+', '!', '"', '\''] ∧
        ¬ (c = '"' ∨ c = '\'') ∧ c ≠ '$' ∧ c ≠ '\\' := by
      rcases hc with rfl | rfl | rfl <;> decide
    obtain ⟨hsign, hquote, hdollar, hback⟩ := hsign
    apply reads_plain
    exact .sign hsign (fun _ => h) (fun h => absurd h hquote) (fun h => absurd h hdollar)
      (fun h => absurd h hback)

theorem getElem?_of_mem_line (hc : c ∈ Text.line t) :
    t[(t.takeWhile fun d => d != c && d != '\n' && d != '\r').length]? = some c := by
  induction t with
  | nil => cases hc
  | cons d t ih =>
    by_cases hd : d = c
    · rw [List.takeWhile_cons_of_neg (by simp [hd]), hd]
      rfl
    · have hline : (d != '\n' && d != '\r') = true := by
        by_contra hbreak
        rw [Text.line, List.takeWhile_cons, if_neg hbreak] at hc
        cases hc
      rw [Text.line, List.takeWhile_cons, if_pos hline] at hc
      have hc : c ∈ Text.line t := (List.mem_cons.1 hc).resolve_left (Ne.symm hd)
      have hstretch : (d != c && d != '\n' && d != '\r') = true := by
        rw [Bool.and_assoc, hline, Bool.and_true, bne_iff_ne]
        exact hd
      rw [List.takeWhile_cons, if_pos hstretch, List.length_cons, List.getElem?_cons_succ]
      exact ih hc

theorem reads_quote (hc : c = '"' ∨ c = '\'') : (quote c t).Reads c t := by
  simp only [quote]
  split
  · next h =>
    refine ⟨c, t.takeWhile fun d => d != c && d != '\n' && d != '\r', hc, ?_, ?_⟩
    · rw [List.take_add_one, h, (take_takeWhile _ t).1]
      rfl
    · intro d hd
      simpa [and_assoc] using List.mem_takeWhile_imp hd
  · next h =>
    have hsign : c ∈ ['$', '\\', '(', ')', '}', '?', '+', '!', '"', '\''] ∧
        ¬ (c = '?' ∨ c = '+' ∨ c = '!') ∧ c ≠ '$' ∧ c ≠ '\\' := by
      rcases hc with rfl | rfl <;> decide
    obtain ⟨hsign, hop, hdollar, hback⟩ := hsign
    apply reads_plain
    exact .sign hsign (fun h => absurd h hop) (fun _ hline => h (getElem?_of_mem_line hline))
      (fun h => absurd h hdollar) (fun h => absurd h hback)

theorem reads_word (hc : isWordChar c = true) :
    (word frames b (c :: t.takeWhile isWordChar)).Reads c t := by
  obtain ⟨htake, hdrop⟩ := take_takeWhile isWordChar t
  have hrun := Text.IsRun.takeWhile hc t
  have hplain : (plain (t.takeWhile isWordChar).length).Reads c t := by
    refine .inl ?_
    rwa [htake, hdrop]
  unfold word
  split
  · exact hplain
  · next k hk =>
    split
    · refine ⟨?_, ?_⟩
      · simpa [htake] using Keyword.ofText_eq_some.1 hk
      · simpa [htake, hdrop] using hrun
    · exact hplain

theorem reads_inLine (hb : Text.lineBreak? (c :: t) = none)
    (hcont : Text.continuation? (c :: t) = none) : (inLine frames b c t).Reads c t := by
  unfold inLine
  split
  · exact reads_dollar t
  · exact reads_backslash hcont
  · exact reads_closing (.inl rfl)
  · exact reads_closing (.inr rfl)
  · exact reads_opening
  · exact reads_equals
  · exact reads_colon
  · exact reads_beforeEquals (.inl rfl)
  · exact reads_beforeEquals (.inr (.inl rfl))
  · exact reads_beforeEquals (.inr (.inr rfl))
  · exact rfl
  · refine ⟨rfl, ?_⟩
    obtain ⟨htake, hdrop⟩ := take_takeWhile (fun d => d != '\n' && d != '\r') t
    rw [Text.line, htake, hdrop]
    exact .takeWhile (by decide) t
  · exact reads_quote (.inl rfl)
  · exact reads_quote (.inr rfl)
  · next hdollar hback hclose hbrace hopen heq hcolon hask hplus hbang hcomma hhash hdouble hsingle =>
    split
    · next hblank =>
      obtain ⟨htake, hdrop⟩ := take_takeWhile isBlank t
      have hrun := Text.IsRun.takeWhile hblank t
      rwa [← htake, ← hdrop] at hrun
    · next hblank =>
      split
      · next hword => exact reads_word hword
      · next hword =>
        split
        · exact trivial
        · next hlegal =>
          apply reads_plain
          refine ⟨Bool.eq_false_iff.2 hword, Bool.eq_false_iff.2 hblank, Bool.eq_false_iff.2 hlegal,
            Text.ne_break_of_lineBreak?_eq_none hb, ⟨hhash, hcomma, hcolon⟩, fun op hop => ?_,
            fun h => absurd h (not_or.2 ⟨hdouble, hsingle⟩), fun h => absurd h hdollar,
            fun h => absurd h hback⟩
          rcases AssignOp.of_prefix hop with h | ⟨h, -⟩ | ⟨h | h | h, -⟩
          · exact heq h
          · exact hcolon h
          · exact hask h
          · exact hplus h
          · exact hbang h

end Shape

namespace Lexer

variable {lx next : Lexer} {t : Token} {change : FrameChange}

/-- What a step cuts off as a token is written as its kind is. -/
theorem step_reads (h : lx.step = some (.token t change, next)) :
    t.kind.Reads t.text next.rest := by
  obtain ⟨c, after, hr, ⟨kind, more, ch, hs, hp, rfl⟩ | ⟨_, -, hp, -⟩ | ⟨-, hp, -⟩⟩ := step_cases h
  · cases hp
    have hreads : (lx.shape c after).Reads c after := by
      obtain ⟨more, hb, he⟩ | ⟨more, -, -, he⟩ | ⟨hb, hc, he | he⟩ := lx.shape_cases c after
      · rw [he]
        exact Text.lineBreak?_eq_some hb
      · rw [he]
        trivial
      · rw [he]
        exact ⟨c, rfl⟩
      · rw [he]
        exact Shape.reads_inLine hb hc
    rwa [hs] at hreads
  · cases hp
  · cases hp

end Lexer

theorem TokenKind.Reads.doubled {k : TokenKind} {s after : Text} (h : k.Reads s after)
    (hne : s ≠ []) (hk : k ≠ .recipePrefix) (hd : ['$', '$', '('] <+: s ++ after) :
    k = .plainText ∧ s = ['$', '$', '('] := by
  obtain ⟨d, s, rfl⟩ := List.exists_cons_of_ne_nil hne
  obtain ⟨r, hd⟩ := hd
  obtain ⟨rfl, htail⟩ := List.cons.inj hd
  have hword : ¬ Text.IsRun isWordChar ('$' :: s) after :=
    fun h => absurd (h.chars '$' List.mem_cons_self) (by decide)
  cases k with
  | recipePrefix => exact absurd rfl hk
  | varRef => exact absurd ⟨r, hd⟩ h.2
  | plainText =>
    rcases h with h | h | ⟨e, -, h⟩ | ⟨e, h, hlone⟩
    · exact absurd h hword
    · exact ⟨rfl, h⟩
    · cases h
    · cases h
      obtain rfl : '$' :: '(' :: r = after := htail
      rcases hlone.dollar rfl with h | h | h
      · cases h
      · simp [Text.beginsLineBreak_iff] at h
      · simp [Text.beginsContinuation_iff] at h
  | lineBreak =>
    rcases h.1 with h | h | h <;> cases h
  | comment => cases h.1
  | stringLiteral =>
    obtain ⟨q, inside, rfl | rfl, h, -⟩ := h <;> cases h
  | expansionPrefix =>
    rcases h with h | h <;> cases h <;> cases htail
  | expansionSuffix => rcases h with h | h <;> cases h
  | assignOp =>
    obtain ⟨⟨op, h⟩, -⟩ := h
    cases op <;> cases h
  | colon => cases h.1
  | comma => cases h
  | whitespace => exact absurd (h.chars '$' List.mem_cons_self) (by decide)
  | keyword k => exact absurd h.2 hword

/-- Each token of a text is written as its kind is and is as long as it can be there. What two dollar
signs and a parenthesis begin is text, if it is not a recipe prefix, and never an expansion. -/
theorem lexer_lexemes (text : Text) (c : Char) :
    let lx := Lexer.start text c
    (∀ n, (lx.ahead n).next.1 = lx.yielded[n]?) ∧
      ∀ t, .ok t ∈ lx.yielded → ∃ before after, text = before ++ (t.text ++ after) ∧
        before.byteSize = t.position.offset ∧ t.kind.Reads t.text after ∧
        (['$', '$', '('] <+: t.text ++ after → t.kind ≠ .recipePrefix →
          t.kind = .plainText ∧ t.text = ['$', '$', '(']) := by
  intro lx
  refine ⟨lx.ahead_next, fun t ht => ?_⟩
  obtain ⟨ps, mid, change, next, hps, hs⟩ := Lexer.exists_step ht
  have hreads := Lexer.step_reads hs
  have hrest : t.text ++ next.rest = mid.rest := Lexer.step_text hs
  refine ⟨ps.flatMap Piece.text, next.rest, ?_, ?_, hreads, ?_⟩
  · rw [hrest]
    exact hps.text.symm
  · rw [Lexer.step_token_position hs, hps.offset]
    exact (Nat.zero_add _).symm
  · intro hd hk
    exact hreads.doubled (Lexer.step_text_ne_nil hs) hk hd

end MakeTree
