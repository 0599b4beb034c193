import Mathlib
import MakeTree.Proofs.Grammar.Records
import MakeTree.Proofs.Lossless
import MakeTree.Proofs.Nest.Regroup

/-!
Strict and lenient readings of one text (`parse_strict`). A strict reading is refused for the
illegal character that a lenient one first records as skipped; where there is none, both come to
the same, and nothing in the tree was skipped.
-/

namespace MakeTree

namespace Lexer

theorem isFrame_of_mem_search (lx : Lexer) : ∀ e ∈ lx.search.1, e.IsFrame := by
  fun_induction search lx with
  | case1 lx h => exact fun e he => absurd he List.not_mem_nil
  | case2 lx s next h ih => exact ih
  | case3 lx q c next h => exact fun e he => absurd he List.not_mem_nil
  | case4 lx t change next h hk events e hs ih =>
    rwa [hs] at ih
  | case5 lx t change next h hk events hs r ih₁ ih₂ =>
    rw [hs] at ih₁
    exact fun e he => (List.mem_append.1 he).elim (ih₁ e) (ih₂ e)
  | case6 lx t change next h hk r ih =>
    intro e he
    exact (List.mem_append.1 he).elim Piece.isFrame_of_mem_frameEvents (ih e)

theorem search_illegal {lx : Lexer} {e : LexError} (h : lx.search.2 = some e) :
    ∃ p c, e = .illegalCharacter p c := by
  fun_induction search lx with
  | case1 lx hs => cases h
  | case2 lx s next hs ih => exact ih h
  | case3 lx q c next hs =>
    cases h
    exact ⟨q, c, rfl⟩
  | case4 lx t change next hs hk events e' he ih =>
    cases h
    exact ih (by rw [he])
  | case5 lx t change next hs hk events he r _ ih => exact ih h
  | case6 lx t change next hs hk r ih => exact ih h

end Lexer

namespace Event

theorem filter_warn_eq_nil {es : List Event} (h : ∀ e ∈ es, e.IsProgress) :
    es.filter (·.level == .warn) = [] :=
  List.filter_eq_nil_iff.2 fun e he hw => h e he (by simpa using hw)

end Event

namespace Piece

theorem hidden?_illegal {p : Piece} {e : LexError} (h : p.hidden? = some e) :
    ∃ q c, e = .illegalCharacter q c := by
  cases p with
  | token t change =>
    rw [hidden?] at h
    split at h
    · exact Lexer.search_illegal h
    · cases h
  | continuation s => cases h
  | illegal q c =>
    cases h
    exact ⟨q, c, rfl⟩

theorem filter_surveyEvents (p : Piece) :
    p.surveyEvents.filter (·.level == .warn) = (p.hidden?.map .skipped).toList := by
  have hframes (q : Piece) : q.frameEvents.filter (·.level == .warn) = [] :=
    Event.filter_warn_eq_nil fun e he => (isFrame_of_mem_frameEvents he).isProgress
  cases p with
  | token t change =>
    rw [surveyEvents, hidden?]
    split
    · have hsearch : t.inside.search.1.filter (·.level == .warn) = [] :=
        Event.filter_warn_eq_nil fun e he => (t.inside.isFrame_of_mem_search e he).isProgress
      rw [List.filter_append, hsearch, List.nil_append]
      cases t.inside.search.2 <;> rfl
    · exact hframes _
  | continuation s => rfl
  | illegal q c => rfl

theorem filter_surveyEvents_all (ps : List Piece) :
    (ps.flatMap surveyEvents).filter (·.level == .warn) =
      (ps.filterMap hidden?).map .skipped := by
  induction ps with
  | nil => rfl
  | cons p ps ih =>
    rw [List.flatMap_cons, List.filter_append, filter_surveyEvents, ih, List.filterMap_cons]
    cases p.hidden? <;> rfl

end Piece

/-- Nothing was skipped in front of the token or inside it. -/
structure Lexeme.Clean (x : Lexeme) : Prop where
  leading : ∀ c, .skipped c ∉ x.leading
  inside : x.token.kind = .stringLiteral → x.token.inside.search.2 = none

/-- No leaf is a skipped character. -/
def Tree.CleanOf (ts : List Tree) : Prop := ∀ l ∈ Tree.leavesOf ts, l.1 ≠ .skipped

namespace Tree.CleanOf

variable {ts us : List Tree}

theorem append (h : CleanOf ts) (h' : CleanOf us) : CleanOf (ts ++ us) := by
  intro l hl
  rw [leavesOf_append] at hl
  exact (List.mem_append.1 hl).elim (h l) (h' l)

theorem node {k : NodeKind} (h : CleanOf ts) : CleanOf [.node k ts] := by
  intro l hl
  rw [leavesOf, leaves, leavesOf, List.append_nil] at hl
  exact h l hl

theorem leaf {k : LeafKind} (hk : k ≠ .skipped) (s : Text) : CleanOf [.leaf k s] := by
  intro l hl
  obtain rfl := List.mem_singleton.1 hl
  exact hk

theorem trivia {vs : List Trivia} (h : ∀ c, .skipped c ∉ vs) : CleanOf (vs.map Trivia.tree) := by
  induction vs with
  | nil => nofun
  | cons v vs ih =>
    have hvs : CleanOf (vs.map Trivia.tree) := ih fun c hc => h c (List.mem_cons_of_mem v hc)
    cases v with
    | continuation s => exact (leaf (by decide) s).append hvs
    | skipped c => exact absurd List.mem_cons_self (h c)

end Tree.CleanOf

namespace Piece

theorem lexemes_clean {leading : List Trivia} {ps : List Piece} (h : ∀ p ∈ ps, p.hidden? = none)
    (hl : ∀ c, .skipped c ∉ leading) :
    (∀ x ∈ (lexemes leading ps).1, x.Clean) ∧ ∀ c, .skipped c ∉ (lexemes leading ps).2 := by
  fun_induction lexemes leading ps with
  | case1 leading => exact ⟨fun x hx => absurd hx List.not_mem_nil, hl⟩
  | case2 leading t ps ih =>
    refine ih (fun p hp => h p (List.mem_cons_of_mem _ hp)) fun c hc => ?_
    rcases List.mem_append.1 hc with hc | hc
    · exact hl c hc
    · cases List.mem_singleton.1 hc
  | case3 leading q c ps ih => cases h _ List.mem_cons_self
  | case4 leading t change ps after ih =>
    have ht := h _ List.mem_cons_self
    obtain ⟨hx, hv⟩ := ih (fun p hp => h p (List.mem_cons_of_mem _ hp))
      fun c => List.not_mem_nil
    refine ⟨fun x hm => ?_, hv⟩
    rcases List.mem_cons.1 hm with rfl | hm
    · exact ⟨hl, fun hk => by rwa [hidden?, if_pos hk] at ht⟩
    · exact hx x hm

end Piece

namespace Lexer

theorem lexemes_clean {lx : Lexer} (h : lx.run.1.findSome? Piece.hidden? = none) :
    (∀ x ∈ lx.lexemes.1, x.Clean) ∧ ∀ c, .skipped c ∉ lx.lexemes.2 :=
  Piece.lexemes_clean (List.findSome?_eq_none_iff.1 h) nofun

end Lexer

theorem Reading.clean {P : NodeKind → Prop} {k : NodeKind} {ns : List Nest} {ts : List Tree}
    (h : Reading P k ns ts) {xs : List Lexeme} (hn : ns = xs.map Nest.ofLexeme)
    (hx : ∀ x ∈ xs, x.Clean) : Tree.CleanOf ts := by
  induction h generalizing xs with
  | nil => nofun
  | append _ _ ih ih' =>
    obtain ⟨ys, zs, rfl, hy, hz⟩ := List.map_eq_append_iff.1 hn.symm
    exact (ih hy.symm fun x hm => hx x (List.mem_append_left zs hm)).append
      (ih' hz.symm fun x hm => hx x (List.mem_append_right ys hm))
  | node _ _ ih => exact (ih hn hx).node
  | leaf k x =>
    obtain ⟨y, rfl, hy⟩ := Nest.map_ofLexeme_eq_singleton hn
    obtain ⟨rfl, -⟩ := Nest.ofLexeme_eq_leaf hy
    exact (Tree.CleanOf.trivia (hx y List.mem_cons_self).leading).append (.leaf (by simp) _)
  | quoted x trailing _ ih =>
    obtain ⟨y, rfl, hy⟩ := Nest.map_ofLexeme_eq_singleton hn
    obtain ⟨rfl, hk, -, hi⟩ := Nest.ofLexeme_eq_quoted hy
    obtain ⟨hf, rfl⟩ := Lexer.lexemes_of_nests hi
    have hy := hx y List.mem_cons_self
    obtain ⟨hin, hv⟩ := Lexer.lexemes_clean ((Lexer.search_eq _).symm.trans (hy.inside hk))
    have hopen : Tree.CleanOf y.openQuote := (Tree.CleanOf.trivia hy.leading).append
      (.leaf (by decide) _)
    exact ((hopen.append (ih hf hin)).append (.trivia hv)).append (.leaf (by decide) _)
  | raw x _ =>
    obtain ⟨y, rfl, hy⟩ := Nest.map_ofLexeme_eq_singleton hn
    obtain ⟨rfl, -, -⟩ := Nest.ofLexeme_eq_raw hy
    exact (Tree.CleanOf.trivia (hx y List.mem_cons_self).leading).append (.leaf (by simp) _)
  | operand x _ =>
    obtain ⟨y, rfl, hy⟩ := Nest.map_ofLexeme_eq_singleton hn
    obtain ⟨rfl, -, -⟩ := Nest.ofLexeme_eq_raw hy
    have hopen : Tree.CleanOf y.openQuote :=
      (Tree.CleanOf.trivia (hx y List.mem_cons_self).leading).append (.leaf (by decide) _)
    exact hopen.append ((Tree.CleanOf.node (.leaf (by decide) _)).append (.leaf (by decide) _))

namespace Lexer

variable {text : Text} {c : Char} {strict : Bool} {t : Tree}

theorem result_clean (h : (start text c).result strict = .ok t)
    (hs : (start text c).run.1.findSome? Piece.hidden? = none) :
    ∀ l ∈ t.leaves, l.1 ≠ .skipped := by
  obtain ⟨ts, rfl, hr⟩ := result_reading h
  have hn : (start text c).nests = ((start text c).nests.1, (start text c).nests.2) := rfl
  obtain ⟨hf, ht⟩ := lexemes_of_nests hn
  obtain ⟨hx, hv⟩ := lexemes_clean hs
  rw [← ht] at hv
  exact (hr.clean hf hx).append (.trivia hv)

theorem isProgress_of_mem_parse (lx : Lexer) : ∀ e ∈ lx.parse.events, e.IsProgress := by
  obtain ⟨es, he, hes⟩ := Parser.records_statements lx.lines ⟨[], [], []⟩
  rw [List.nil_append] at he
  rw [lines] at he
  rw [parse]
  simp only
  cases hs : Parser.statements (Line.split lx.nests.1) ⟨[], [], []⟩ with
  | ok a s =>
    rw [hs] at he
    exact fun e hm => hes e (he ▸ hm)
  | error err s =>
    rw [hs] at he
    intro e hm
    rcases List.mem_append.1 hm with hm | hm
    · exact hes e (he ▸ hm)
    · rw [List.mem_singleton.1 hm]
      exact fun hl => by cases hl

end Lexer

/-- A lenient reading warns once of each piece that is or holds an illegal character. -/
theorem parse_warned (text : Text) (c : Char) :
    (parse text ⟨c, false⟩).events.filter (·.level == .warn) =
      ((Lexer.start text c).run.1.filterMap Piece.hidden?).map .skipped := by
  have hsurvey := Piece.filter_surveyEvents_all (Lexer.start text c).run.1
  rw [parse]
  cases hu : (Lexer.start text c).unclosed? with
  | some f => simpa [Lexer.survey, hu] using hsurvey
  | none =>
    have hp := Event.filter_warn_eq_nil (Lexer.start text c).isProgress_of_mem_parse
    simp only [Lexer.survey, hu, Option.map_none, Bool.false_eq_true, if_false]
    rw [List.filter_append, hsurvey, hp, List.append_nil]

theorem parse_warns (text : Text) (c : Char) :
    (parse text ⟨c, false⟩).events.find? (·.level == .warn) =
      ((Lexer.start text c).run.1.findSome? Piece.hidden?).map .skipped := by
  rw [← List.head?_filter, parse_warned, List.head?_map, List.head?_filterMap]

namespace Lexer

/-- A strict reading is refused for the first illegal character, and else as a lenient one is. -/
theorem result_strict (lx : Lexer) : lx.result true =
    match lx.run.1.findSome? Piece.hidden? with
    | some e => .error (.lex e)
    | none => lx.result false := by
  rw [result, result, refusal_eq, refusal_eq]
  cases lx.run.1.findSome? Piece.hidden? <;> rfl

theorem hidden_illegal {lx : Lexer} {e : LexError}
    (h : lx.run.1.findSome? Piece.hidden? = some e) : ∃ p d, e = .illegalCharacter p d := by
  obtain ⟨p, -, hp⟩ := List.exists_of_findSome?_eq_some h
  exact Piece.hidden?_illegal hp

/-- Only a frame left open stands in the way of a lenient reading. -/
theorem result_lenient (lx : Lexer) (p : Position) (d : Char) :
    lx.result false ≠ .error (.lex (.illegalCharacter p d)) := by
  intro h
  rw [result, refusal_eq] at h
  cases hu : lx.unclosed? with
  | some f => simp [hu] at h
  | none =>
    rw [hu] at h
    have h : lx.parse.result = .error (.lex (.illegalCharacter p d)) := h
    rw [parse_result_eq] at h
    split at h <;> cases h

end Lexer

section Strict

variable (text : Text) (c : Char)

theorem parse_warns_iff : (∃ r ∈ (parse text ⟨c, false⟩).events, r.level = .warn) ↔
    ∃ e, (Lexer.start text c).run.1.findSome? Piece.hidden? = some e := by
  have hfind := parse_warns text c
  constructor
  · rintro ⟨r, hr, hl⟩
    cases hh : (Lexer.start text c).run.1.findSome? Piece.hidden? with
    | some e => exact ⟨e, rfl⟩
    | none =>
      rw [hh] at hfind
      exact absurd (by simpa using hl) (List.find?_eq_none.1 hfind r hr)
  · rintro ⟨e, he⟩
    rw [he] at hfind
    exact ⟨_, List.mem_of_find?_eq_some hfind, rfl⟩

theorem parse_illegal_iff (p : Position) (d : Char) :
    (parse text ⟨c, true⟩).result = .error (.lex (.illegalCharacter p d)) ↔
      (Lexer.start text c).run.1.findSome? Piece.hidden? = some (.illegalCharacter p d) := by
  rw [parse_result_start, Lexer.result_strict]
  cases hh : (Lexer.start text c).run.1.findSome? Piece.hidden? with
  | some e => simp
  | none => simp [Lexer.result_lenient]

end Strict

/-- A lenient reading is never refused for an illegal character. A strict one is refused for `e`
just if a lenient one gives a warning, of which the first is that `e` was skipped; else both come to
the same, and a tree that comes of them has nothing skipped in it. -/
theorem parse_strict (text : Text) (c : Char) :
    (∀ p d, (parse text ⟨c, false⟩).result ≠ .error (.lex (.illegalCharacter p d))) ∧
    ((∃ p d, (parse text ⟨c, true⟩).result = .error (.lex (.illegalCharacter p d))) ↔
      ∃ r ∈ (parse text ⟨c, false⟩).events, r.level = .warn) ∧
    (∀ p d, (parse text ⟨c, true⟩).result = .error (.lex (.illegalCharacter p d)) →
      ∃ r, (parse text ⟨c, false⟩).events.find? (·.level == .warn) = some r ∧
        r.message = "skipping " ++ (LexError.illegalCharacter p d).message) ∧
    ((∀ p d, (parse text ⟨c, true⟩).result ≠ .error (.lex (.illegalCharacter p d))) →
      (parse text ⟨c, true⟩).result = (parse text ⟨c, false⟩).result ∧
        ∀ t, (parse text ⟨c, true⟩).result = .ok t → ∀ l ∈ t.leaves, l.1 ≠ .skipped) := by
  refine ⟨fun p d => ?_, ?_, fun p d h => ?_, fun h => ?_⟩
  · rw [parse_result_start]
    exact Lexer.result_lenient _ p d
  · rw [parse_warns_iff]
    constructor
    · rintro ⟨p, d, h⟩
      exact ⟨_, (parse_illegal_iff text c p d).1 h⟩
    · rintro ⟨e, he⟩
      obtain ⟨p, d, rfl⟩ := Lexer.hidden_illegal he
      exact ⟨p, d, (parse_illegal_iff text c p d).2 he⟩
  · refine ⟨.skipped (.illegalCharacter p d), ?_, rfl⟩
    rw [parse_warns, (parse_illegal_iff text c p d).1 h]
    rfl
  · have hnone : (Lexer.start text c).run.1.findSome? Piece.hidden? = none := by
      refine Option.eq_none_iff_forall_not_mem.2 fun e he => ?_
      obtain ⟨p, d, rfl⟩ := Lexer.hidden_illegal he
      exact h p d ((parse_illegal_iff text c p d).2 he)
    refine ⟨?_, fun t ht => ?_⟩
    · rw [parse_result_start, parse_result_start, Lexer.result_strict, hnone]
    · rw [parse_result_start] at ht
      exact Lexer.result_clean ht hnone

/-- With an illegal character in quotes, and without one. -/
theorem parse_strict_quoted :
    (parse "a='\x01'\n".toList ⟨'\t', true⟩).result =
        .error (.lex (.illegalCharacter ⟨1, 4, 3⟩ '\x01')) ∧
    (∃ r, (parse "a='\x01'\n".toList ⟨'\t', false⟩).events.find? (·.level == .warn) = some r ∧
      r.message = "skipping " ++ (LexError.illegalCharacter ⟨1, 4, 3⟩ '\x01').message) ∧
    ∃ t, (parse "a='b'\n".toList ⟨'\t', true⟩).result = .ok t ∧
      (parse "a='b'\n".toList ⟨'\t', false⟩).result = .ok t ∧ ∀ l ∈ t.leaves, l.1 ≠ .skipped := by
  have h : (parse "a='\x01'\n".toList ⟨'\t', true⟩).result =
      .error (.lex (.illegalCharacter ⟨1, 4, 3⟩ '\x01')) := by cbv
  refine ⟨h, (parse_strict _ _).2.2.1 _ _ h, ?_⟩
  obtain ⟨t, hr⟩ : ∃ t, (parse "a='b'\n".toList ⟨'\t', true⟩).result = .ok t :=
    exists_result (by cbv)
  obtain ⟨he, hl⟩ := (parse_strict "a='b'\n".toList '\t').2.2.2 fun p d h => by
    rw [hr] at h
    cases h
  exact ⟨t, hr, he.symm.trans hr, hl t hr⟩

end MakeTree
