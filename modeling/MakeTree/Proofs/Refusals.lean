import Mathlib
import MakeTree.Proofs.Lexer.History
import MakeTree.Proofs.Tiling
import MakeTree.Proofs.TokenFidelity
import MakeTree.Proofs.TreeGrammar

/-!
What a refused text is refused for (`parse_refuses`). What speaks against the items of the lexer
comes before all else; after that, the token blamed is one of the text's own. None is found within
quotes or in the body of a definition: the fragments there have partners for all their brackets
(`Nest.SoundAll`), so going through them never fails.
-/

namespace MakeTree

/-- What speaks against parsing a text with the item. -/
def Item.objection? (strict : Bool) : Item → Option LexError
  | .ok t => if strict && t.kind == .stringLiteral then t.inside.search.2 else none
  | .error e => if e.isFatal || strict then some e else none

/-- Whether a definition starts on the line. -/
def Line.StartsDefinition (line : Line) : Prop :=
  ∃ n ls, (afterLeading line).dropWhile Parser.isIntro = n :: ls ∧ n.kind = .keyword .define

/-- Whether the token stands on the line. -/
def Line.Holds (line : Line) (t : Token) : Prop := ∃ n ∈ Nest.flattenAll line, n.token = t

/-- Wherever it is run, the parser succeeds. -/
def Parser.NeverFails {α : Type} (p : Parser α) : Prop := ∀ c, ∃ a s, p c = .ok a s

namespace Piece

theorem objection?_item (strict : Bool) (p : Piece) :
    p.item?.bind (Item.objection? strict) = if strict then p.hidden? else none := by
  cases p with
  | token t change => cases strict <;> simp [item?, Item.objection?, hidden?]
  | continuation s => cases strict <;> rfl
  | illegal q c => cases strict <;> rfl

theorem objection?_items (strict : Bool) (ps : List Piece) :
    (ps.filterMap item?).findSome? (Item.objection? strict) =
      if strict then ps.findSome? hidden? else none := by
  induction ps with
  | nil => cases strict <;> rfl
  | cons p ps ih =>
    have hp := p.objection?_item strict
    cases hi : p.item? with
    | none =>
      rw [hi] at hp
      rw [List.filterMap_cons_none hi, ih]
      cases strict with
      | false => rfl
      | true => rw [List.findSome?_cons, ← show none = p.hidden? from hp]
    | some item =>
      rw [hi] at hp
      rw [List.filterMap_cons_some hi, List.findSome?_cons, ih,
        show Item.objection? strict item = _ from hp]
      cases strict <;> rfl

end Piece

namespace Lexer

/-- What stands in the way of parsing a text is the first objection to its items. -/
theorem refusal_start (text : Text) (c : Char) (strict : Bool) :
    (start text c).refusal strict =
      (start text c).yielded.findSome? (Item.objection? strict) := by
  have hfin : (start text c).run.2.finished = false := (start text c).steps_run.finished
  have hend : (start text c).run.2.ending?.toList.findSome? (Item.objection? strict) =
      (start text c).unclosed?.map .unterminated := by
    rw [ending?, hfin, unclosed?]
    cases (start text c).run.2.frames.head? <;> rfl
  rw [refusal_eq, yielded_eq, List.findSome?_append, Piece.objection?_items, hend]
  cases (if strict = true then (start text c).run.1.findSome? Piece.hidden? else none) <;> rfl

theorem mem_yielded {lx : Lexer} {t : Token} (h : t ∈ lx.tokens) : .ok t ∈ lx.yielded := by
  obtain ⟨p, hp, ht⟩ := List.mem_filterMap.1 h
  cases p with
  | token u change =>
    obtain rfl := Option.some.inj ht
    exact mem_yielded_of_run hp rfl
  | continuation s => cases ht
  | illegal q c => cases ht

/-- The inside of a literal is never refused. -/
theorem neverFails_inside {lx : Lexer} {t : Token} (h : .ok t ∈ lx.yielded)
    (hk : t.kind = .stringLiteral) (hu : t.inside.unclosed? = none) (multiline : Bool) :
    Parser.NeverFails (.fragments multiline t.inside.nests.1.length t.inside.nests.1) := by
  obtain ⟨_, _, _, _, -, hstep⟩ := exists_step h
  obtain ⟨hs, hline⟩ := sound_inside hstep hk hu
  obtain ⟨es, hf⟩ := Parser.fragments_of_unbroken hs hline t.inside.nests.1.length
  exact fun c => ⟨_, _, hf c⟩

variable {text : Text} {c : Char} {strict : Bool}

theorem not_within {t u : Token} (ht : .ok t ∈ (start text c).yielded)
    (hu : .ok u ∈ (start text c).yielded) :
    ¬ (t.position.offset < u.position.offset ∧ u.position.offset < t.stop) := by
  rintro ⟨h₁, h₂⟩
  have hstretch {v : Token} (hv : .ok v ∈ (start text c).yielded) :
      (v.position.offset, v.text) ∈ (start text c).yielded.filterMap Item.stretch? :=
    List.mem_filterMap.2 ⟨_, hv, rfl⟩
  have htiles := (tiles_start text c).pairwise
  obtain ⟨before, after, hsplit⟩ := List.append_of_mem (hstretch ht)
  rw [hsplit] at htiles
  obtain ⟨-, hafter, hbefore⟩ := List.pairwise_append.1 htiles
  have hm := hstretch hu
  rw [hsplit] at hm
  rw [Token.stop] at h₂
  rcases List.mem_append.1 hm with hm | hm
  · have := hbefore _ hm _ List.mem_cons_self
    simp only at this
    omega
  · rcases List.mem_cons.1 hm with he | hm
    · have := congrArg Prod.fst he
      simp only at this
      omega
    · have := (List.pairwise_cons.1 hafter).1 _ hm
      simp only at this
      omega

theorem found_mem_tokens {found : Token} {expected : List Expected}
    (h : (start text c).result strict = .error (.parse (.unexpectedToken found expected))) :
    found ∈ (start text c).tokens := by
  have hn : (start text c).nests = ((start text c).nests.1, (start text c).nests.2) := rfl
  obtain ⟨hf, -⟩ := lexemes_of_nests hn
  generalize he : ParseError.unexpectedToken found expected = e at h
  cases result_blames h with
  | atEnd => cases he
  | @token n hm _ expected' =>
    obtain ⟨rfl, rfl⟩ := ParseError.unexpectedToken.inj he
    rw [hf] at hm
    obtain ⟨x, hx, rfl⟩ := List.mem_map.1 hm
    rw [tokens, ← Piece.lexemes_token []]
    exact List.mem_map.2 ⟨x, hx, by rw [Nest.token, Nest.first_ofLexeme]⟩

theorem missable_expected {e : ParseError} (h : (start text c).result strict = .error (.parse e)) :
    Expected.Missable e.expected := by
  cases result_blames h with
  | token _ _ _ hc => exact hc
  | atEnd _ hc => exact hc

end Lexer

namespace Expected

theorem display_ne_expression {x : Expected} (h : x ≠ .expression) :
    x.display ≠ "expression" := by
  cases x with
  | token k =>
    cases k with
    | keyword k =>
      cases k with
      | specifier s => cases s <;> decide
      | conditional c => cases c <;> decide
      | _ => decide
    | _ => decide
  | expression => exact absurd rfl h
  | _ => decide

theorem display_ne_conditional {x : Expected} (h : x ≠ .conditional) :
    x.display ≠ "conditional" := by
  cases x with
  | token k =>
    cases k with
    | keyword k =>
      cases k with
      | specifier s => cases s <;> decide
      | conditional c => cases c <;> decide
      | _ => decide
    | _ => decide
  | conditional => exact absurd rfl h
  | _ => decide

end Expected

namespace Parser

theorem neverFails_body {lines : List Line} (hs : Nest.SoundAll lines.flatten) :
    NeverFails (body lines) := by
  rintro ⟨ns, outer, es⟩
  obtain ⟨es', h⟩ := takes_body hs ns outer es
  exact ⟨_, _, h⟩

/-- A definition is refused for its first line, or for the line that closes it. -/
theorem definition_refuses {line : Line} {lines : List Line} (hs : Sheet line lines)
    (hd : line.StartsDefinition) {outer : List Tree} {es : List Event} {found : Token}
    {expected : List Expected} {s : Cursor}
    (h : definition lines ⟨line, outer, es⟩ = .error (.unexpectedToken found expected) s) :
    line.Holds found ∨ ∃ count l, Line.endef? 0 lines = some count ∧ lines[count]? = some l ∧
      l.Holds found := by
  obtain ⟨n, ls, hn, hk⟩ := hd
  have holds {l : Line} {e : ParseError} (hb : Blames l e)
      (he : e = .unexpectedToken found expected) : l.Holds found := by
    cases hb with
    | token hm _ _ _ =>
      obtain ⟨rfl, -⟩ := ParseError.unexpectedToken.inj he
      exact ⟨_, hm, rfl⟩
    | atEnd => cases he
  have hh := builds_definitionHeader hn hk hs.here [] es
  rw [definition_eq, within_eq] at h
  simp only [bind, EStateM.bind] at h
  cases hr : definitionHeader ⟨line, [], es⟩ with
  | error e s =>
    rw [hr] at h hh
    cases h
    exact .inl (holds hh rfl)
  | ok a s =>
    rw [hr] at h hh
    obtain ⟨ms, hd, es₁⟩ := s
    cases he : Line.endef? 0 lines with
    | none =>
      rw [he] at h
      cases h
    | some count =>
      obtain ⟨l, m, ls', hl, hm, hmk⟩ := head_of_endef? he
      have hsound : Nest.SoundAll (lines.take count).flatten :=
        Nest.soundAll_of_subset hs.sound (flatten_at hl ▸ List.subset_append_left _ _)
      obtain ⟨es₂, hbody⟩ := takes_body hsound ms hd es₁
      have hend := builds_definitionEnd hm hmk
        (hs.below l (List.mem_of_getElem? hl)) (hd ++ bodyTrees (lines.take count).flatten) es₂
      have hload (c : Cursor) : load l c = .ok () { c with unread := l } := rfl
      simp only [he, EStateM.bind, hl, Option.getD_some, hbody, hload] at h
      cases hr' : definitionEnd ⟨l, hd ++ bodyTrees (lines.take count).flatten, es₂⟩ with
      | error e s =>
        rw [hr'] at h hend
        cases h
        exact .inr ⟨count, l, rfl, hl, holds hend rfl⟩
      | ok a s =>
        rw [hr'] at h
        cases h

end Parser

/-- What the lexer objects to is what a text is refused for, whatever stands on its lines. Where it
objects to nothing, the token that a text is refused for is one that the lexer yields, so it does not
stand within quotes, the inside of a literal is gone through without an error, and so is the body of
a definition, which is refused for its first line or for the one that closes it. In no case an
expression or a conditional is asked for. -/
theorem parse_refuses (text : Text) (options : Options) :
    (∀ e, (Lexer.start text options.recipePrefix).yielded.findSome?
        (Item.objection? options.strict) = some e →
      (parse text options).result = .error (.lex e)) ∧
    ((Lexer.start text options.recipePrefix).yielded.findSome?
        (Item.objection? options.strict) = none →
      (∀ e, (parse text options).result ≠ .error (.lex e)) ∧
      (∀ found expected,
        (parse text options).result = .error (.parse (.unexpectedToken found expected)) →
        .ok found ∈ (Lexer.start text options.recipePrefix).yielded ∧
          ∀ t, .ok t ∈ (Lexer.start text options.recipePrefix).yielded → t.kind = .stringLiteral →
            ¬ (t.position.offset < found.position.offset ∧ found.position.offset < t.stop)) ∧
      (∀ t, .ok t ∈ (Lexer.start text options.recipePrefix).yielded → t.kind = .stringLiteral →
        t.inside.unclosed? = none → ∀ multiline,
          Parser.NeverFails (.fragments multiline t.inside.nests.1.length t.inside.nests.1)) ∧
      ∀ before line lines, (Lexer.start text options.recipePrefix).lines = before ++ line :: lines →
        (∀ count, Parser.NeverFails (.body (lines.take count))) ∧
        (line.StartsDefinition → ∀ built events found expected s,
          Parser.definition lines ⟨line, built, events⟩ =
            .error (.unexpectedToken found expected) s →
          line.Holds found ∨ ∃ count l, Line.endef? 0 lines = some count ∧
            lines[count]? = some l ∧ l.Holds found)) ∧
    ∀ e, (parse text options).result = .error (.parse e) →
      ∀ x ∈ e.expected, x.display ≠ "expression" ∧ x.display ≠ "conditional" := by
  rw [← Lexer.refusal_start, parse_result_start]
  refine ⟨fun e h => ?_, fun h => ⟨fun e he => ?_, fun found expected he => ?_,
    fun t ht hk hu => Lexer.neverFails_inside ht hk hu, ?_⟩, fun e h x hx => ⟨?_, ?_⟩⟩
  · rw [Lexer.result, h]
  · rw [Lexer.result, h, Lexer.parse_result_eq] at he
    split at he
    · next hs => cases hs
    · split at he <;> cases he
  · have hm := Lexer.mem_yielded (Lexer.found_mem_tokens he)
    exact ⟨hm, fun t ht _ => Lexer.not_within ht hm⟩
  · intro before line lines hl
    have hsheet := (Lexer.sheet_lines (Lexer.refusal_eq_none.1 h).2).drop before.length
    rw [hl, List.drop_left] at hsheet
    refine ⟨fun count => Parser.neverFails_body ?_, fun hd built events found expected s hs => ?_⟩
    · have hsub := ((List.take_sublist count lines).flatten).subset
      exact Nest.soundAll_of_subset hsheet.next.sound hsub
    · exact Parser.definition_refuses hsheet.next hd hs
  · refine Expected.display_ne_expression ?_
    rintro rfl
    exact (Lexer.missable_expected h).2 hx
  · refine Expected.display_ne_conditional ?_
    rintro rfl
    exact (Lexer.missable_expected h).1 hx

/-- A frame left open behind a line that is no statement, that line by itself, and a definition
without a name that has a literal in its body. -/
theorem parse_refuses_word :
    (parse "b\n$(".toList {}).result =
        .error (.lex (.unterminated ⟨.expansion, ⟨2, 1, 2⟩⟩)) ∧
    (∃ found expected,
      (parse "b\n".toList {}).result = .error (.parse (.unexpectedToken found expected)) ∧
      .ok found ∈ (Lexer.start "b\n".toList '\t').yielded ∧
      ∀ x ∈ expected, x.display ≠ "expression" ∧ x.display ≠ "conditional") ∧
    (∃ t, .ok t ∈ (Lexer.start "define\n'$b'".toList '\t').yielded ∧
      t.kind = .stringLiteral ∧ t.inside.unclosed? = none ∧
      Parser.NeverFails (.fragments false t.inside.nests.1.length t.inside.nests.1)) ∧
    ∃ line lines found expected s,
      (Lexer.start "define\n'$b'".toList '\t').lines = line :: lines ∧
      Parser.NeverFails (.body (lines.take 1)) ∧ line.StartsDefinition ∧
      Parser.definition lines ⟨line, [], []⟩ = .error (.unexpectedToken found expected) s ∧
      (line.Holds found ∨ ∃ count l, Line.endef? 0 lines = some count ∧ lines[count]? = some l ∧
        l.Holds found) := by
  have hquiet (text : Text) (h : (Lexer.start text '\t').refusal false = none) :
      (Lexer.start text '\t').yielded.findSome? (Item.objection? false) = none := by
    rwa [← Lexer.refusal_start]
  refine ⟨(parse_refuses "b\n$(".toList {}).1 _ ?_, ?_, ?_, ?_⟩
  · rw [← Lexer.refusal_start]
    cbv
  · have h : (parse "b\n".toList {}).result = .error (.parse (.unexpectedToken
        ⟨.plainText, ['b'], ⟨1, 1, 0⟩⟩ [.token .colon, .token .assignOp])) := by cbv
    have hlex := hquiet "b\n".toList (by cbv)
    exact ⟨_, _, h, (((parse_refuses "b\n".toList {}).2.1 hlex).2.1 _ _ h).1,
      (parse_refuses "b\n".toList {}).2.2 _ h⟩
  · have hlex := hquiet "define\n'$b'".toList (by cbv)
    have hat : (Lexer.start "define\n'$b'".toList '\t').tokens[2]? =
        some ⟨.stringLiteral, "'$b'".toList, ⟨2, 1, 7⟩⟩ := by cbv
    have ht := Lexer.mem_yielded (List.mem_of_getElem? hat)
    have hu : (Token.inside ⟨.stringLiteral, "'$b'".toList, ⟨2, 1, 7⟩⟩).unclosed? = none := by cbv
    obtain ⟨-, -, hinside, -⟩ := (parse_refuses "define\n'$b'".toList {}).2.1 hlex
    exact ⟨_, ht, rfl, hu, hinside _ ht rfl hu false⟩
  · have hlex := hquiet "define\n'$b'".toList (by cbv)
    obtain ⟨-, -, -, hlines⟩ := (parse_refuses "define\n'$b'".toList {}).2.1 hlex
    set word : Nest := .leaf ⟨[], ⟨.keyword .define, "define".toList, ⟨1, 1, 0⟩⟩⟩ with hword
    set lineEnd : Nest := .leaf ⟨[], ⟨.lineBreak, ['\n'], ⟨1, 7, 6⟩⟩⟩ with hend
    set literal : Nest := .quoted ⟨[], ⟨.stringLiteral, "'$b'".toList, ⟨2, 1, 7⟩⟩⟩
      [.leaf ⟨[], ⟨.varRef, "$b".toList, ⟨2, 2, 8⟩⟩⟩] [] with hliteral
    have hl : (Lexer.start "define\n'$b'".toList '\t').lines = [[word, lineEnd], [literal]] := by
      rw [hword, hend, hliteral]
      cbv
    obtain ⟨hbody, hdefinition⟩ := hlines [] _ _ hl
    have hd : Line.StartsDefinition [word, lineEnd] := ⟨word, [lineEnd], rfl, rfl⟩
    have hfail : Parser.definition [[literal]] ⟨[word, lineEnd], [], []⟩ =
        .error (.unexpectedToken lineEnd.token [.macroName])
          ⟨[lineEnd], [.leaf (.token (.keyword .define)) "define".toList], []⟩ := rfl
    exact ⟨_, _, _, _, _, hl, hbody 1, hd, hfail, hdefinition hd _ _ _ _ _ hfail⟩

end MakeTree
