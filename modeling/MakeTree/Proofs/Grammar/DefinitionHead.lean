import MakeTree.Proofs.Grammar.Calls
import MakeTree.Proofs.Grammar.Closings
import MakeTree.Proofs.Grammar.Dispatch
import MakeTree.Proofs.Grammar.Tries

/-!
Definitions, from their first line on. Where that is taken (`DefinitionHead`), the statement is a
definition, which goes up to the row that closes it (`DefinitionHead.takes`) or, without such a row,
is refused at the end of the text (`DefinitionHead.fails`). A statement that is a definition has such
a first line (`Parses.definition_extent`).
-/

namespace MakeTree

namespace Parser

/-- The line has a `define` behind its specifiers and is taken for the first of a definition. -/
structure DefinitionHead (line : Line) : Prop where
  define : ∃ n ls, (Line.afterLeading line).dropWhile isIntro = n :: ls ∧ n.kind = .keyword .define
  taken : ∃ hd, Takes definitionHeader line () [] hd

section Head

variable {line : Line}

theorem specifiersOf_of_header {hd : List Tree} (h : Takes definitionHeader line () [] hd) :
    ∃ found, specifiersOf [] (Line.afterLeading line) =
      pure (found, (Line.afterLeading line).dropWhile isIntro) := by
  have hlead : Consumes (HeldBy .definition) skipLeading line fun _ ms =>
    ms = Line.afterLeading line := consumes_skipLeading reads_held
  obtain ⟨es, h⟩ := h [] []
  obtain ⟨_, s, hs, h⟩ := bind_ok h
  obtain ⟨-, -, -, -, -, hs⟩ := hlead _ _ _ _ hs
  obtain ⟨_, _, h, -⟩ := bind_ok h
  obtain ⟨_, _, hu, h⟩ := bind_ok h
  obtain ⟨rfl, rfl⟩ := EStateM.Result.ok.inj hu
  obtain ⟨_, _, h, -⟩ := bind_ok h
  rw [hs] at h
  obtain ⟨-, he⟩ | ⟨us, vs, -, he⟩ := specifiersOf_eq (Line.afterLeading line) compatible_nil
  · exact ⟨_, he⟩
  · rw [he] at h
    cases h

namespace DefinitionHead

theorem specified (h : DefinitionHead line) (lines : List Line) (c : Cursor) :
    Parser.specified (Line.afterLeading line) lines c = definition lines c := by
  obtain ⟨hd, ht⟩ := h.taken
  obtain ⟨found, hs⟩ := specifiersOf_of_header ht
  obtain ⟨n, ls, hn, hk⟩ := h.define
  have hdefine : (n :: ls).head?.any (·.kind == .keyword .define) = true := by simp [hk]
  rw [Parser.specified, hs, pure_bind, hn]
  simp only [hdefine, if_true]

theorem kind {m : Nest} {ms : List Nest} (h : DefinitionHead line)
    (ha : Line.afterLeading line = m :: ms) :
    (∃ t, m.kind = .keyword (.specifier t)) ∨ m.kind = .keyword .define := by
  have hlead : m.kind.isLeading = false := head_dropWhile rfl ha
  obtain ⟨n, ls, hn, hk⟩ := h.define
  rw [ha] at hn
  cases hi : isIntro m with
  | true =>
    left
    have hw : m.isWhitespace = false := by
      rw [Nest.isWhitespace, beq_eq_false_iff_ne]
      intro hw
      rw [hw] at hlead
      cases hlead
    have hs : m.kind.specifier?.isSome = true := by simpa [isIntro, hw, Line.isSpecifier] using hi
    cases hm : m.kind with
    | keyword w => cases w <;> simp_all [TokenKind.specifier?]
    | _ => simp [hm, TokenKind.specifier?] at hs
  | false =>
    right
    rw [List.dropWhile_cons_of_neg (by simp [hi])] at hn
    obtain ⟨rfl, -⟩ := List.cons.inj hn
    exact hk

theorem statement_eq (h : DefinitionHead line) (lines : List Line) (outer : List Tree)
    (es : List Event) :
    ∃ es', statement lines ⟨line, outer, es⟩ = definition lines ⟨line, outer, es'⟩ := by
  cases ha : Line.afterLeading line with
  | nil =>
    obtain ⟨n, ls, hn, -⟩ := h.define
    rw [ha] at hn
    cases hn
  | cons m ms =>
    have hspec := h.specified lines
    rw [ha] at hspec
    refine ⟨es ++ [Event.statement m.kind], ?_⟩
    rw [statement_eq_of_cons lines ha, ← hspec]
    obtain ⟨t, hm⟩ | hm := h.kind ha
    · rw [hm]
    · rw [hm]

theorem name (h : DefinitionHead line) (hs : Line.Sound line) {hd : List Tree}
    (ht : Takes definitionHeader line () [] hd) :
    ∃ name, Tree.nodesOf hd = [(.expression, name)] := by
  obtain ⟨n, ls, hn, hk⟩ := h.define
  obtain ⟨-, htitled⟩ := (builds_definitionHeader hn hk).of_takes hs ht
  obtain ⟨name, hname, -⟩ := htitled.name
  exact ⟨name, hname⟩

theorem solid (h : DefinitionHead line) (hl : line.Good) : ∀ n ∈ line, Solid n := by
  obtain ⟨n, ls, hn, hk⟩ := h.define
  obtain ⟨hd, ht⟩ := h.taken
  have hmove (ms : List Nest) (hms : ms = (Line.afterLeading line).dropWhile isIntro) :
      Consumes (SolidIn .root) advance ms fun _ ls => ls = ms.tail := by
    refine consumes_advance reads_solid fun m hm => ?_
    rw [hms, hn] at hm
    obtain rfl := Option.some.inj hm
    exact Nest.movable_of_kind hk (by decide) (by decide)
  exact solid_of_line (consumes_definitionHeader reads_solid hmove hl.single) hl.closed ht

end DefinitionHead

end Head

section Extent

variable {line : Line} {lines : List Line}

theorem takes_of_closes {closing : Line} (hl : Line.Lexed [closing])
    (hn : closing.nesting = .closes) : ∃ te, Takes definitionEnd closing () [] te := by
  obtain ⟨n, ns, ha, -, hd⟩ := Line.head_of_closes hn
  obtain ⟨-, hc, he⟩ := hl.afterLeading
  rw [ha] at hc he
  have htries : Tries (fun _ => False) definitionEnd closing fun _ _ => True := by
    refine tries_bind tries_skipLeading ?_
    rintro _ ms rfl
    refine tries_bind tries_advance ?_
    rintro _ ms rfl
    rw [ha]
    refine tries_endOfLine_of_isDone hd fun m ms hm hcomment => ?_
    have he : Nest.CommentsEnd (ns.takeWhile Nest.isWhitespace ++ m :: ms) := by
      rw [← hm, List.tail_cons, List.takeWhile_append_dropWhile]
      exact he.tail
    have hm : m ∈ ns := (List.dropWhile_suffix _).subset (hm ▸ List.mem_cons_self)
    exact he.right.head (Nest.eq_leaf_of_isComment (hc.2.mem hm) hcomment) hcomment
  have htries := htries (.inl hl.sound_head) [] []
  cases hr : definitionEnd ⟨closing, [], []⟩ with
  | error e s =>
    rw [hr] at htries
    exact htries.elim
  | ok a s =>
    obtain ⟨te, -, -, ht, -⟩ := definitionEnd_ok hl.good_head hr
    exact ⟨te, ht⟩

theorem DefinitionHead.fails_of_endef? (h : DefinitionHead line)
    (he : Line.endef? 0 lines = none) :
    Fails (statement lines) line (.unexpectedEnd [.token (.keyword .endef)]) := by
  obtain ⟨hd, ht⟩ := h.taken
  have hf : Fails (definition lines) line (.unexpectedEnd [.token (.keyword .endef)]) := by
    rw [definition_eq]
    refine (ht.fails ?_).within .definition
    rw [he]
    exact fun outer es => ⟨_, rfl⟩
  exact hf.of_eq (h.statement_eq lines)

theorem DefinitionHead.takes_of_endef? (h : DefinitionHead line) (hl : Line.Lexed lines)
    {count : Nat} (he : Line.endef? 0 lines = some count) :
    ∃ us, TakesRest (statement lines) line (lines.drop (count + 1)) [] [.node .definition us] := by
  obtain ⟨hd, ht⟩ := h.taken
  obtain ⟨closing, hc, hclosing, hn, -⟩ := Line.rows_of_endef? hl he
  obtain ⟨te, hte⟩ := takes_of_closes hclosing hn
  have hbody := takes_body (hl.take count).sound []
  have htakes := takes_definition he ht hbody (by rwa [hc]) (lines.drop (count + 1))
  rw [List.take_append_drop] at htakes
  exact ⟨_, htakes.of_eq (h.statement_eq lines)⟩

section Rows

variable {body after : List Line} {closing : Line} (hl : Line.Lexed lines)
  (hled : ∀ l ∈ Line.rows lines, l.Led)

include hl hled

theorem DefinitionHead.takes (h : DefinitionHead line)
    (hs : Line.rows lines = body ++ closing :: after) (hb : Line.ClosedBy 0 body closing) :
    ∃ us rest, TakesRest (statement lines) line rest [] [.node .definition us] ∧
      Line.rows rest = after := by
  obtain ⟨count, he, hafter⟩ := Line.endef?_of_closedBy hl hled hs hb
  obtain ⟨us, htakes⟩ := h.takes_of_endef? hl he
  exact ⟨us, _, htakes, hafter⟩

theorem DefinitionHead.fails (h : DefinitionHead line)
    (hno : ∀ body closing after, Line.rows lines = body ++ closing :: after →
      ¬ Line.ClosedBy 0 body closing) :
    Fails (statement lines) line (.unexpectedEnd [.token (.keyword .endef)]) :=
  h.fails_of_endef? (Line.endef?_eq_none hl hled hno)

end Rows

end Extent

section Kind

variable {line : Line} {lines rest : List Line} {n : Nest} {ls : List Nest} {us : List Tree}

theorem definition_of_specified {ms : Line} {ns : List Nest} {es : List Event} {r : Rest lines}
    {s : Cursor} (h : specified ms lines ⟨ns, [], es⟩ = .ok r s)
    (hb : s.built = [.node .definition us]) : definition lines ⟨ns, [], es⟩ = .ok r s ∧
      ∃ n ls, ms.dropWhile isIntro = n :: ls ∧ n.kind = .keyword .define := by
  obtain ⟨⟨found, after⟩, s', hf, h⟩ := bind_ok h
  obtain rfl := specifiersOf_ok hf
  obtain ⟨-, he⟩ | ⟨us, vs, -, he⟩ := specifiersOf_eq ms compatible_nil
  · rw [he] at hf
    obtain ⟨hf, -⟩ := EStateM.Result.ok.inj hf
    obtain ⟨-, rfl⟩ := Prod.mk.inj hf
    simp only at h
    split at h
    · next hd =>
      obtain ⟨n, hn, hk⟩ := (Option.any_eq_true _ _).1 hd
      obtain ⟨ls, hls⟩ := List.head?_eq_some_iff.1 hn
      exact ⟨h, n, ls, hls, by simpa using hk⟩
    · unfold specifiedLine at h
      split at h
      · cases kind_of_oneLine h hb
      · split at h
        · cases kind_of_oneLine h hb
        · split at h <;> cases h
  · rw [he] at hf
    cases hf

theorem kind_of_mem_statementKinds (hs : .definition ∈ line.statementKinds)
    (ha : Line.afterLeading line = n :: ls) :
    (∃ t, n.kind = .keyword (.specifier t)) ∨ n.kind = .keyword .define := by
  rw [Line.statementKinds, ha] at hs
  cases hk : n.kind with
  | keyword w => cases w <;> simp_all
  | lineBreak => simp [hk] at hs
  | comment => simp [hk] at hs
  | _ =>
    simp only [hk] at hs
    cases hp : Line.separator? (n :: ls) with
    | none => simp [hp] at hs
    | some t => cases t <;> simp [hp] at hs

theorem definition_of_statement (hl : line.Good)
    (h : Parses (.statement line) lines [.node .definition us] rest) :
    (∃ n ls, (Line.afterLeading line).dropWhile isIntro = n :: ls ∧ n.kind = .keyword .define) ∧
      ∃ (r : Rest lines) (es es' : List Event), r.1 = rest ∧
        definition lines ⟨line, [], es⟩ = .ok r ⟨[], [.node .definition us], es'⟩ := by
  have hkinds := h.mem_statementKinds hl
  obtain ⟨r, hr, hrun⟩ :
      TakesRest (statement lines) line rest [] [.node .definition us] := h.runs
  obtain ⟨es, hrun⟩ := hrun [] []
  cases ha : Line.afterLeading line with
  | nil =>
    rw [Line.statementKinds, ha] at hkinds
    cases hkinds
  | cons m ms =>
    rw [statement_eq_of_cons lines ha] at hrun
    have hspec : specified (m :: ms) lines ⟨line, [], [] ++ [Event.statement m.kind]⟩ =
        .ok r ⟨[], [] ++ [.node .definition us], es⟩ := by
      obtain ⟨t, hm⟩ | hm := kind_of_mem_statementKinds hkinds ha
      · rwa [hm] at hrun ⊢
      · rwa [hm] at hrun ⊢
    obtain ⟨hrun, hdefine⟩ := definition_of_specified hspec rfl
    exact ⟨hdefine, r, _, _, hr, hrun⟩

/-- A definition is its first line, the lines up to the one that ends it, and that. -/
theorem Parses.definition_extent (hl : line.Good)
    (h : Parses (.statement line) lines [.node .definition us] rest) : DefinitionHead line ∧
      ∃ hd te count, us = hd ++ (bodyTrees (lines.take count).flatten ++ te) ∧
        Takes definitionHeader line () [] hd ∧ Line.endef? 0 lines = some count ∧
        rest = lines.drop (count + 1) := by
  obtain ⟨⟨n, ls, hn, hk⟩, r, es, es', rfl, hrun⟩ := definition_of_statement hl h
  obtain ⟨count, s₁, s₂, es₂, he, hr, h₁, -, h₂, -, hb⟩ := definition_parts hrun
  obtain ⟨hd, -, hbd, ht, -⟩ := definitionHeader_ok hl h₁
  obtain ⟨te, hbe, -⟩ := takes_of_ok uniform_definitionEnd h₂
  obtain ⟨-, hus⟩ := Tree.node.inj (List.cons.inj hb).1
  rw [List.nil_append] at hbd
  refine ⟨⟨⟨n, ls, hn, hk⟩, hd, ht⟩, hd, te, count, ?_, ht, he, hr⟩
  rw [hus, hbe, hbd, List.append_assoc]

end Kind

end Parser

end MakeTree
