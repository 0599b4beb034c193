import Mathlib
import MakeTree.Proofs.Grammar.Announcements
import MakeTree.Proofs.StatementRows
import MakeTree.Proofs.Strictness

/-!
The log of what a text is made of (`parse_logs`). Of what is recorded for whoever looks for an error,
there is nothing where a text is refused before it is parsed; of a text that is parsed, there is one
record for each statement, in the order of the tree; and where the parser fails, that it did is
recorded last.
-/

namespace MakeTree

open MakeTree.Event (debugs)

theorem Piece.level_of_mem_surveyEvents {p : Piece} {e : Event} (h : e ∈ p.surveyEvents) :
    e.level ≠ .debug := by
  have frame {e : Event} (he : e.IsFrame) : e.level ≠ .debug := by
    rw [show e.level = .trace from he]
    decide
  cases p with
  | token t change =>
    rw [surveyEvents] at h
    split at h
    · rcases List.mem_append.1 h with h | h
      · exact frame (t.inside.isFrame_of_mem_search e h)
      · obtain ⟨err, -, rfl⟩ := Option.map_eq_some_iff.1 (Option.mem_toList.1 h)
        exact fun hl => by cases hl
    · exact frame (isFrame_of_mem_frameEvents h)
  | continuation s => cases h
  | illegal q d =>
    obtain rfl := List.mem_singleton.1 h
    exact fun hl => by cases hl

namespace Lexer

theorem debugs_survey (lx : Lexer) (strict : Bool) : debugs (lx.survey strict).1 = [] := by
  cases strict with
  | true => exact Event.debugs_of_isFrame lx.isFrame_of_mem_search
  | false =>
    refine List.filter_eq_nil_iff.2 fun e he hd => ?_
    obtain ⟨p, -, hp⟩ := List.mem_flatMap.1 he
    exact Piece.level_of_mem_surveyEvents hp (by simpa using hd)

/-- The record announces the statement at the place: it names the first token of the statement that
is no blank. -/
def Announces (lx : Lexer) (e : Event) (p : Placed) : Prop :=
  ∃ before taken after t, lx.Occupies p before taken after ∧
    (taken.flatten.map Nest.token).find? (!·.kind.isLeading) = some t ∧ e = .statement t.kind

/-- What is recorded for whoever looks for an error in a text, by what comes of the text. -/
inductive Logs (lx : Lexer) : Except Error Tree → List Event → Prop
  | refused (e : LexError) : Logs lx (.error (.lex e)) []
  | failed {es : List Event} {e : ParseError} (h : ∀ e' ∈ es, ∃ k, e' = .statement k) :
      Logs lx (.error (.parse e)) (es ++ [.failed e])
  /-- one record for each node that is a child of the root or of a branch, in their order -/
  | parsed {t : Tree} {es : List Event} {ps : List Placed} (order : ps.Sublist t.subtrees)
      (mem : ∀ p, p ∈ ps ↔ Tree.InBlock t.subtrees p ∧ ¬ p.tree.IsLeaf)
      (h : es.Forall₂ lx.Announces ps) : Logs lx (.ok t) es

variable {text : Text} {c : Char} {us : List Tree} {trailing : List Trivia}

theorem announces (hu : (start text c).unclosed? = none)
    (hparses : Parser.Parses .file (start text c).lines us []) {p : Placed}
    (hp : p ∈ (Tree.node .root (us ++ trailing.map Trivia.tree)).entries) {e : Event}
    (he : e.Names p) : (start text c).Announces e p := by
  obtain ⟨⟨q, hq, hk, hpart⟩, hleaf⟩ := Tree.mem_entries.1 hp
  obtain ⟨line, ls, rest, ⟨before, hb⟩, hseat, hst⟩ := statementAt hparses hq hk hpart hleaf
  obtain ⟨used, rfl, hspan⟩ := hst.extent
  have hspan : Parser.Spans (line :: used).flatten [p.tree] := hspan
  have hocc : (start text c).Occupies p (Line.rows before) (Line.rows (line :: used))
      (Line.rows rest) := by
    rw [← List.cons_append] at hb hseat
    exact occupies hu hb.symm (List.cons_ne_nil _ _) hseat hspan
  have hclosed : Nest.ClosedAll (line :: used).flatten := by
    have hall := closed_lines hu
    rw [← hb, ← List.cons_append, List.flatten_append, List.flatten_append] at hall
    exact (Nest.closedAll_append.1 (Nest.closedAll_append.1 hall).2).1
  obtain ⟨k, hlead, rfl⟩ := he
  rw [(hspan .root (by decide)).leadOf hclosed.isFlat] at hlead
  obtain ⟨n, hn, rfl⟩ := Option.map_eq_some_iff.1 hlead
  refine ⟨_, _, _, n.token, hocc, ?_, rfl⟩
  rw [Line.flatten_rows, List.find?_map]
  exact congrArg (Option.map Nest.token) hn

theorem parse_events_of_ok {lx : Lexer} {a : Unit} {s : Cursor}
    (h : Parser.statements lx.lines ⟨[], [], []⟩ = .ok a s) : lx.parse.events = s.events := by
  rw [lines] at h
  simp only [parse, h]

theorem parse_events_of_error {lx : Lexer} {e : ParseError} {s : Cursor}
    (h : Parser.statements lx.lines ⟨[], [], []⟩ = .error e s) :
    lx.parse.events = s.events ++ [.failed e] := by
  rw [lines] at h
  simp only [parse, h]

/-- The parser of a text that was read through announces the statements, and says at last if it
failed. -/
theorem logs_parse (hu : (start text c).unclosed? = none) :
    (start text c).Logs (start text c).parse.result (debugs (start text c).parse.events) := by
  rw [parse_result_eq]
  cases hs : Parser.statements (start text c).lines ⟨[], [], []⟩ with
  | error e s =>
    obtain ⟨es, he, hsteps⟩ := Parser.records_steps (start text c).lines ⟨[], [], []⟩
    rw [hs] at he
    have he : s.events = es := he
    rw [parse_events_of_error hs, he, Event.debugs_append]
    refine .failed fun e' hm => ?_
    obtain ⟨hmem, hd⟩ := List.mem_filter.1 hm
    refine (hsteps e' hmem).resolve_left fun hf => ?_
    rw [show e'.level = .trace from hf] at hd
    cases hd
  | ok a s =>
    obtain ⟨ts, hb, hparses⟩ := Parser.parses_of_ok (goodLines hu) hs
    obtain ⟨ts', new, hb', he, htold⟩ := Parser.tells_statements (goodLines hu) [] _ _ _ _ hs
    obtain rfl : ts = ts' := List.append_cancel_left (hb.symm.trans hb')
    rw [List.nil_append] at hb he
    simp only [parse_events_of_ok hs, hb, he]
    have hentries : (Tree.node .root (ts ++ (start text c).nests.2.map Trivia.tree)).entries =
        Tree.entriesOf true 1 0 ts := by
      have hleaves : Tree.entriesOf true 1 (0 + (Tree.textOf ts).byteSize)
          ((start text c).nests.2.map Trivia.tree) = [] :=
        Tree.entriesOf_leaves fun _ ht => Lexeme.isLeaf_of_mem_leading ht
      show Tree.entriesOf true 1 0 (ts ++ _) = _
      rw [Tree.entriesOf_append, hleaves, List.append_nil]
    have hnames := htold 1 0
    rw [← hentries] at hnames
    refine .parsed (Tree.entries_sublist _) (fun p => Tree.mem_entries) ?_
    have hmem := (List.forall₂_and_left _ _).2 ⟨fun p (hp : p ∈ _) => hp, hnames.flip⟩
    exact (hmem.imp fun p e h => announces hu hparses h.1 h.2).flip

end Lexer

/-- Of what is recorded for whoever looks for an error, there is nothing if the lexer refuses the
text. If it is parsed, there is one record for each node that is a child of the root or of a branch,
in their order, and it names the first token of the node that is no blank. If the parser fails, the
last record says so, and it is the only one that does. -/
theorem parse_logs (text : Text) (options : Options) :
    (Lexer.start text options.recipePrefix).Logs (parse text options).result
      ((parse text options).events.filter (·.level == .debug)) := by
  have hsurvey := (Lexer.start text options.recipePrefix).debugs_survey options.strict
  have hrefusal : (Lexer.start text options.recipePrefix).refusal options.strict =
    ((Lexer.start text options.recipePrefix).survey options.strict).2 := rfl
  rw [parse]
  cases hs : (Lexer.start text options.recipePrefix).survey options.strict with
  | mk events refusal =>
    rw [hs] at hsurvey hrefusal
    cases refusal with
    | some e =>
      show Lexer.Logs _ _ (debugs events)
      rw [hsurvey]
      exact .refused e
    | none =>
      have hu := (Lexer.refusal_eq_none.1 hrefusal).2
      show Lexer.Logs _ _ (debugs (events ++ _))
      rw [Event.debugs_append, hsurvey, List.nil_append]
      exact Lexer.logs_parse hu

end MakeTree
