import MakeTree.Proofs.Grammar.Lines
import MakeTree.Proofs.Nest.Shift

/-!
What comes of a text. A text is refused or parsed wherever it starts, with errors further on
(`result_shift`), and a tree that comes of it is made of statements that were parsed as `Parses`
says, on the lines that its nests are cut into (`result_ok`).
-/

namespace MakeTree

/-- The same error, some lines and bytes further on. -/
def ParseError.shift (l b : Nat) : ParseError → ParseError
  | unexpectedToken t es => unexpectedToken (t.shift l b) es
  | unexpectedEnd es => unexpectedEnd es

def Error.shift (l b : Nat) : Error → Error
  | notUtf8 => notUtf8
  | lex e => lex (e.shift l b)
  | parse e => parse (e.shift l b)

theorem ParseError.Corresponds.eq_shift {l b : Nat} {e e' : ParseError}
    (h : e.Corresponds (.shift l b) e') : e' = e.shift l b := by
  cases h with
  | token h expected => rw [h]; rfl
  | atEnd expected => rfl

/-- Results that are alike: trees, or errors of the same stage. -/
inductive Likeness.Results (ρ : Likeness) : Except Error Tree → Except Error Tree → Prop
  | tree {ts us : List Tree} (h : ρ.forest ts us) :
      Results ρ (.ok (.node .root ts)) (.ok (.node .root us))
  | lex {e e' : LexError} (h : ρ.Errors e e') : Results ρ (.error (.lex e)) (.error (.lex e'))
  | parse {e e' : ParseError} (h : e.Corresponds ρ e') :
      Results ρ (.error (.parse e)) (.error (.parse e'))

namespace Lexer

/-- The tree of a text, or why there is none. -/
def result (lx : Lexer) (strict : Bool) : Except Error Tree :=
  match lx.refusal strict with
  | some e => .error (.lex e)
  | none => lx.parse.result

def lines (lx : Lexer) : List Line := Line.split lx.nests.1

theorem parse_result_eq (lx : Lexer) : lx.parse.result =
    match Parser.statements lx.lines ⟨[], [], []⟩ with
    | .ok _ s => .ok (.node .root (s.built ++ lx.nests.2.map Trivia.tree))
    | .error e _ => .error (.parse e) := by
  rw [parse, lines]
  simp only
  cases Parser.statements (Line.split lx.nests.1) ⟨[], [], []⟩ <;> rfl

/-- The lines of a text cut into pieces that are alike, with something passed over in front of a
token on both sides or on neither. -/
theorem lines_of_pieces {ρ : Likeness} (hρ : ∀ {us vs}, ρ.trivia us vs → vs.isEmpty = us.isEmpty)
    {lx ly : Lexer} (h : ρ.Pieces lx.run.1 ly.run.1) : ρ.Lines lx.lines ly.lines :=
  Likeness.lines h.nests.1 (Likeness.seams_of_nests hρ h.nests.1 _)

/-- Texts cut into pieces that are alike come to the same, if their lines are alike too. -/
theorem results {ρ : Likeness} {lx ly : Lexer} (h : ρ.Pieces lx.run.1 ly.run.1)
    (hu : Option.Rel ρ.Frames lx.unclosed? ly.unclosed?)
    (hl : lx.unclosed? = none → ρ.Lines lx.lines ly.lines) (strict : Bool) :
    ρ.Results (lx.result strict) (ly.result strict) := by
  have hr := h.refusal hu strict
  rw [result, result]
  cases hx : lx.refusal strict with
  | some e =>
    rw [hx] at hr
    generalize ly.refusal strict = o at hr ⊢
    cases hr with
    | some he => exact .lex he
  | none =>
    rw [hx] at hr
    generalize ly.refusal strict = o at hr ⊢
    cases hr
    have hs := Parser.sim_statements (hl (refusal_eq_none.1 hx).2) [] [] .nil [] [] [] []
    simp only [parse_result_eq]
    generalize Parser.statements lx.lines ⟨[], [], []⟩ = r at hs ⊢
    generalize Parser.statements ly.lines ⟨[], [], []⟩ = r' at hs ⊢
    cases hs with
    | ok _ _ ht => exact .tree (ρ.append ht (ρ.passed h.nests.2))
    | error he => exact .parse he

section Shift

variable (l b : Nat) (lx : Lexer)

theorem pieces_shift : (Likeness.shift l b).Pieces lx.run.1 (lx.shift l b).run.1 ∧
    Option.Rel (Likeness.shift l b).Frames lx.unclosed? (lx.shift l b).unclosed? := by
  obtain ⟨hp, hu, -⟩ := (lockstep_shift l b).pieces rfl
  exact ⟨hp, hu⟩

theorem unclosed?_shift (h : lx.unclosed? = none) : (lx.shift l b).unclosed? = none := by
  have hu := (pieces_shift l b lx).2
  rw [h] at hu
  generalize (lx.shift l b).unclosed? = o at hu ⊢
  cases hu
  rfl

theorem refusal_shift (strict : Bool) :
    (lx.shift l b).refusal strict = (lx.refusal strict).map (LexError.shift l b) := by
  obtain ⟨hp, hu⟩ := pieces_shift l b lx
  have hr := hp.refusal hu strict
  generalize lx.refusal strict = o at hr ⊢
  generalize (lx.shift l b).refusal strict = o' at hr ⊢
  cases hr with
  | none => rfl
  | some he => rw [he.eq_shift]; rfl

theorem trailing_shift : (lx.shift l b).nests.2 = lx.nests.2 := (pieces_shift l b lx).1.nests.2.symm

theorem lines_shift : (Likeness.shift l b).Lines lx.lines (lx.shift l b).lines :=
  lines_of_pieces (fun {us vs} (h : us = vs) => congrArg _ h.symm) (pieces_shift l b lx).1

theorem result_shift (strict : Bool) :
    (lx.shift l b).result strict = (lx.result strict).mapError (Error.shift l b) := by
  obtain ⟨hp, hu⟩ := pieces_shift l b lx
  have hr := results hp hu (fun _ => lines_shift l b lx) strict
  generalize lx.result strict = r at hr ⊢
  generalize (lx.shift l b).result strict = r' at hr ⊢
  cases hr with
  | tree h => rw [show _ = _ from h]; rfl
  | lex h => rw [h.eq_shift]; rfl
  | parse h => rw [h.eq_shift]; rfl

end Shift

section Start

variable {text : Text} {c : Char} {strict : Bool} {t : Tree} {ts : List Tree}

theorem yields_start (h : (start text c).unclosed? = none) : (start text c).Yields
    (start text c).nests.1 (start text c).nests.2 (start text c).run.2 :=
  yields_nests h rfl

theorem flatten_lines (lx : Lexer) : lx.lines.flatten = lx.nests.1 := Line.flatten_split _

theorem closed_nests (h : (start text c).unclosed? = none) :
    Nest.ClosedAll (start text c).nests.1 := by
  obtain ⟨-, -, -, -, -, hc⟩ := yields_start h
  exact hc

theorem cut_lines (lx : Lexer) : Line.Cut lx.lines := Line.cut_split _

theorem closed_lines (h : (start text c).unclosed? = none) :
    Nest.ClosedAll (start text c).lines.flatten := by
  rw [flatten_lines]
  exact closed_nests h

theorem goodLines (h : (start text c).unclosed? = none) : GoodLines (start text c).lines :=
  (cut_lines _).good (closed_lines h)

theorem result_ok (h : (start text c).result strict = .ok t) :
    (start text c).refusal strict = none ∧
      ∃ ts, t = .node .root (ts ++ (start text c).nests.2.map Trivia.tree) ∧
        Parser.Parses .file (start text c).lines ts [] := by
  rw [result] at h
  cases hr : (start text c).refusal strict with
  | some e =>
    rw [hr] at h
    cases h
  | none =>
    rw [hr, parse_result_eq] at h
    have hu := (refusal_eq_none.1 hr).2
    cases hs : Parser.statements (start text c).lines ⟨[], [], []⟩ with
    | error e s =>
      rw [hs] at h
      cases h
    | ok a s =>
      rw [hs] at h
      cases h
      obtain ⟨ts, hb, hp⟩ := Parser.parses_of_ok (goodLines hu) hs
      exact ⟨rfl, ts, by rw [hb]; rfl, hp⟩

theorem result_of_parses {lx : Lexer} (hr : lx.refusal strict = none)
    (hp : Parser.Parses .file lx.lines ts []) :
    lx.result strict = .ok (.node .root (ts ++ lx.nests.2.map Trivia.tree)) := by
  obtain ⟨es, h⟩ := hp.runs [] []
  rw [result, hr, parse_result_eq, h, Parser.statements]
  rfl

end Start

end Lexer

theorem parse_result_start (text : Text) (options : Options) : (parse text options).result =
    (Lexer.start text options.recipePrefix).result options.strict :=
  parse_result text options

theorem exists_result {text : Text} {options : Options}
    (h : (parse text options).result.toOption.isSome = true) :
    ∃ t, (parse text options).result = .ok t := by
  cases hr : (parse text options).result with
  | ok t => exact ⟨t, rfl⟩
  | error e =>
    rw [hr] at h
    cases h

end MakeTree
