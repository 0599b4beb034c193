import MakeTree.Proofs.Grammar.OneLine

/-!
Definitions. The end of a definition is found in the lines up to it (`endef?_append`), so the same
lines are taken whatever comes after them (`definition_ok`).
-/

namespace MakeTree

namespace Line

theorem head_of_closes {line : Line} (h : line.nesting = .closes) : ∃ n ls,
    afterLeading line = n :: ls ∧ n.kind = .keyword .endef ∧ isDone ls = true := by
  unfold nesting at h
  split at h
  · cases h
  · split at h
    · cases h
    · next n ls ha =>
      refine ⟨n, ls, ha, ?_⟩
      split at h
      · next hk => simpa using hk
      · simp only at h
        split at h
        · cases h
        · cases h

theorem nesting_of_endef? {lines : List Line} {depth count : Nat}
    (h : endef? depth lines = some count) :
    ∃ closing, lines[count]? = some closing ∧ closing.nesting = .closes := by
  induction lines generalizing depth count with
  | nil => cases h
  | cons line lines ih =>
    have later {d : Nat} (h : (endef? d lines).map (· + 1) = some count) :
        ∃ closing, (line :: lines)[count]? = some closing ∧ closing.nesting = .closes := by
      obtain ⟨c, hc, rfl⟩ := Option.map_eq_some_iff.1 h
      exact ih hc
    rw [endef?] at h
    cases hn : nesting line with
    | inside =>
      rw [hn] at h
      exact later h
    | opens =>
      rw [hn] at h
      exact later h
    | closes =>
      rw [hn] at h
      simp only at h
      split at h
      · cases h
        exact ⟨line, rfl, hn⟩
      · exact later h

theorem endef?_lt {lines : List Line} {depth count : Nat} (h : endef? depth lines = some count) :
    count < lines.length := by
  obtain ⟨_, hc, -⟩ := nesting_of_endef? h
  exact (List.getElem?_eq_some_iff.1 hc).1

theorem endef?_append {lines : List Line} {depth count : Nat}
    (h : endef? depth lines = some count) (rest : List Line) :
    endef? depth (lines.take (count + 1) ++ rest) = some count := by
  induction lines generalizing depth count with
  | nil => cases h
  | cons line lines ih =>
    rw [endef?] at h
    rw [List.take_succ_cons, List.cons_append, endef?]
    cases hn : nesting line with
    | inside =>
      simp only [hn] at h ⊢
      obtain ⟨c, hc, rfl⟩ := Option.map_eq_some_iff.1 h
      rw [ih hc, Option.map_some]
    | opens =>
      simp only [hn] at h ⊢
      obtain ⟨c, hc, rfl⟩ := Option.map_eq_some_iff.1 h
      rw [ih hc, Option.map_some]
    | closes =>
      simp only [hn] at h ⊢
      split at h
      · next hd =>
        cases h
        rw [if_pos hd]
      · next hd =>
        obtain ⟨c, hc, rfl⟩ := Option.map_eq_some_iff.1 h
        rw [if_neg hd, ih hc, Option.map_some]

end Line

namespace Parser

open Likeness

def definitionHeader : Parser Unit := do
  skipLeading
  let _ ← specifiers
  advance
  skipWhitespace
  refuse Nest.isAssignOp [.macroName]
  expression fun n => n.isWhitespace || n.isAssignOp
  skipWhitespace
  advanceIf Nest.isAssignOp
  endOfLine

def definitionEnd : Parser Unit := do
  skipLeading
  advance
  endOfLine

theorem definition_eq (lines : List Line) : definition lines =
    within .definition (definitionHeader >>= fun _ =>
      match Line.endef? 0 lines with
      | none => throw (.unexpectedEnd [.token (.keyword .endef)])
      | some count => do
        body (lines.take count)
        load (lines[count]?.getD [])
        definitionEnd
        return ⟨lines.drop (count + 1), (List.drop_sublist _ _).length_le⟩) := by
  conv_rhs => simp only [definitionHeader, definitionEnd, bind_assoc]
  rfl

theorem uniform_definitionHeader : Uniform definitionHeader :=
  sim_then sim_skipLeading <| sim_bind sim_specifiers fun _ _ _ =>
    sim_then (sim_move 1) <| sim_then sim_skipWhitespace <|
      sim_then (sim_refuse blind_isAssignOp _) <|
        sim_then (sim_expression (blind_isWhitespace.or blind_isAssignOp)) <|
          sim_then sim_skipWhitespace <| sim_then (sim_advanceIf blind_isAssignOp) <|
            sim_endOfLine

theorem uniform_definitionEnd : Uniform definitionEnd :=
  sim_then sim_skipLeading (sim_then (sim_move 1) sim_endOfLine)

section Consumes

variable {R : NodeKind → List Nest → List Tree → Prop} {k : NodeKind} {ns : List Nest}
  (hR : Reads R)

include hR

theorem consumes_definitionHeader (ha : ∀ ms,
      ms = (Line.afterLeading ns).dropWhile (fun n => Line.isSpecifier n || n.isWhitespace) →
        Consumes (R k) advance ms (fun _ ls => ls = ms.tail)) (hs : Nest.Single ns) :
    Consumes (R k) definitionHeader ns (fun _ ms => ms = []) := by
  refine consumes_bind hR (consumes_skipLeading hR) fun _ _ _ h₁ hl => ?_
  refine consumes_bind hR (consumes_specifiers hR) fun _ _ _ h₂ hi => ?_
  refine consumes_bind hR (ha _ (hl ▸ hi)) fun _ _ _ h₃ _ => ?_
  refine consumes_bind hR (consumes_skipWhitespace hR) fun _ _ _ h₄ _ => ?_
  refine consumes_bind hR (consumes_refuse hR _) fun _ _ _ h₅ _ => ?_
  refine consumes_bind hR (consumes_expression hR) fun _ _ _ h₆ _ => ?_
  refine consumes_bind hR (consumes_skipWhitespace hR) fun _ _ _ h₇ _ => ?_
  refine consumes_bind hR (consumes_advanceIf hR fun _ => Nest.movable_of_isAssignOp)
    fun _ _ _ h₈ _ => ?_
  clear ha hl hi
  subst h₁ h₂ h₃ h₄ h₅ h₆ h₇ h₈
  exact consumes_endOfLine hR
    hs.suffix.suffix.suffix.suffix.suffix.suffix.suffix.suffix

theorem consumes_definitionEnd
    (hany : ∀ {j : NodeKind}, j ≠ .condition → ∀ n : Nest, R j [n] n.trees)
    (hk : k ≠ .condition) (hs : Nest.Single ns) :
    Consumes (R k) definitionEnd ns (fun _ ms => ms = []) := by
  refine consumes_bind hR (consumes_skipLeading hR) fun _ _ _ h₁ _ => ?_
  refine consumes_bind hR (consumes_advance_any hR hany hk) fun _ _ _ h₂ _ => ?_
  subst h₁ h₂
  exact consumes_endOfLine hR hs.suffix.suffix

end Consumes

/-- The trees of a definition's body and of the line break after it. -/
def bodyTrees (ns : List Nest) : List Tree :=
  [.node .expression (Nest.treesOf ns.dropLast)] ++ Nest.treesOf ns.getLast?.toList

theorem dropLast_append_getLast? (ns : List Nest) : ns.dropLast ++ ns.getLast?.toList = ns := by
  rcases List.eq_nil_or_concat' ns with rfl | ⟨ms, n, rfl⟩
  · rfl
  · simp

theorem takes_body_of {lines : List Line} {es : List Event}
    (h : ∀ c : Cursor, fragments true lines.flatten.dropLast.length lines.flatten.dropLast c =
      .ok () { c with events := c.events ++ es }) (ns : List Nest) :
    Takes (body lines) ns () ns (bodyTrees lines.flatten) := by
  have hf : Takes (fragments true lines.flatten.dropLast.length lines.flatten.dropLast) ns () ns [] :=
    fun outer es' => ⟨es' ++ es, by rw [List.append_nil, h]⟩
  exact ((hf.then (takes_build _)).within .expression).bind (takes_build _)

/-- The body of a definition is never refused. -/
theorem takes_body {lines : List Line} (hs : Nest.SoundAll lines.flatten) (ns : List Nest) :
    Takes (body lines) ns () ns (bodyTrees lines.flatten) := by
  have hd : Nest.SoundAll lines.flatten.dropLast := Nest.soundAll_iff.2 fun n hn =>
    Nest.soundAll_iff.1 hs n ((List.dropLast_subset _) hn)
  obtain ⟨es, h⟩ := fragments_of_sound hd lines.flatten.dropLast.length
  exact takes_body_of h ns

/-- A body that is not refused somewhere is refused nowhere. -/
theorem takes_body_of_ok {lines : List Line} {c s : Cursor} (h : body lines c = .ok () s)
    (ns : List Nest) : Takes (body lines) ns () ns (bodyTrees lines.flatten) := by
  cases settled_fragments true lines.flatten.dropLast.length lines.flatten.dropLast with
  | ok es hf => exact takes_body_of hf ns
  | error e es hf =>
    obtain ⟨_, _, h, -⟩ := bind_ok h
    obtain ⟨_, h, -⟩ := within_ok h
    obtain ⟨_, _, h, -⟩ := bind_ok h
    rw [hf] at h
    cases h

theorem held_bodyTrees (ns : List Nest) : Held ns (bodyTrees ns) := by
  intro k hk
  have hb := (Reading.node (k := k) inner_expression <|
    Nest.reading_treesOf inner_expression inner_expansion ns.dropLast (by decide)).append
      (Nest.reading_treesOf inner_expression inner_expansion ns.getLast?.toList hk)
  rwa [← Nest.flattenAll_append, dropLast_append_getLast?] at hb

theorem Held.append {ms ns : List Nest} {ts us : List Tree} (h : Held ms ts) (h' : Held ns us) :
    Held (ms ++ ns) (ts ++ us) := by
  intro k hk
  rw [Nest.flattenAll_append]
  exact (h k hk).append (h' k hk)

theorem Held.node {ns : List Nest} {ts : List Tree} (h : Held ns ts) {k : NodeKind}
    (hk : k.Inner) (hc : k ≠ .condition) : Held ns [.node k ts] :=
  fun _ _ => .node hk (h k hc)

/-- What a parser of several lines takes, leaving `rest` of them. -/
def TakesRest {P : List Line → Prop} (p : Parser { rest // P rest }) (line : Line)
    (rest : List Line) (ms : List Nest) (ts : List Tree) : Prop :=
  ∃ r : { rest // P rest }, r.1 = rest ∧ Takes p line r ms ts

theorem definition_parts {line : Line} {lines : List Line} {outer : List Tree} {es : List Event}
    {r : Rest lines} {s : Cursor} (h : definition lines ⟨line, outer, es⟩ = .ok r s) :
    ∃ count s₁ s₂ es₂, Line.endef? 0 lines = some count ∧ r.1 = lines.drop (count + 1) ∧
      definitionHeader ⟨line, [], es⟩ = .ok () s₁ ∧
      (∀ ns, Takes (body (lines.take count)) ns () ns (bodyTrees (lines.take count).flatten)) ∧
      definitionEnd ⟨lines[count]?.getD [], s₁.built ++ bodyTrees (lines.take count).flatten, es₂⟩ =
        .ok () s₂ ∧
      s.unread = s₂.unread ∧ s.built = outer ++ [.node .definition s₂.built] := by
  rw [definition_eq] at h
  obtain ⟨s₂, h, hu, hb⟩ := within_ok h
  obtain ⟨_, ⟨ns₁, ts₁, es₁⟩, h₁, h⟩ := bind_ok h
  cases he : Line.endef? 0 lines with
  | none =>
    rw [he] at h
    cases h
  | some count =>
    rw [he] at h
    obtain ⟨_, _, h₂, h⟩ := bind_ok h
    obtain ⟨_, _, h₃, h⟩ := bind_ok h
    obtain ⟨_, _, h₄, h⟩ := bind_ok h
    cases h
    cases h₃
    have htakes := takes_body_of_ok h₂
    obtain ⟨es₂, hbody⟩ := htakes ns₁ ts₁ es₁
    obtain ⟨-, rfl⟩ := EStateM.Result.ok.inj (hbody.symm.trans h₂)
    exact ⟨count, _, s₂, es₂, rfl, rfl, h₁, htakes, h₄, hu, hb⟩

/-- The lines to an `endef` make a definition whatever comes after them. -/
theorem takes_definition {line : Line} {lines : List Line} {count : Nat}
    (he : Line.endef? 0 lines = some count) {hd te : List Tree}
    (hh : Takes definitionHeader line () [] hd)
    (hb : Takes (body (lines.take count)) [] () [] (bodyTrees (lines.take count).flatten))
    (hte : Takes definitionEnd (lines[count]?.getD []) () [] te) (rest : List Line) :
    TakesRest (definition (lines.take (count + 1) ++ rest)) line rest []
      [.node .definition (hd ++ (bodyTrees (lines.take count).flatten ++ te))] := by
  have hlt := Line.endef?_lt he
  have hlen : (lines.take (count + 1)).length = count + 1 := by
    rw [List.length_take, Nat.min_eq_left hlt]
  have hdrop : (lines.take (count + 1) ++ rest).drop (count + 1) = rest := List.drop_left' hlen
  have htake : (lines.take (count + 1) ++ rest).take count = lines.take count := by
    rw [List.take_append_of_le_length (by omega), List.take_take, Nat.min_eq_left (by omega)]
  have hget : (lines.take (count + 1) ++ rest)[count]? = lines[count]? := by
    rw [List.getElem?_append_left (by omega), List.getElem?_take_of_lt (by omega)]
  refine ⟨⟨_, by simp⟩, hdrop, ?_⟩
  rw [definition_eq, Line.endef?_append he]
  apply Takes.within
  apply hh.bind
  simp only [htake, hget]
  apply hb.bind
  apply (takes_load _).then
  have ht := hte.bind (f := fun _ =>
    (pure ⟨(lines.take (count + 1) ++ rest).drop (count + 1), by simp⟩ :
      Parser (Rest (lines.take (count + 1) ++ rest)))) takes_pure
  rwa [List.append_nil] at ht

theorem definitionHeader_ok {line : Line} (hl : line.Good) {outer : List Tree} {es : List Event}
    {s : Cursor} (h : definitionHeader ⟨line, outer, es⟩ = .ok () s) :
    ∃ hd, s.unread = [] ∧ s.built = outer ++ hd ∧ Takes definitionHeader line () [] hd ∧
      Held line hd :=
  line_ok uniform_definitionHeader (fun _ hk => consumes_definitionHeader reads_held
    (fun _ _ => consumes_advance_any reads_held held_any hk) hl.single) hl.closed h

theorem definitionEnd_ok {line : Line} (hl : line.Good) {outer : List Tree} {es : List Event}
    {s : Cursor} (h : definitionEnd ⟨line, outer, es⟩ = .ok () s) :
    ∃ te, s.unread = [] ∧ s.built = outer ++ te ∧ Takes definitionEnd line () [] te ∧
      Held line te :=
  line_ok uniform_definitionEnd (fun _ hk => consumes_definitionEnd reads_held held_any hk
    hl.single) hl.closed h

theorem definition_ok {line : Line} {lines : List Line} (hg : line.Good)
    (hgs : ∀ l ∈ lines, Line.Good l) {outer : List Tree} {es : List Event} {r : Rest lines}
    {s : Cursor} (h : definition lines ⟨line, outer, es⟩ = .ok r s) :
    ∃ used ts, lines = used ++ r.1 ∧ s.unread = [] ∧ s.built = outer ++ ts ∧
      (∀ rest, TakesRest (definition (used ++ rest)) line rest [] ts) ∧
      Held (line ++ used.flatten) ts ∧ Tree.Statement ts := by
  obtain ⟨count, s₁, s₂, es₂, he, hr, h₁, hbody, h₂, hu, hb⟩ := definition_parts h
  have hlt := Line.endef?_lt he
  have hget : lines[count]?.getD [] = lines[count] := by
    rw [List.getElem?_eq_getElem hlt]
    rfl
  have hgm : Line.Good (lines[count]?.getD []) := by
    rw [hget]
    exact hgs _ (List.getElem_mem hlt)
  obtain ⟨hd, -, hbd, hth, hheld⟩ := definitionHeader_ok hg h₁
  obtain ⟨te, h0, hbe, hte, hheld'⟩ := definitionEnd_ok hgm h₂
  rw [List.nil_append] at hbd
  rw [hbe, hbd, List.append_assoc] at hb
  refine ⟨lines.take (count + 1), _, ?_, hu.trans h0, hb, takes_definition he hth (hbody []) hte, ?_,
    .inl ⟨_, _, rfl⟩⟩
  · rw [hr, List.take_append_drop]
  · have hheld := hheld.append ((held_bodyTrees (lines.take count).flatten).append hheld')
    rw [← List.take_append_getElem hlt, List.flatten_append, List.flatten_singleton, ← hget]
    exact hheld.node ⟨by decide, by decide⟩ (by decide)

end Parser

end MakeTree
