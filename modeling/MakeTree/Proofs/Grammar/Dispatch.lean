import MakeTree.Proofs.Grammar.BlockBuilds

/-!
Which node a statement is, told by how its line starts (`Parses.mem_statementKinds`). A rule is its
first line and, unless that assigns to the targets, a recipe (`Parses.rule_parts`).
-/

namespace MakeTree

namespace Line

/-- The nodes that a statement on the line may be. -/
def statementKinds (line : Line) : List NodeKind :=
  match afterLeading line with
  | [] => []
  | n :: ns =>
    match n.kind with
    | .lineBreak => [.blankLine]
    | .comment => [.commentLine]
    | .keyword (.conditional _) => [.conditional]
    | .keyword (.specifier _) => [.definition, .assignment, .exportLine]
    | .keyword .define => [.definition, .assignment, .exportLine]
    | .keyword .includeFile => [.includeLine]
    | .keyword _ => []
    | _ =>
      match separator? (n :: ns) with
      | some .colon => [.rule]
      | some _ => [.assignment]
      | none => [.functionLine]

end Line

namespace Parser

section Node

variable {α : Type} {j k : NodeKind} {ns : List Nest} {es : List Event} {a : α} {s : Cursor}
  {us : List Tree} {lines : List Line} {r : Rest lines}

theorem kind_of_within {p : Parser α} (h : within j p ⟨ns, [], es⟩ = .ok a s)
    (hb : s.built = [.node k us]) : k = j := by
  obtain ⟨s', -, -, he⟩ := within_ok h
  rw [hb, List.nil_append] at he
  exact (Tree.node.inj (List.cons.inj he).1).1

theorem kind_of_oneLine {p : Parser Unit} (h : oneLine lines (within j p) ⟨ns, [], es⟩ = .ok r s)
    (hb : s.built = [.node k us]) : k = j := by
  obtain ⟨_, s', h', hr⟩ := bind_ok h
  cases hr
  exact kind_of_within h' hb

theorem kind_of_specified {ms : Line} (h : specified ms lines ⟨ns, [], es⟩ = .ok r s)
    (hb : s.built = [.node k us]) : k ∈ [.definition, .assignment, .exportLine] := by
  obtain ⟨⟨found, after⟩, s', hf, h⟩ := bind_ok h
  obtain rfl := specifiersOf_ok hf
  simp only at h
  split at h
  · rw [kind_of_within h hb]
    decide
  · unfold specifiedLine at h
    split at h
    · rw [kind_of_oneLine h hb]
      decide
    · split at h
      · rw [kind_of_oneLine h hb]
        decide
      · split at h <;> cases h

end Node

namespace Parses

variable {line : Line} {lines rest : List Line} {k : NodeKind} {us : List Tree}

/-- A statement is a node of the kind that its line tells. -/
theorem mem_statementKinds (hl : line.Good)
    (h : Parses (.statement line) lines [.node k us] rest) : k ∈ line.statementKinds := by
  obtain ⟨r, -, h⟩ : TakesRest (statement lines) line rest [] [.node k us] := h.runs
  obtain ⟨es, h⟩ := h [] []
  have hb : (⟨[], [] ++ [.node k us], es⟩ : Cursor).built = [.node k us] := rfl
  generalize (⟨[], [] ++ [.node k us], es⟩ : Cursor) = s at h hb
  rw [Line.statementKinds]
  cases ha : Line.afterLeading line with
  | nil =>
    -- blanks make leaves
    rw [statement, unread_bind_eq, ha] at h
    cases h
    have hm : Tree.node k us ∈ Nest.treesOf
        (line.take (line.takeWhile (·.kind.isLeading)).length) := by
      have hb : Nest.treesOf (line.take (line.takeWhile (·.kind.isLeading)).length) =
        [.node k us] := hb
      simp [hb]
    obtain ⟨n, hn, hm⟩ := Nest.mem_treesOf hm
    rw [← List.prefix_iff_eq_take.1 (List.takeWhile_prefix _)] at hn
    have hc := hl.closed.mem ((List.takeWhile_prefix _).subset hn)
    have hlead : n.kind.isLeading = true := by simpa using List.mem_takeWhile_imp hn
    obtain ⟨_, _, he⟩ := Nest.trees_of_isLeading hc hlead _ hm
    cases he
  | cons n ns =>
    rw [statement_eq_of_cons lines ha] at h
    simp only
    have separated (h : (match Line.separator? (n :: ns) with
          | some .colon => Parser.rule lines
          | some _ => oneLine lines assignment
          | none =>
            if Line.startsExpansion n then oneLine lines functionLine
            else failAt (n :: ns) [.token .colon, .token .assignOp])
          ⟨line, [], [] ++ [Event.statement n.kind]⟩ = .ok r s) :
        k ∈ (match Line.separator? (n :: ns) with
          | some .colon => [.rule]
          | some _ => [.assignment]
          | none => [.functionLine] : List NodeKind) := by
      cases hs : Line.separator? (n :: ns) with
      | none =>
        simp only [hs] at h
        split at h
        · exact List.mem_singleton.2 (kind_of_oneLine h hb)
        · cases h
      | some t =>
        rw [hs] at h
        cases t with
        | colon => exact List.mem_singleton.2 (kind_of_within h hb)
        | _ => exact List.mem_singleton.2 (kind_of_oneLine h hb)
    cases hk : n.kind with
    | lineBreak =>
      rw [hk] at h
      exact List.mem_singleton.2 (kind_of_oneLine h hb)
    | comment =>
      rw [hk] at h
      exact List.mem_singleton.2 (kind_of_oneLine h hb)
    | keyword w =>
      rw [hk] at h
      cases w with
      | conditional c =>
        rw [conditional_eq] at h
        exact List.mem_singleton.2 (kind_of_within h hb)
      | specifier s => exact kind_of_specified h hb
      | define => exact kind_of_specified h hb
      | includeFile => exact List.mem_singleton.2 (kind_of_oneLine h hb)
      | _ => cases h
    | _ =>
      simp only [hk] at h separated
      exact separated h

end Parses

end Parser

theorem Line.isRule_of_mem_statementKinds {line : Line} (h : .rule ∈ line.statementKinds) :
    line.IsRule := by
  rw [statementKinds] at h
  cases ha : afterLeading line with
  | nil =>
    rw [ha] at h
    cases h
  | cons n ns =>
    simp only [ha] at h
    have separated (h : .rule ∈ (match separator? (n :: ns) with
        | some .colon => [.rule]
        | some _ => [.assignment]
        | none => [.functionLine] : List NodeKind)) : separator? (n :: ns) = some .colon := by
      cases hs : separator? (n :: ns) with
      | none => simp [hs] at h
      | some t => cases t <;> simp [hs] at h ⊢
    cases hk : n.kind with
    | keyword w => cases w <;> simp [hk] at h
    | lineBreak => simp [hk] at h
    | comment => simp [hk] at h
    | _ =>
      simp only [hk] at h
      exact ⟨n, ns, ha, by simp [hk], by simp [hk], by simp [hk], separated h⟩

namespace Parser

/-- A rule is its first line and, unless that is an assignment, a recipe. -/
theorem Parses.rule_parts {line : Line} {lines rest : List Line} {us : List Tree}
    (hl : line.Good) (hg : GoodLines lines)
    (h : Parses (.statement line) lines [.node .rule us] rest) : line.IsRule ∧
      ∃ continues hd ts, us = hd ++ ts ∧ Takes ruleHeader line continues [] hd ∧
        (continues = true → Parses .recipes lines ts rest) ∧
        (continues = false → ts = [] ∧ rest = lines) := by
  have hr := Line.isRule_of_mem_statementKinds (h.mem_statementKinds hl)
  refine ⟨hr, ?_⟩
  obtain ⟨⟨rest, hle⟩, rfl, hrun⟩ : TakesRest (statement lines) line rest [] [.node .rule us] :=
    h.runs
  obtain ⟨es, h⟩ := hrun [] []
  obtain ⟨es', he⟩ := statement_of_isRule hr lines [] []
  rw [he] at h
  obtain ⟨s₁, hw, -, hb⟩ := within_ok h
  obtain ⟨-, rfl⟩ := Tree.node.inj (List.cons.inj hb).1
  obtain ⟨continues, s₂, h₁, h⟩ := bind_ok hw
  obtain ⟨hd, h0, hb₂, ht, -⟩ := line_ok sim_ruleHeader
    (fun _ _ => consumes_ruleHeader reads_held hl.single) hl.closed h₁
  obtain ⟨ns₂, built₂, es₂⟩ := s₂
  simp only [List.nil_append] at h0 hb₂
  subst h0 hb₂
  cases continues with
  | true =>
    obtain ⟨ts, -, hb', hp⟩ :=
      (soundBelow (lines.length + 1)).recipes lines (Nat.lt_succ_self _) hg _ _ _ _ h
    exact ⟨true, built₂, ts, hb', ht, fun _ => hp, nofun⟩
  | false =>
    cases h
    exact ⟨false, built₂, [], (List.append_nil _).symm, ht, nofun, fun _ => ⟨rfl, rfl⟩⟩

end Parser

end MakeTree
