import MakeTree.Proofs.Grammar.Soundness
import MakeTree.Proofs.Nest.Segment

/-!
How nests are cut into lines. The lines of a text are cut as their nests would be again (`Cut`),
so any stretch of them is too, and between two of them a line ends. The kinds of lines that do not
break inside an expansion are found line by line (`ofLines_solid`).
-/

namespace MakeTree

namespace Nest

theorem flattenAll_eq_nil {ns : List Nest} (h : flattenAll ns = []) : ns = [] := by
  have hh := head_flattenAll ns
  rw [h] at hh
  cases ns with
  | nil => rfl
  | cons n ns => cases hh

theorem Seated.unique {a b : Nat} {ns : List Nest} (h : Seated a ns) (h' : Seated b ns)
    (hne : ns ≠ []) : a = b := by
  obtain ⟨xs, hx, hs⟩ := h
  obtain ⟨ys, hy, hs'⟩ := h'
  have he : xs = ys := by rw [← map_first_ofLexeme xs, hx, ← hy, map_first_ofLexeme]
  subst he
  cases xs with
  | nil => exact absurd (flattenAll_eq_nil hx.symm) hne
  | cons x xs =>
    have ha := hs.1.offset
    have hb := hs'.1.offset
    omega

end Nest

namespace Line

theorem afterLeading_of_isLeading {n : Nest} (h : n.kind.isLeading = true) (ns : Line) :
    afterLeading (n :: ns) = afterLeading ns := List.dropWhile_cons_of_pos h

theorem afterLeading_of_not_isLeading {n : Nest} (h : ¬ n.kind.isLeading = true) (ns : Line) :
    afterLeading (n :: ns) = n :: ns := List.dropWhile_cons_of_neg h

theorem afterLeading_append {line : Line} (h : afterLeading line ≠ []) (ms : Line) :
    afterLeading (line ++ ms) = afterLeading line ++ ms := by
  induction line with
  | nil => exact absurd rfl h
  | cons n ns ih =>
    by_cases hn : n.kind.isLeading = true
    · rw [afterLeading_of_isLeading hn] at h ⊢
      rw [List.cons_append, afterLeading_of_isLeading hn, ih h]
    · rw [List.cons_append, afterLeading_of_not_isLeading hn, afterLeading_of_not_isLeading hn,
        List.cons_append]

/-- The line ends with its only line break. -/
def Ended (line : Line) : Prop :=
  ∃ us n, line = us ++ [n] ∧ n.isLineBreak = true ∧ ∀ m ∈ us, m.isLineBreak = false

/-- The last line of a text without a line break at the end. -/
def Unended (line : Line) : Prop := line ≠ [] ∧ ∀ m ∈ line, m.isLineBreak = false

/-- The lines are what their nests are cut into. -/
def Cut (lines : List Line) : Prop := split lines.flatten = lines

theorem cut_split (ns : List Nest) : Cut (split ns) := by rw [Cut, flatten_split]

theorem split_ended {line : Line} (h : line.Ended) (ns : List Nest) :
    split (line ++ ns) = line :: split ns := by
  obtain ⟨us, n, rfl, hn, hu⟩ := h
  induction us with
  | nil => simp [split, hn]
  | cons u us ih =>
    have hu' := hu u List.mem_cons_self
    have ih := ih fun m hm => hu m (List.mem_cons_of_mem u hm)
    rw [List.cons_append, List.cons_append, split, if_neg (by simp [hu']), ih]

theorem split_unended {line : Line} (h : line.Unended) : split line = [line] := by
  obtain ⟨hne, hl⟩ := h
  induction line with
  | nil => exact absurd rfl hne
  | cons n ns ih =>
    rw [split, if_neg (by simp [hl n List.mem_cons_self])]
    cases ns with
    | nil => rfl
    | cons m ms => rw [ih (by simp) fun m hm => hl m (List.mem_cons_of_mem n hm)]

theorem split_cases {ns : List Nest} {line : Line} {lines : List Line}
    (h : split ns = line :: lines) :
    (line.Ended ∧ ∃ ms, ns = line ++ ms ∧ split ms = lines) ∨
      (line.Unended ∧ lines = [] ∧ ns = line) := by
  induction ns generalizing line lines with
  | nil => cases h
  | cons n ns ih =>
    rw [split] at h
    split at h
    · next hn =>
      cases h
      exact .inl ⟨⟨[], n, rfl, hn, by simp⟩, ns, rfl, rfl⟩
    · next hn =>
      simp only [Bool.not_eq_true] at hn
      cases hs : split ns with
      | nil =>
        rw [hs] at h
        cases h
        have hns : ns = [] := by rw [← flatten_split ns, hs, List.flatten_nil]
        exact .inr ⟨⟨by simp, by simpa using hn⟩, rfl, by rw [hns]⟩
      | cons l ls =>
        rw [hs] at h
        cases h
        rcases ih hs with ⟨⟨us, m, rfl, hm, hu⟩, ms, rfl, hms⟩ | ⟨⟨-, hl⟩, rfl, rfl⟩
        · refine .inl ⟨⟨n :: us, m, rfl, hm, ?_⟩, ms, rfl, hms⟩
          rintro m' hm'
          rcases List.mem_cons.1 hm' with rfl | hm'
          · exact hn
          · exact hu m' hm'
        · refine .inr ⟨⟨by simp, ?_⟩, rfl, rfl⟩
          rintro m' hm'
          rcases List.mem_cons.1 hm' with rfl | hm'
          · exact hn
          · exact hl m' hm'

theorem cut_nil : Cut [] := rfl

theorem cut_cons {line : Line} {lines : List Line} :
    Cut (line :: lines) ↔ line.Ended ∧ Cut lines ∨ line.Unended ∧ lines = [] := by
  constructor
  · intro h
    rcases split_cases h with ⟨hl, ms, hms, hs⟩ | ⟨hl, hs, -⟩
    · rw [List.flatten_cons] at hms
      exact .inl ⟨hl, by rw [Cut, List.append_cancel_left hms, hs]⟩
    · exact .inr ⟨hl, hs⟩
  · rintro (⟨hl, hs⟩ | ⟨hl, rfl⟩)
    · rw [Cut, List.flatten_cons, split_ended hl, hs]
    · rw [Cut, List.flatten_singleton, split_unended hl]

namespace Cut

variable {us ws : List Line}

theorem tail {u : Line} (h : Cut (u :: us)) : Cut us := by
  rcases cut_cons.1 h with ⟨-, h⟩ | ⟨-, rfl⟩
  · exact h
  · exact cut_nil

theorem right (h : Cut (us ++ ws)) : Cut ws := by
  induction us with
  | nil => exact h
  | cons u us ih =>
    exact ih h.tail

theorem left (h : Cut (us ++ ws)) : Cut us := by
  induction us with
  | nil => exact cut_nil
  | cons u us ih =>
    rcases cut_cons.1 h with ⟨hu, h⟩ | ⟨hu, h⟩
    · exact cut_cons.2 (.inl ⟨hu, ih h⟩)
    · exact cut_cons.2 (.inr ⟨hu, (List.append_eq_nil_iff.1 h).1⟩)

theorem flatten_ne_nil (h : Cut us) (hne : us ≠ []) : us.flatten ≠ [] := by
  intro hf
  rw [Cut, hf] at h
  exact hne h.symm

theorem ended (h : Cut (us ++ ws)) (hw : ws ≠ []) : ∀ l ∈ us, Ended l := by
  induction us with
  | nil => nofun
  | cons u us ih =>
    rcases cut_cons.1 h with ⟨hu, h⟩ | ⟨-, h⟩
    · intro l hl
      rcases List.mem_cons.1 hl with rfl | hl
      · exact hu
      · exact ih h l hl
    · exact absurd (List.append_eq_nil_iff.1 h).2 hw

end Cut

theorem Ended.single {line : Line} (h : line.Ended) : Nest.Single line := by
  obtain ⟨us, n, rfl, -, hu⟩ := h
  intro vs m ms he hm
  rcases List.eq_nil_or_concat' ms with rfl | ⟨ms, m', rfl⟩
  · rfl
  · rw [← List.cons_append, ← List.append_assoc] at he
    obtain ⟨rfl, -⟩ := List.append_inj' he rfl
    rw [hu m (by simp)] at hm
    cases hm

theorem Unended.single {line : Line} (h : line.Unended) : Nest.Single line := by
  rintro vs m ms rfl hm
  rw [h.2 m (by simp)] at hm
  cases hm

theorem Cut.good {lines : List Line} (h : Cut lines) (hc : Nest.ClosedAll lines.flatten) :
    GoodLines lines := by
  induction lines with
  | nil => nofun
  | cons line lines ih =>
    rw [List.flatten_cons] at hc
    obtain ⟨hl, hc⟩ := Nest.closedAll_append.1 hc
    intro l hm
    rcases cut_cons.1 h with ⟨he, h⟩ | ⟨he, rfl⟩
    · rcases List.mem_cons.1 hm with rfl | hm
      · exact ⟨he.single, hl⟩
      · exact ih h hc l hm
    · obtain rfl := List.mem_singleton.1 hm
      exact ⟨he.single, hl⟩

theorem endLine_flatten {lines : List Line} (h : ∀ l ∈ lines, Ended l) :
    Nest.EndLine lines.flatten := by
  rcases List.eq_nil_or_concat' lines with rfl | ⟨us, l, rfl⟩
  · nofun
  · obtain ⟨vs, n, rfl, hn, -⟩ := h l (by simp)
    intro m hm
    simp only [List.flatten_append, List.flatten_singleton, ← List.append_assoc,
      List.getLast?_concat, Option.mem_def, Option.some.injEq] at hm
    exact hm ▸ hn

theorem split_append {ms : List Nest} (h : Nest.EndLine ms) (ns : List Nest) :
    split (ms ++ ns) = split ms ++ split ns := by
  induction hs : split ms generalizing ms with
  | nil =>
    obtain rfl : ms = [] := by rw [← flatten_split ms, hs, List.flatten_nil]
    rfl
  | cons line lines ih =>
    rcases split_cases hs with ⟨hl, ls, rfl, rfl⟩ | ⟨hl, rfl, rfl⟩
    · have hls : Nest.EndLine ls := fun n hn => h n (by
        rw [List.getLast?_append, Option.mem_def.1 hn]
        rfl)
      rw [List.append_assoc, split_ended hl, ih hls rfl]
      rfl
    · obtain ⟨us, n, rfl⟩ := (List.eq_nil_or_concat' ms).resolve_left hl.1
      exact absurd (h n (by simp)) (by simp [hl.2 n (by simp)])

end Line

namespace LineKind

theorem ofLine_congr {l l' : Line} (h : l.head?.map Nest.kind = l'.head?.map Nest.kind)
    (ha : (Line.afterLeading l).head?.map Nest.kind = (Line.afterLeading l').head?.map Nest.kind) :
    ofLine l = ofLine l' := by
  have hp (m : Line) : m.head?.any (·.kind == .recipePrefix) =
      (m.head?.map Nest.kind).any (· == .recipePrefix) := by
    rw [Option.any_map]
  rw [ofLine, hp, h, ha, ← hp, ofLine]

theorem ofLine_append {line : Line} (h : Line.afterLeading line ≠ []) (ms : Line) :
    ofLine (line ++ ms) = ofLine line := by
  refine ofLine_congr ?_ ?_
  · cases line with
    | nil => exact absurd rfl h
    | cons n ns => rfl
  · rw [Line.afterLeading_append h]
    obtain ⟨n, ns, he⟩ := List.exists_cons_of_ne_nil h
    rw [he]
    rfl

theorem ofLine_flattenAll {line : Line} (h : Nest.ClosedAll line) :
    ofLine (Nest.flattenAll line) = ofLine line := by
  refine ofLine_congr (Nest.head_flattenAll line) ?_
  induction line with
  | nil => rfl
  | cons n ns ih =>
    by_cases hn : n.kind.isLeading = true
    · have hk : n.kind ≠ .expansionPrefix := fun hk => by
        rw [hk] at hn
        cases hn
      rw [Nest.flattenAll, Nest.flatten_eq_of_closed h.1 hk, List.singleton_append,
        Line.afterLeading_of_isLeading hn, Line.afterLeading_of_isLeading hn]
      exact ih h.2
    · have hh := Nest.head_flattenAll (n :: ns)
      rw [Line.afterLeading_of_not_isLeading hn, ← hh]
      cases hf : Nest.flattenAll (n :: ns) with
      | nil => rfl
      | cons m ms =>
        rw [hf] at hh
        have hk : m.kind = n.kind := Option.some.inj hh
        rw [Line.afterLeading_of_not_isLeading (by rwa [hk])]

theorem afterLeading_ne_nil {line : Line} (h : line.Ended) : Line.afterLeading line ≠ [] := by
  obtain ⟨us, n, rfl, hn, -⟩ := h
  have hk : n.kind = .lineBreak := by simpa [Nest.isLineBreak] using hn
  induction us with
  | nil =>
    rw [List.nil_append, Line.afterLeading_of_not_isLeading (by simp [hk, TokenKind.isLeading])]
    simp
  | cons u us ih =>
    by_cases hu : u.kind.isLeading = true
    · rwa [List.cons_append, Line.afterLeading_of_isLeading hu]
    · rw [List.cons_append, Line.afterLeading_of_not_isLeading hu]
      simp

theorem ofLine_split {ns : List Nest} {line : Line} {lines : List Line}
    (h : Line.split ns = line :: lines) : ofLine line = ofLine ns := by
  rcases Line.split_cases h with ⟨hl, ms, rfl, -⟩ | ⟨-, -, rfl⟩
  · exact (ofLine_append (afterLeading_ne_nil hl) ms).symm
  · rfl

/-- The first of the kinds is that of the first line, also if this breaks inside an expansion. -/
theorem ofLines_cons {line : Line} {lines : List Line} (h : Line.Cut (line :: lines))
    (hc : Nest.ClosedAll (line :: lines).flatten) :
    ∃ ks, ofLines (line :: lines) = ofLine line :: ks := by
  have hk := ofLine_split h
  rw [← ofLine_flattenAll hc] at hk
  rw [ofLines]
  cases hs : Line.split (Nest.flattenAll (line :: lines).flatten) with
  | nil =>
    have hf := Line.flatten_split (Nest.flattenAll (line :: lines).flatten)
    rw [hs, List.flatten_nil] at hf
    rw [Line.Cut, Nest.flattenAll_eq_nil hf.symm] at h
    cases h
  | cons l ls => exact ⟨ls.map ofLine, by rw [List.map_cons, hk, ofLine_split hs]⟩

end LineKind

namespace Line

/-- Lines cut at every line break, also within expansions. -/
def rows (lines : List Line) : List Line := split (Nest.flattenAll lines.flatten)

theorem flatten_rows (lines : List Line) : (rows lines).flatten = Nest.flattenAll lines.flatten :=
  flatten_split _

theorem endLine_flattenAll {ns : List Nest} (h : Nest.EndLine ns) (hc : Nest.ClosedAll ns) :
    Nest.EndLine (Nest.flattenAll ns) := by
  rcases List.eq_nil_or_concat' ns with rfl | ⟨us, n, rfl⟩
  · nofun
  · have hn := h n (by simp)
    have hk : n.kind = .lineBreak := by simpa [Nest.isLineBreak] using hn
    rw [Nest.flattenAll_append, Parser.flattenAll_singleton, Nest.flatten_eq_of_closed
      (Nest.closedAll_append.1 hc).2.1 (by simp [hk])]
    intro m hm
    rw [List.getLast?_concat, Option.mem_def, Option.some.injEq] at hm
    exact hm ▸ hn

theorem rows_append {us ws : List Line} (h : Cut (us ++ ws)) (hc : Nest.ClosedAll us.flatten) :
    rows (us ++ ws) = rows us ++ rows ws := by
  by_cases hw : ws = []
  · subst hw
    rw [List.append_nil]
    exact (List.append_nil _).symm
  · have he := endLine_flattenAll (endLine_flatten (h.ended hw)) hc
    rw [rows, List.flatten_append, Nest.flattenAll_append, split_append he]
    rfl

theorem rows_cons {line : Line} {lines : List Line} (h : Cut (line :: lines))
    (hc : Nest.ClosedAll line) : rows (line :: lines) = rows [line] ++ rows lines := by
  have h : Cut ([line] ++ lines) := h
  exact rows_append h (by simpa using hc)

theorem split_flattenAll {line : Line} (h : Cut [line]) (hc : Nest.ClosedAll line)
    (hs : ∀ n ∈ line, Parser.Solid n) : split (Nest.flattenAll line) = [Nest.flattenAll line] := by
  have hb {us : List Nest} (hs : ∀ n ∈ us, Parser.Solid n)
      (hu : ∀ n ∈ us, n.isLineBreak = false) : ∀ m ∈ Nest.flattenAll us, m.isLineBreak = false := by
    intro m hm
    obtain ⟨n, hn, hm⟩ := Nest.mem_flattenAll hm
    by_contra hl
    simp only [Bool.not_eq_false] at hl
    exact absurd (hs n hn m hm hl) (by simp [hu n hn])
  rcases cut_cons.1 h with ⟨⟨us, n, rfl, hn, hu⟩, -⟩ | ⟨⟨hne, hu⟩, -⟩
  · have hk : n.kind = .lineBreak := by simpa [Nest.isLineBreak] using hn
    have hf := Nest.flatten_eq_of_closed (Nest.closedAll_append.1 hc).2.1 (by simp [hk])
    have he : Ended (Nest.flattenAll (us ++ [n])) := by
      refine ⟨Nest.flattenAll us, n, ?_, hn, hb (fun m hm => hs m (by simp [hm])) hu⟩
      rw [Nest.flattenAll_append, Parser.flattenAll_singleton, hf]
    have h := split_ended he []
    rwa [List.append_nil] at h
  · exact split_unended ⟨fun h => hne (Nest.flattenAll_eq_nil h), hb hs hu⟩

theorem rows_cons_solid {line : Line} {lines : List Line} (h : Cut (line :: lines))
    (hc : Nest.ClosedAll line) (hs : ∀ n ∈ line, Parser.Solid n) :
    rows (line :: lines) = Nest.flattenAll line :: rows lines := by
  have hl : Cut ([line] ++ lines) := h
  rw [rows_cons h hc, rows, List.flatten_singleton, split_flattenAll hl.left hc hs,
    List.singleton_append]

theorem rows_solid {lines : List Line} (h : Cut lines) (hc : Nest.ClosedAll lines.flatten)
    (hs : ∀ l ∈ lines, ∀ n ∈ l, Parser.Solid n) : rows lines = lines.map Nest.flattenAll := by
  induction lines with
  | nil => rfl
  | cons line lines ih =>
    rw [List.flatten_cons] at hc
    obtain ⟨hl, hc⟩ := Nest.closedAll_append.1 hc
    rw [rows_cons_solid h hl (hs line List.mem_cons_self), List.map_cons,
      ih h.tail hc fun l hm => hs l (List.mem_cons_of_mem line hm)]

end Line

namespace LineKind

theorem ofLines_append {us ws : List Line} (h : Line.Cut (us ++ ws))
    (hc : Nest.ClosedAll us.flatten) : ofLines (us ++ ws) = ofLines us ++ ofLines ws :=
  (congrArg (List.map ofLine) (Line.rows_append h hc)).trans List.map_append

theorem ofLines_solid {lines : List Line} (h : Line.Cut lines)
    (hc : Nest.ClosedAll lines.flatten) (hs : ∀ l ∈ lines, ∀ n ∈ l, Parser.Solid n) :
    ofLines lines = lines.map ofLine := by
  refine (congrArg (List.map ofLine) (Line.rows_solid h hc hs)).trans ?_
  rw [List.map_map]
  refine List.map_congr_left fun l hl => ofLine_flattenAll ?_
  obtain ⟨us, ws, rfl⟩ := List.append_of_mem hl
  rw [List.flatten_append, List.flatten_cons] at hc
  exact (Nest.closedAll_append.1 (Nest.closedAll_append.1 hc).2).1

end LineKind

end MakeTree
