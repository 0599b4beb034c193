import MakeTree.Proofs.Grammar.Dispatch
import MakeTree.Proofs.Grammar.WordTrees

/-!
Directives: an include line, and an export without an assignment. Such a line is cut into its keyword,
the words behind it, and a comment and the line break (`DirectiveRow`); its trees are those of the
parts (`Parses.directive_row`).
-/

namespace MakeTree

open MakeTree.Tree

/-- A directive: its keyword, words, and the end of the line. -/
structure DirectiveRow where
  lead : List Nest
  keyword : Nest
  blanks : List Nest
  words : List Nest
  gap : List Nest
  ending : List Nest

namespace DirectiveRow

def front (r : DirectiveRow) : List Nest := r.lead ++ [r.keyword]

/-- The words and the blanks beside them. -/
def span (r : DirectiveRow) : List Nest := r.blanks ++ (r.words ++ r.gap)

def nests (r : DirectiveRow) : List Nest :=
  (r.front ++ r.blanks) ++ (r.words ++ (r.gap ++ r.ending))

def trees (r : DirectiveRow) : List Tree :=
  Nest.treesOf (r.front ++ r.blanks) ++ (Nest.wordTrees r.words ++ Nest.treesOf (r.gap ++ r.ending))

structure Cut (r : DirectiveRow) : Prop where
  lead : ∀ n ∈ r.lead, n.kind.isLeading = true
  keyword : r.keyword.kind.isKeyword = true
  blanks : ∀ n ∈ r.blanks, n.isWhitespace = true
  words : ∀ n ∈ r.words, n.endsLine = false
  gap : ∀ n ∈ r.gap, n.isWhitespace = true
  ending : ∀ n ∈ r.ending, n.isComment = true ∨ n.isLineBreak = true

theorem nests_eq (r : DirectiveRow) : r.nests = r.front ++ (r.span ++ r.ending) := by
  simp [nests, span]

theorem Cut.onLine {r : DirectiveRow} (h : r.Cut) : ∀ n ∈ r.span, n.endsLine = false :=
  List.forall_mem_append.2 ⟨fun n hn => Nest.endsLine_of_isWhitespace (h.blanks n hn),
    List.forall_mem_append.2 ⟨h.words, fun n hn => Nest.endsLine_of_isWhitespace (h.gap n hn)⟩⟩

end DirectiveRow

theorem Line.keyword_of_mem_statementKinds {line : Line} {k : NodeKind}
    (hk : k = .includeLine ∨ k = .exportLine) (h : k ∈ line.statementKinds) :
    ∃ n ns, afterLeading line = n :: ns ∧ ∃ w, n.kind = .keyword w ∧
      (k = .includeLine ∧ w = .includeFile ∨
        k = .exportLine ∧ ((∃ s, w = .specifier s) ∨ w = .define)) := by
  rw [statementKinds] at h
  cases ha : afterLeading line with
  | nil =>
    rw [ha] at h
    cases h
  | cons n ns =>
    refine ⟨n, ns, rfl, ?_⟩
    simp only [ha] at h
    cases hn : n.kind with
    | keyword w =>
      refine ⟨w, rfl, ?_⟩
      rcases hk with rfl | rfl
      · cases w <;> simp_all
      · cases w <;> simp_all
    | lineBreak =>
      rw [hn] at h
      rcases hk with rfl | rfl <;> simp at h
    | comment =>
      rw [hn] at h
      rcases hk with rfl | rfl <;> simp at h
    | _ =>
      simp only [hn] at h
      split at h <;> rcases hk with rfl | rfl <;> simp at h

namespace Parser

variable {ns : List Nest}

theorem gives_directiveWords (hns : ∀ n ∈ ns.head?, n.isWhitespace = false) :
    Gives directiveWords ns fun _ ms ts => ∃ us, ns = us ++ ms ∧ ts = Nest.wordTrees us ∧
      ∀ n ∈ us, n.endsLine = false := by
  refine gives_endsOr_bind (gives_ite (fun _ => ?_) fun _ => ?_)
  · exact gives_pure ⟨[], rfl, rfl, nofun⟩
  · refine (gives_words fun _ _ => rfl).mono ?_
    rintro _ ms ts ⟨us, rfl, rfl, hus⟩
    refine ⟨us, rfl, rfl, fun n hn => ?_⟩
    obtain ⟨hl, hs⟩ := hus.all n hn
    rw [Nest.endsLine, hl]
    simpa using hs

theorem gives_directive {lead blanks ms : List Nest} {keyword : Nest}
    (hs : Nest.Single ((lead ++ [keyword]) ++ blanks ++ ms)) (hl : ∀ n ∈ lead, n.kind.isLeading = true)
    (hk : keyword.kind.isKeyword = true) (hb : Nest.Skipped Nest.isWhitespace blanks ms) :
    Gives (directiveWords >>= fun _ => endOfLine) ms fun _ ls ts => ls = [] ∧
      ∃ r : DirectiveRow, (lead ++ [keyword]) ++ blanks ++ ms = r.nests ∧
        Nest.treesOf ((lead ++ [keyword]) ++ blanks) ++ ts = r.trees ∧ r.Cut := by
  refine gives_bind (gives_directiveWords hb.next) fun _ ls ts hm => ?_
  obtain ⟨words, rfl, rfl, hwords⟩ := hm
  refine (gives_endOfLine hs.suffix.suffix).mono ?_
  rintro _ ms ts ⟨rfl, rfl, hend⟩
  have hls := List.takeWhile_append_dropWhile (p := Nest.isWhitespace) (l := ls)
  refine ⟨rfl, ⟨lead, keyword, blanks, words, ls.takeWhile Nest.isWhitespace,
    ls.dropWhile Nest.isWhitespace⟩, ?_, ?_, hl, hk, hb.all, hwords,
    fun n hn => List.mem_takeWhile_imp hn, hend⟩
  · rw [DirectiveRow.nests, hls]
    rfl
  · rw [DirectiveRow.trees, hls]
    rfl

section Directive

variable {n : Nest} {ls : List Nest} (hs : Nest.Single ns) (ha : Line.afterLeading ns = n :: ls)
  (hk : n.kind.isKeyword = true)

include hs ha hk

theorem gives_directiveLine {p : Parser Unit} (k : NodeKind)
    (hp : ∀ ms Q, Gives (do directiveWords; endOfLine) ms Q → Gives p ms Q) :
    Gives (within k do skipLeading; advance; skipWhitespace; p) ns fun _ ms ts => ms = [] ∧
      ∃ r : DirectiveRow, ns = r.nests ∧ ts = [.node k r.trees] ∧ r.Cut := by
  have h : Gives (do skipLeading; advance; skipWhitespace; p) ns fun _ ms ts => ms = [] ∧
      ∃ r : DirectiveRow, ns = r.nests ∧ ts = r.trees ∧ r.Cut := by
    refine gives_bind gives_moveWhile fun _ after ts hm => ?_
    obtain ⟨lead, rfl, rfl, hlead⟩ := hm
    rw [Line.afterLeading, hlead.dropWhile] at ha
    subst ha
    refine gives_bind (gives_advance n ls) fun _ after ts hm => ?_
    obtain ⟨rfl, rfl⟩ := hm
    refine gives_bind gives_moveWhile fun _ rest ts hm => ?_
    obtain ⟨blanks, rfl, rfl, hblanks⟩ := hm
    have hfront : lead ++ n :: (blanks ++ rest) = (lead ++ [n]) ++ blanks ++ rest := by simp
    rw [hfront] at hs ⊢
    refine (hp _ _ (gives_directive hs hlead.all hk hblanks)).mono ?_
    rintro _ ms ts ⟨rfl, r, he, htrees, hr⟩
    refine ⟨rfl, r, he, ?_, hr⟩
    rw [← htrees, Nest.treesOf_append, Nest.treesOf_append]
    simp only [List.append_assoc]
  refine (gives_within h).mono ?_
  rintro _ ms ts ⟨us, rfl, rfl, r, he, rfl, hr⟩
  exact ⟨rfl, r, he, rfl, hr⟩

theorem gives_exportLine : Gives exportLine ns fun _ ms ts =>
    ms = [] ∧ ∃ r : DirectiveRow, ns = r.nests ∧ ts = [.node .exportLine r.trees] ∧ r.Cut :=
  gives_directiveLine hs ha hk .exportLine fun _ _ h => h

theorem gives_includeLine : Gives includeLine ns fun _ ms ts =>
    ms = [] ∧ ∃ r : DirectiveRow, ns = r.nests ∧ ts = [.node .includeLine r.trees] ∧ r.Cut := by
  refine gives_directiveLine hs ha hk .includeLine fun ms Q h => ?_
  refine gives_bind gives_refuse fun _ ls ts hm => ?_
  obtain ⟨rfl, rfl, -⟩ := hm
  simpa using h

end Directive

section Statement

variable {line : Line} {lines rest : List Line} {us : List Tree}

theorem exportLine_of_specified {ms ns : Line} {es : List Event} {r : Rest lines} {s : Cursor}
    (h : specified ms lines ⟨ns, [], es⟩ = .ok r s) (hb : s.built = [.node .exportLine us]) :
    ∃ a s', exportLine ⟨ns, [], es⟩ = .ok a s' ∧ s'.built = s.built := by
  obtain ⟨⟨found, after⟩, s', hf, h⟩ := bind_ok h
  obtain rfl := specifiersOf_ok hf
  simp only at h
  split at h
  · exact absurd (kind_of_within h hb) (by decide)
  · unfold specifiedLine at h
    split at h
    · exact absurd (kind_of_oneLine h hb) (by decide)
    · split at h
      · obtain ⟨a, s₁, h, hs⟩ := bind_ok h
        cases hs
        exact ⟨a, _, h, rfl⟩
      · split at h <;> cases h

theorem Parses.directive_row (hl : line.Good) {k : NodeKind}
    (hk : k = .includeLine ∨ k = .exportLine)
    (h : Parses (.statement line) lines [.node k us] rest) :
    ∃ r : DirectiveRow, line = r.nests ∧ us = r.trees ∧ r.Cut := by
  have hm := h.mem_statementKinds hl
  obtain ⟨r, -, h⟩ : TakesRest (statement lines) line rest [] [.node k us] := h.runs
  obtain ⟨es, h⟩ := h [] []
  have hb : (⟨[], [] ++ [.node k us], es⟩ : Cursor).built = [.node k us] := rfl
  generalize (⟨[], [] ++ [.node k us], es⟩ : Cursor) = s at h hb
  obtain ⟨n, ns, ha, w, hw, hin⟩ := Line.keyword_of_mem_statementKinds hk hm
  have hkey : n.kind.isKeyword = true := by rw [hw]; rfl
  rw [statement_eq_of_cons lines ha, hw] at h
  have cut {p : Parser Unit} {es' : List Event} {s' : Cursor} {u : Unit}
      (hp : Gives p line fun _ ms ts =>
        ms = [] ∧ ∃ r : DirectiveRow, line = r.nests ∧ ts = [.node k r.trees] ∧ r.Cut)
      (h : p ⟨line, [], es'⟩ = .ok u s') (hb' : s'.built = [.node k us]) :
      ∃ r : DirectiveRow, line = r.nests ∧ us = r.trees ∧ r.Cut := by
    obtain ⟨ts, hts, -, r, hr, rfl, hcut⟩ := hp [] _ _ _ h
    rw [hb', List.nil_append] at hts
    obtain ⟨-, rfl⟩ := Tree.node.inj (List.cons.inj hts).1
    exact ⟨r, hr, rfl, hcut⟩
  rcases hin with ⟨rfl, rfl⟩ | ⟨rfl, hw'⟩
  · obtain ⟨_, s', h, hs⟩ := bind_ok h
    cases hs
    exact cut (gives_includeLine hl.single ha hkey) h hb
  · have h : specified (n :: ns) lines ⟨line, [], [] ++ [Event.statement (.keyword w)]⟩ = .ok r s := by
      obtain ⟨s, rfl⟩ | rfl := hw' <;> exact h
    obtain ⟨a, s', h, hs⟩ := exportLine_of_specified h hb
    exact cut (gives_exportLine hl.single ha hkey) h (hs.trans hb)

end Statement

end Parser

end MakeTree
