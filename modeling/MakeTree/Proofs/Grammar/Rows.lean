import MakeTree.Proofs.Grammar.Lines
import MakeTree.Proofs.Nest.Comments
import MakeTree.Proofs.Nest.Keywords

/-!
Lines within expansions. A line of nests is cut further where it breaks inside of an expansion. Only
the first of its pieces can begin with a keyword (`Veiled`), so the others neither open nor close
anything (`rows_line`).
-/

namespace MakeTree

namespace Nest

theorem flattenAll_split {ns us vs : List Nest} {m : Nest} (h : flattenAll ns = us ++ m :: vs) :
    ∃ as n bs xs ys, ns = as ++ n :: bs ∧ n.flatten = xs ++ m :: ys ∧ us = flattenAll as ++ xs ∧
      vs = ys ++ flattenAll bs := by
  induction ns generalizing us with
  | nil => simp [flattenAll] at h
  | cons n ns ih =>
    rw [flattenAll] at h
    obtain ⟨as, rfl, h'⟩ | ⟨bs, hn, h'⟩ := List.append_eq_append_iff.1 h
    · obtain ⟨as', n', bs, xs, ys, rfl, hf, rfl, rfl⟩ := ih h'
      exact ⟨n :: as', n', bs, xs, ys, rfl, hf, by rw [flattenAll, List.append_assoc], rfl⟩
    · cases bs with
      | nil =>
        rw [List.append_nil] at hn
        have h' : flattenAll ns = [] ++ m :: vs := h'.symm
        obtain ⟨as', n', bs, xs, ys, rfl, hf, hx, rfl⟩ := ih h'
        refine ⟨n :: as', n', bs, xs, ys, rfl, hf, ?_, rfl⟩
        rw [← hn, flattenAll, List.append_assoc, ← hx, List.append_nil]
      | cons b bs =>
        obtain ⟨rfl, rfl⟩ := List.cons.inj h'
        exact ⟨[], n, ns, us, bs, rfl, hn, rfl, rfl⟩

theorem suffix_mem_of_flatten {n m : Nest} {xs ys : List Nest} (hc : n.Closed)
    (h : n.flatten = xs ++ m :: ys) (hm : m ≠ n) (hk : m.kind ≠ .expansionSuffix) :
    ∃ l ∈ ys, l.kind = .expansionSuffix := by
  cases n with
  | expansion opener body closer =>
    have hl : (xs ++ m :: ys).getLast? = some (leaf closer) := by
      rw [← h, flatten, ← List.cons_append, List.getLast?_concat]
    rcases List.eq_nil_or_concat' ys with rfl | ⟨ys, l, rfl⟩
    · rw [List.getLast?_concat, Option.some.injEq] at hl
      exact absurd (hl ▸ hc.2.2) hk
    · rw [← List.cons_append, ← List.append_assoc, List.getLast?_concat, Option.some.injEq] at hl
      exact ⟨l, by simp, hl ▸ hc.2.2⟩
  | _ =>
    rw [flatten] at h
    exact absurd (List.mem_singleton.1 (h ▸ List.mem_append_right xs List.mem_cons_self)) hm

theorem dropWhile_flattenAll {p : TokenKind → Bool} (hp : p .expansionPrefix = false)
    {ns : List Nest} (hc : ClosedAll ns) :
    (flattenAll ns).dropWhile (fun n => p n.kind) = flattenAll (ns.dropWhile fun n => p n.kind) := by
  induction ns with
  | nil => rfl
  | cons n ns ih =>
    cases hn : p n.kind with
    | true =>
      have hk : n.kind ≠ .expansionPrefix := fun hk => by simp [hk, hp] at hn
      rw [flattenAll, flatten_eq_of_closed hc.1 hk, List.singleton_append,
        List.dropWhile_cons_of_pos (by simpa using hn),
        List.dropWhile_cons_of_pos (by simpa using hn), ih hc.2]
    | false =>
      rw [List.dropWhile_cons_of_neg (by simpa using hn)]
      have hh := head_flattenAll (n :: ns)
      cases hf : flattenAll (n :: ns) with
      | nil => rfl
      | cons m ms =>
        rw [hf] at hh
        have hk : m.kind = n.kind := Option.some.inj hh
        rw [List.dropWhile_cons_of_neg (by simpa [hk] using hn)]

theorem flattenAll_eq_self {ns : List Nest} (h : ∀ n ∈ ns, n.flatten = [n]) :
    flattenAll ns = ns := by
  induction ns with
  | nil => rfl
  | cons n ns ih =>
    rw [flattenAll, h n List.mem_cons_self, ih fun m hm => h m (List.mem_cons_of_mem n hm)]
    rfl

theorem eq_leaf_of_isComment {n : Nest} (hc : n.Closed) (h : n.isComment = true) :
    n = .leaf n.first := by
  have hk : n.kind = .comment := by simpa [isComment] using h
  cases n with
  | leaf x => rfl
  | quoted x inside trailing => exact absurd (hk.symm.trans hc) (by decide)
  | raw x => exact absurd (hk.symm.trans hc) (by decide)
  | expansion opener body closer => exact absurd (hk.symm.trans hc.1) (by decide)

end Nest

namespace Line

/-- Lines as they come of a text. -/
structure Lexed (lines : List Line) : Prop where
  cut : Cut lines
  sound : Nest.SoundAll lines.flatten
  plain : ∀ n ∈ lines.flatten, n.Plain
  comments : Nest.CommentsEnd lines.flatten

namespace Lexed

variable {us ws : List Line}

theorem closed (h : Lexed us) : Nest.ClosedAll us.flatten := Nest.closedAll_of_soundAll h.sound

theorem right (h : Lexed (us ++ ws)) : Lexed ws where
  cut := h.cut.right
  sound := (Nest.soundAll_append.1 (List.flatten_append ▸ h.sound)).2
  plain n hn := h.plain n (by simp [List.mem_flatten.1 hn])
  comments := (List.flatten_append ▸ h.comments : Nest.CommentsEnd (us.flatten ++ ws.flatten)).right

theorem left (h : Lexed (us ++ ws)) : Lexed us where
  cut := h.cut.left
  sound := (Nest.soundAll_append.1 (List.flatten_append ▸ h.sound)).1
  plain n hn := h.plain n (by simp [List.mem_flatten.1 hn])
  comments := (List.flatten_append ▸ h.comments : Nest.CommentsEnd (us.flatten ++ ws.flatten)).left

theorem take (h : Lexed us) (count : Nat) : Lexed (us.take count) := by
  rw [← List.take_append_drop count us] at h
  exact h.left

theorem suffix (h : Lexed us) (hs : ws <:+ us) : Lexed ws := by
  obtain ⟨vs, rfl⟩ := hs
  exact h.right

theorem tail {line : Line} (h : Lexed (line :: ws)) : Lexed ws := h.suffix (List.suffix_cons _ _)

theorem head {line : Line} (h : Lexed (line :: ws)) : Lexed [line] := by
  have h : Lexed ([line] ++ ws) := h
  exact h.left

theorem sound_head {line : Line} (h : Lexed (line :: ws)) : Nest.SoundAll line := by
  simpa using h.head.sound

theorem closed_head {line : Line} (h : Lexed (line :: ws)) : Nest.ClosedAll line :=
  Nest.closedAll_of_soundAll h.sound_head

theorem good_head {line : Line} (h : Lexed (line :: ws)) : Good line :=
  h.cut.good h.closed line List.mem_cons_self

theorem single {line : Line} (h : Lexed (line :: ws)) : Nest.Single line := by
  rcases cut_cons.1 h.cut with ⟨hl, -⟩ | ⟨hl, -⟩
  · exact hl.single
  · exact hl.single

end Lexed

/-- A line that starts within an expansion: a keyword in it comes after the end of one. -/
def Veiled (row : Line) : Prop := ∀ us n vs k, row = us ++ n :: vs → n.kind = .keyword k →
  ∃ m ∈ us, m.kind = .expansionSuffix

namespace Veiled

variable {row : Line}

theorem head (h : row.Veiled) (k : Keyword) :
    row.head?.map Nest.kind ≠ some (.keyword k) := by
  intro hk
  obtain ⟨n, hn, hk⟩ := Option.map_eq_some_iff.1 hk
  obtain ⟨ns, he⟩ := List.head?_eq_some_iff.1 hn
  obtain ⟨m, hm, -⟩ := h [] n ns k he hk
  cases hm

theorem dropWhile (h : row.Veiled) {p : TokenKind → Bool} (hp : p .expansionSuffix = false) :
    Veiled (row.dropWhile fun n => p n.kind) := by
  intro us n vs k hd hk
  have hsplit := (List.takeWhile_append_dropWhile (p := fun n : Nest => p n.kind) (l := row)).symm
  rw [hd, ← List.append_assoc] at hsplit
  obtain ⟨m, hm, hs⟩ := h _ _ _ k hsplit hk
  rcases List.mem_append.1 hm with hm | hm
  · have := List.mem_takeWhile_imp hm
    simp [hs, hp] at this
  · exact ⟨m, hm, hs⟩

theorem afterLeading (h : row.Veiled) : Veiled (afterLeading row) :=
  h.dropWhile (p := TokenKind.isLeading) rfl

theorem ofLine (h : row.Veiled) (k : Keyword) : LineKind.ofLine row ≠ .keyword k :=
  fun hk => h.afterLeading.head k (LineKind.kind_of_keyword hk)

end Veiled

section Nesting

variable {line : Line}

/-- Specifiers and blanks, which may stand in front of `define`. -/
def specifies (k : TokenKind) : Bool := k.specifier?.isSome || k == .whitespace

theorem nesting_eq (line : Line) : nesting line =
    if line.head?.map Nest.kind = some .recipePrefix then .inside
    else if (afterLeading line).head?.map Nest.kind = some (.keyword .endef) ∧
      isDone (afterLeading line).tail = true then .closes
    else if ((afterLeading line).dropWhile fun n => specifies n.kind).head?.map Nest.kind =
      some (.keyword .define) then .opens else .inside := by
  have hany (o : Option Nest) (k : TokenKind) :
      o.any (·.kind == k) = true ↔ o.map Nest.kind = some k := by
    cases o <;> simp
  rw [nesting]
  simp only [hany]
  split
  · rfl
  · cases afterLeading line with
    | nil => rfl
    | cons n ns =>
      have hf := List.find?_eq_head?_dropWhile_not (fun m => !isSpecifier m && !m.isWhitespace)
        (n :: ns)
      simp only [Bool.not_and, Bool.not_not] at hf
      simp only [hf, Bool.and_eq_true, beq_iff_eq]
      simp only [List.head?_cons, Option.map_some, Option.some.injEq]
      rfl

theorem nesting_congr {l l' : Line} (hh : l.head?.map Nest.kind = l'.head?.map Nest.kind)
    (ha : (afterLeading l).head?.map Nest.kind = (afterLeading l').head?.map Nest.kind)
    (hd : (afterLeading l).head?.map Nest.kind = some (.keyword .endef) →
      isDone (afterLeading l).tail = isDone (afterLeading l').tail)
    (hs : ((afterLeading l).dropWhile fun n => specifies n.kind).head?.map Nest.kind =
      ((afterLeading l').dropWhile fun n => specifies n.kind).head?.map Nest.kind) :
    nesting l = nesting l' := by
  rw [nesting_eq, nesting_eq, ← hh, ← hs, ← ha]
  by_cases he : (afterLeading l).head?.map Nest.kind = some (.keyword .endef)
  · rw [hd he]
  · simp only [he, false_and]

theorem nesting_veiled (h : line.Veiled) : nesting line = .inside := by
  have he := h.afterLeading.head .endef
  have hd := (h.afterLeading.dropWhile (p := specifies) rfl).head .define
  rw [nesting_eq, if_neg (c := _ ∧ _) (fun hk => he hk.1), if_neg hd, ite_self]

/-- The line goes up to its end. -/
def Breaks (line : Line) : Prop := ∃ n ∈ line, n.kind = .lineBreak

theorem Ended.breaks (h : line.Ended) : line.Breaks := by
  obtain ⟨us, n, rfl, hn, -⟩ := h
  exact ⟨n, by simp, by simpa [Nest.isLineBreak] using hn⟩

namespace Breaks

theorem dropWhile (h : line.Breaks) {p : TokenKind → Bool} (hp : p .lineBreak = false) :
    Breaks (line.dropWhile fun n => p n.kind) := by
  obtain ⟨n, hn, hk⟩ := h
  refine ⟨n, ?_, hk⟩
  rw [← List.takeWhile_append_dropWhile (p := fun n : Nest => p n.kind) (l := line)] at hn
  refine (List.mem_append.1 hn).resolve_left fun hn => ?_
  have := List.mem_takeWhile_imp hn
  simp [hk, hp] at this

theorem head?_append (h : line.Breaks) (ms : Line) : (line ++ ms).head? = line.head? := by
  obtain ⟨n, hn, -⟩ := h
  exact List.head?_append_of_ne_nil _ (List.ne_nil_of_mem hn)

theorem dropWhile_append (h : line.Breaks) {p : TokenKind → Bool} (hp : p .lineBreak = false)
    (ms : Line) : ((line ++ ms).dropWhile fun n => p n.kind) =
      (line.dropWhile fun n => p n.kind) ++ ms := by
  obtain ⟨n, hn, -⟩ := h.dropWhile hp
  rw [List.dropWhile_append, if_neg]
  simp [List.ne_nil_of_mem hn]

end Breaks

theorem isDone_eq (ns : Line) : isDone ns =
    ((ns.dropWhile fun n => n.kind == .whitespace).head?.map Nest.kind).all
      (fun k => k == .lineBreak || k == .comment) := by
  rw [Option.all_map]
  rfl

theorem isDone_append {ns : Line} (h : ns.Breaks) (ms : Line) : isDone (ns ++ ms) = isDone ns := by
  rw [isDone_eq, isDone_eq, h.dropWhile_append (p := (· == .whitespace)) rfl,
    (h.dropWhile (p := (· == .whitespace)) rfl).head?_append]

theorem nesting_append (h : line.Breaks) (ms : Line) : nesting (line ++ ms) = nesting line := by
  have hb : Breaks (afterLeading line) := h.dropWhile (p := TokenKind.isLeading) rfl
  have ha : afterLeading (line ++ ms) = afterLeading line ++ ms :=
    h.dropWhile_append (p := TokenKind.isLeading) rfl ms
  refine nesting_congr ?_ ?_ (fun hk => ?_) ?_
  · rw [h.head?_append]
  · rw [ha, hb.head?_append]
  · rw [ha, hb.head?_append] at hk
    rw [ha]
    obtain ⟨n, hn, hk⟩ := Option.map_eq_some_iff.1 hk
    obtain ⟨ns, he⟩ := List.head?_eq_some_iff.1 hn
    rw [he] at hb ⊢
    obtain ⟨m, hm, hl⟩ := hb
    rcases List.mem_cons.1 hm with rfl | hm
    · exact absurd (hk.symm.trans hl) (by decide)
    · exact isDone_append ⟨m, hm, hl⟩ ms
  · rw [ha, hb.dropWhile_append (p := specifies) rfl,
      (hb.dropWhile (p := specifies) rfl).head?_append]

theorem isDone_flattenAll {ns : Line} (h : Nest.ClosedAll ns) :
    isDone (Nest.flattenAll ns) = isDone ns := by
  rw [isDone_eq, isDone_eq, Nest.dropWhile_flattenAll (p := (· == .whitespace)) rfl h,
    Nest.head_flattenAll]

theorem nesting_flattenAll (h : Nest.ClosedAll line) :
    nesting (Nest.flattenAll line) = nesting line := by
  have ha : afterLeading (Nest.flattenAll line) = Nest.flattenAll (afterLeading line) :=
    Nest.dropWhile_flattenAll (p := TokenKind.isLeading) rfl h
  have hc : Nest.ClosedAll (afterLeading line) := by
    rw [← List.takeWhile_append_dropWhile (p := fun n : Nest => n.kind.isLeading) (l := line)] at h
    exact (Nest.closedAll_append.1 h).2
  refine nesting_congr (Nest.head_flattenAll line) ?_ (fun hk => ?_) ?_
  · rw [ha, Nest.head_flattenAll]
  · rw [ha, Nest.head_flattenAll] at hk
    rw [ha]
    cases he : afterLeading line with
    | nil => rfl
    | cons n ns =>
      rw [he] at hc hk
      have hk : n.kind = .keyword .endef := Option.some.inj hk
      rw [Nest.flattenAll, Nest.flatten_eq_of_closed hc.1 (by simp [hk])]
      exact isDone_flattenAll hc.2
  · rw [ha, Nest.dropWhile_flattenAll (p := specifies) rfl hc, Nest.head_flattenAll]

end Nesting

section Rows

variable {line : Line} {lines : List Line}

/-- Behind a line break within an expansion, a keyword comes after the end of the expansion. -/
theorem veiled_of_split {us row vs : Line} (hs : Nest.Single line) (hc : Nest.ClosedAll line)
    (hp : ∀ n ∈ line, n.Plain) (h : Nest.flattenAll line = us ++ (row ++ vs)) (hne : us ≠ [])
    (hb : Nest.EndLine us) : row.Veiled := by
  intro xs n ys k hrow hk
  rw [hrow, List.append_assoc, List.cons_append, ← List.append_assoc] at h
  obtain ⟨as, m, bs, xs', ys', rfl, hm, hus, -⟩ := Nest.flattenAll_split h
  -- the keyword is a nest of the line
  obtain rfl : n = m := hp m (by simp) n (by simp [hm]) k hk
  have hf := Nest.flatten_eq_of_closed (hc.mem (n := n) (by simp)) (by simp [hk])
  rw [hf] at hm
  obtain rfl : xs' = [] := by
    cases xs' with
    | nil => rfl
    | cons x xs' =>
      have := congrArg List.length hm
      simp at this
  rw [List.append_nil] at hus
  obtain ⟨us', b, rfl⟩ := (List.eq_nil_or_concat' us).resolve_left hne
  have hbreak : b.isLineBreak = true := hb b (by simp)
  rw [List.append_assoc] at hus
  obtain ⟨as, l, cs, zs, ws, rfl, hl, -, rfl⟩ := Nest.flattenAll_split hus.symm
  have hkb : b.kind ≠ .expansionSuffix := by
    have : b.kind = .lineBreak := by simpa [Nest.isLineBreak] using hbreak
    simp [this]
  have hbl : b ≠ l := by
    rintro rfl
    have := hs as b (cs ++ n :: bs) (by simp) hbreak
    simp at this
  obtain ⟨c, hc', hck⟩ :=
    Nest.suffix_mem_of_flatten (hc.mem (n := l) (by simp)) hl hbl hkb
  exact ⟨c, List.mem_append_left _ hc', hck⟩

theorem no_expansion_of_isDone {ns : Line} (hs : Nest.Single ns) (hc : Nest.ClosedAll ns)
    (he : Nest.CommentsEnd ns) (h : isDone ns = true) : ∀ n ∈ ns, n.kind ≠ .expansionPrefix := by
  induction ns with
  | nil => exact nofun
  | cons n ns ih =>
    have hbreak {m : Nest} {ms : Line} (hs : Nest.Single (m :: ms)) (hm : m.kind = .lineBreak) :
        ms = [] := hs [] m ms rfl (by simp [Nest.isLineBreak, hm])
    by_cases hw : n.kind = .whitespace
    · have hd : isDone ns = true := by
        rwa [isDone_eq, List.dropWhile_cons_of_pos (by simp [hw]), ← isDone_eq] at h
      intro m hm
      rcases List.mem_cons.1 hm with rfl | hm
      · simp [hw]
      · exact ih hs.tail hc.2 he.tail hd m hm
    · rw [isDone_eq, List.dropWhile_cons_of_neg (by simpa using hw)] at h
      have hk : n.kind = .lineBreak ∨ n.kind = .comment := by simpa using h
      rcases hk with hk | hk
      · obtain rfl := hbreak hs hk
        simp [hk]
      · have hcomment : n.isComment = true := by simp [Nest.isComment, hk]
        have hh := he.head (Nest.eq_leaf_of_isComment hc.1 hcomment) hcomment
        cases ns with
        | nil => simp [hk]
        | cons m ms =>
          have hm : m.kind = .lineBreak := by simpa [Nest.isLineBreak] using hh
          obtain rfl := hbreak hs.tail hm
          simp [hk, hm]

theorem flattenAll_of_afterLeading (hc : Nest.ClosedAll line)
    (h : ∀ n ∈ afterLeading line, n.kind ≠ .expansionPrefix) : Nest.flattenAll line = line := by
  refine Nest.flattenAll_eq_self fun n hn => Nest.flatten_eq_of_closed (hc.mem hn) fun hp => ?_
  have hsplit : line.takeWhile (·.kind.isLeading) ++ afterLeading line = line :=
    List.takeWhile_append_dropWhile
  rw [← hsplit] at hn
  rcases List.mem_append.1 hn with hn | hn
  · have := List.mem_takeWhile_imp hn
    rw [hp] at this
    cases this
  · exact h n hn hp

theorem Lexed.afterLeading (h : Lexed [line]) : Nest.Single (afterLeading line) ∧
    Nest.ClosedAll (afterLeading line) ∧ Nest.CommentsEnd (afterLeading line) := by
  have hs := h.single
  have hc := h.closed_head
  have he : Nest.CommentsEnd line := by simpa using h.comments
  rw [← show line.takeWhile (·.kind.isLeading) ++ Line.afterLeading line = line from
    List.takeWhile_append_dropWhile] at hs hc he
  exact ⟨hs.suffix, (Nest.closedAll_append.1 hc).2, he.right⟩

theorem flattenAll_of_closes (h : Lexed [line]) (hn : nesting line = .closes) :
    Nest.flattenAll line = line := by
  obtain ⟨m, ms, ha, hk, hd⟩ := head_of_closes hn
  obtain ⟨hs, hc, he⟩ := h.afterLeading
  refine flattenAll_of_afterLeading h.closed_head fun n hn => ?_
  rw [ha] at hs hc he hn
  rcases List.mem_cons.1 hn with rfl | hn
  · simp [hk]
  · exact no_expansion_of_isDone hs.tail hc.2 he.tail hd n hn

theorem flattenAll_of_isDone (h : Lexed [line]) (hn : isDone (afterLeading line) = true) :
    Nest.flattenAll line = line := by
  obtain ⟨hs, hc, he⟩ := h.afterLeading
  exact flattenAll_of_afterLeading h.closed_head (no_expansion_of_isDone hs hc he hn)

theorem rows_of_flattenAll (h : Cut [line]) (hf : Nest.flattenAll line = line) :
    rows [line] = [line] := by
  rw [Cut, List.flatten_singleton] at h
  rw [rows, List.flatten_singleton, hf, h]

/-- Of the rows of a line, the first counts as the line does, and the others start within an
expansion. -/
theorem rows_line (h : Lexed [line]) : ∃ row rest, rows [line] = row :: rest ∧
    nesting row = nesting line ∧ LineKind.ofLine row = LineKind.ofLine line ∧
      (∀ r ∈ rest, Veiled r) ∧ (nesting line = .closes → rest = []) := by
  have hc := h.closed_head
  have hflat := flatten_rows [line]
  have hcut : Cut (rows [line]) := cut_split _
  rw [List.flatten_singleton] at hflat
  cases hr : rows [line] with
  | nil =>
    rw [hr, List.flatten_nil] at hflat
    obtain rfl := Nest.flattenAll_eq_nil hflat.symm
    exact absurd h.cut (by simp [Cut, split])
  | cons row rest =>
    rw [hr] at hflat hcut
    have hrow : nesting row = nesting line := by
      rw [← nesting_flattenAll hc, ← hflat]
      rcases cut_cons.1 hcut with ⟨hl, -⟩ | ⟨-, rfl⟩
      · rw [List.flatten_cons, nesting_append hl.breaks]
      · rw [List.flatten_singleton]
    have hkind : LineKind.ofLine row = LineKind.ofLine line := by
      rw [LineKind.ofLine_split hr, List.flatten_singleton, LineKind.ofLine_flattenAll hc]
    refine ⟨row, rest, rfl, hrow, hkind, fun r hr' => ?_, fun hn => ?_⟩
    · obtain ⟨us, vs, rfl⟩ := List.append_of_mem hr'
      have hcut : Cut ((row :: us) ++ (r :: vs)) := hcut
      have hends := hcut.ended (List.cons_ne_nil r vs)
      have hsplit : Nest.flattenAll line = (row :: us).flatten ++ (r ++ vs.flatten) := by
        rw [← hflat]
        simp
      refine veiled_of_split h.single hc (fun n hn => h.plain n (by simpa using hn)) hsplit ?_
        (endLine_flatten hends)
      obtain ⟨vs, n, rfl, -⟩ := hends row List.mem_cons_self
      simp
    · rw [rows_of_flattenAll h.cut (flattenAll_of_closes h hn)] at hr
      exact (List.cons.inj hr).2.symm

end Rows

end Line

end MakeTree
