import MakeTree.Proofs.Grammar.LineBuilds
import MakeTree.Proofs.Grammar.Rows
import MakeTree.Proofs.Nest.Prefixes

/-!
Where definitions end. Among the rows behind its first line, the one that closes a definition is the
first that could and has as many before it that open a definition as could close one
(`endef?_eq_some`). Cut into rows or not, the lines say the same (`endef?_rows`).
-/

namespace MakeTree

namespace Line

/-- No recipe prefix stands behind the start of the line. -/
def Led (row : Line) : Prop := ∀ n ∈ row.tail, n.kind ≠ .recipePrefix

theorem led_of_mem {rows : List Line} (hcut : Cut rows) (h : rows.flatten.IsChain
      fun m n => n.kind = .recipePrefix → m.isLineBreak = true) : ∀ row ∈ rows, row.Led := by
  intro row hr n hn hk
  obtain ⟨us, vs, rfl⟩ := List.append_of_mem hr
  obtain ⟨xs, ys, hsplit⟩ := List.append_of_mem hn
  have hsingle : Nest.Single row := by
    rcases cut_cons.1 hcut.right with ⟨hl, -⟩ | ⟨hl, -⟩
    · exact hl.single
    · exact hl.single
  cases row with
  | nil => cases hn
  | cons m ms =>
    obtain rfl : ms = xs ++ n :: ys := hsplit
    -- what stands in front of the prefix does not end the line
    obtain ⟨zs, l, hzs⟩ := (List.eq_nil_or_concat' (m :: xs)).resolve_left (by simp)
    have hrow : m :: (xs ++ n :: ys) = zs ++ l :: (n :: ys) := by
      rw [← List.cons_append, hzs]
      simp
    rw [List.flatten_append, List.flatten_cons, hrow] at h
    have hl := (List.isChain_append_cons_cons.1
      (h.right_of_append.left_of_append)).2.1 hk
    cases hsingle zs l (n :: ys) hrow hl

/-- The recipe prefix leads the line. -/
def isPrefixed (row : Line) : Bool := row.head?.any (·.kind == .recipePrefix)

/-- Behind blanks and specifiers comes `define`. -/
def opensDefinition (row : Line) : Bool :=
  !row.isPrefixed && (row.dropWhile Parser.isIntro).head?.any (·.kind == .keyword .define)

/-- Behind blanks comes `endef`, and behind that at most blanks and a comment. -/
def closesDefinition (row : Line) : Bool :=
  !row.isPrefixed && match row.dropWhile Nest.isWhitespace with
    | [] => false
    | n :: ns => n.kind == .keyword .endef && isDone ns

section Row

variable {row : Line}

theorem afterLeading_of_led (h : row.Led) (hp : row.isPrefixed = false) :
    afterLeading row = row.dropWhile Nest.isWhitespace := by
  have hk : ∀ n ∈ row, n.kind ≠ .recipePrefix := by
    cases row with
    | nil => nofun
    | cons m ms =>
      intro n hn
      rcases List.mem_cons.1 hn with rfl | hn
      · simpa [isPrefixed] using hp
      · exact h n hn
  clear h hp
  induction row with
  | nil => rfl
  | cons m ms ih =>
    have ih := ih fun n hn => hk n (List.mem_cons_of_mem m hn)
    have hm := hk m List.mem_cons_self
    have hl : m.kind.isLeading = m.isWhitespace := by
      unfold TokenKind.isLeading
      cases hkind : m.kind <;> simp_all [Nest.isWhitespace]
    rw [afterLeading, List.dropWhile_cons, List.dropWhile_cons, hl, ← ih]
    rfl

theorem dropWhile_isIntro (row : Line) :
    (row.dropWhile Nest.isWhitespace).dropWhile Parser.isIntro = row.dropWhile Parser.isIntro := by
  induction row with
  | nil => rfl
  | cons n ns ih =>
    by_cases hw : n.isWhitespace = true
    · rw [List.dropWhile_cons_of_pos hw, ih,
        List.dropWhile_cons_of_pos (by simp [Parser.isIntro, hw])]
    · rw [List.dropWhile_cons_of_neg hw]

theorem nesting_of_led (h : row.Led) : nesting row = if row.closesDefinition then .closes
    else if row.opensDefinition then .opens else .inside := by
  have hany (o : Option Nest) (k : TokenKind) :
      o.any (·.kind == k) = true ↔ o.map Nest.kind = some k := by
    cases o <;> simp
  cases hp : row.isPrefixed with
  | true => simp [nesting_eq, closesDefinition, opensDefinition, hp, (hany _ _).1 hp]
  | false =>
    have hn : row.head?.map Nest.kind ≠ some .recipePrefix := fun hk => by
      rw [isPrefixed, (hany _ _).2 hk] at hp
      cases hp
    have hd : ((row.dropWhile Nest.isWhitespace).dropWhile fun n => specifies n.kind) =
        row.dropWhile Parser.isIntro := dropWhile_isIntro row
    rw [nesting_eq, if_neg hn, afterLeading_of_led h hp, hd]
    simp only [closesDefinition, opensDefinition, hp, Bool.not_false, Bool.true_and, hany]
    cases row.dropWhile Nest.isWhitespace with
    | nil => simp
    | cons m ms => simp

theorem opensDefinition_of_closes (h : row.closesDefinition = true) :
    row.opensDefinition = false := by
  rw [closesDefinition, Bool.and_eq_true] at h
  rw [opensDefinition, ← dropWhile_isIntro]
  cases hd : row.dropWhile Nest.isWhitespace with
  | nil => simp
  | cons n ns =>
    have hk : n.kind = .keyword .endef := by
      have h := h.2
      rw [hd, Bool.and_eq_true] at h
      exact beq_iff_eq.1 h.1
    have hi : ¬ Parser.isIntro n = true := by
      simp [Parser.isIntro, isSpecifier, TokenKind.specifier?, Nest.isWhitespace, hk]
    rw [List.dropWhile_cons_of_neg hi]
    simp [hk]

end Row

/-- The row `closing` ends a definition that goes on with the rows `body` where `depth` more are open
in it: it is the first that could close one and has as many open before it as are closed. -/
structure ClosedBy (depth : Nat) (body : List Line) (closing : Line) : Prop where
  closes : closing.closesDefinition = true
  level : depth + body.countP opensDefinition = body.countP closesDefinition
  first : ∀ us l vs, body = us ++ l :: vs → l.closesDefinition = true →
    depth + us.countP opensDefinition ≠ us.countP closesDefinition

section ClosedBy

variable {depth depth' count : Nat} {line closing : Line} {body lines : List Line}

theorem closedBy_nil :
    ClosedBy depth [] closing ↔ closing.closesDefinition = true ∧ depth = 0 := by
  constructor
  · intro h
    exact ⟨h.closes, by simpa using h.level⟩
  · rintro ⟨h, rfl⟩
    exact ⟨h, rfl, fun us l vs hs => by simp at hs⟩

theorem closedBy_cons (hc : line.closesDefinition = true → depth ≠ 0)
    (hd : depth + (if line.opensDefinition then 1 else 0) =
      depth' + (if line.closesDefinition then 1 else 0)) :
    ClosedBy depth (line :: body) closing ↔ ClosedBy depth' body closing := by
  have hcount (us : List Line) :
      depth + (line :: us).countP opensDefinition = (line :: us).countP closesDefinition ↔
        depth' + us.countP opensDefinition = us.countP closesDefinition := by
    rw [List.countP_cons, List.countP_cons]
    omega
  constructor
  · rintro ⟨h, hl, hf⟩
    refine ⟨h, (hcount body).1 hl, fun us l vs hs hl => ?_⟩
    rw [hs] at hf
    exact mt (hcount us).2 (hf (line :: us) l vs rfl hl)
  · rintro ⟨h, hl, hf⟩
    refine ⟨h, (hcount body).2 hl, fun us l vs hs hl => ?_⟩
    cases us with
    | nil =>
      obtain ⟨rfl, -⟩ := List.cons.inj hs
      simpa using hc hl
    | cons u us =>
      obtain ⟨rfl, hrest⟩ := List.cons.inj hs
      exact mt (hcount us).1 (hf us l vs hrest hl)

theorem endef?_cons (hl : line.Led) : endef? depth (line :: lines) =
    if line.closesDefinition ∧ depth = 0 then some 0
    else (endef? (depth + (if line.opensDefinition then 1 else 0) -
      (if line.closesDefinition then 1 else 0)) lines).map (· + 1) := by
  rw [endef?, nesting_of_led hl]
  cases hc : line.closesDefinition with
  | true => simp [opensDefinition_of_closes hc]
  | false => cases ho : line.opensDefinition <;> simp

theorem endef?_cons_of_not_ends (hl : line.Led) (hc : line.closesDefinition = true → depth ≠ 0)
    (lines : List Line) : ∃ depth', depth + (if line.opensDefinition then 1 else 0) =
      depth' + (if line.closesDefinition then 1 else 0) ∧
      endef? depth (line :: lines) = (endef? depth' lines).map (· + 1) := by
  refine ⟨_, ?_, (endef?_cons hl).trans (if_neg fun h => hc h.1 h.2)⟩
  cases hline : line.closesDefinition with
  | true =>
    have := hc hline
    simp only [if_true]
    omega
  | false => rfl

theorem endef?_eq_some (hl : ∀ l ∈ lines, l.Led) : endef? depth lines = some count ↔
    ∃ body closing after, lines = body ++ closing :: after ∧ body.length = count ∧
      ClosedBy depth body closing := by
  induction lines generalizing depth count with
  | nil => simp [endef?]
  | cons line lines ih =>
    have hline := hl line List.mem_cons_self
    have ih {depth count : Nat} := @ih depth count fun l hm => hl l (List.mem_cons_of_mem line hm)
    by_cases hends : line.closesDefinition = true ∧ depth = 0
    · rw [endef?_cons hline, if_pos hends]
      constructor
      · intro h
        cases h
        exact ⟨[], line, lines, rfl, rfl, closedBy_nil.2 hends⟩
      · rintro ⟨body, closing, after, hs, rfl, hb⟩
        cases body with
        | nil => rfl
        | cons l body =>
          obtain ⟨rfl, -⟩ := List.cons.inj hs
          exact absurd hends.2 (by simpa using hb.first [] line body rfl hends.1)
    · have hc : line.closesDefinition = true → depth ≠ 0 := fun h hd => hends ⟨h, hd⟩
      obtain ⟨depth', hd, hgo⟩ := endef?_cons_of_not_ends hline hc lines
      rw [hgo, Option.map_eq_some_iff]
      constructor
      · rintro ⟨count, he, rfl⟩
        obtain ⟨body, closing, after, rfl, rfl, hb⟩ := ih.1 he
        exact ⟨line :: body, closing, after, rfl, rfl, (closedBy_cons hc hd).2 hb⟩
      · rintro ⟨body, closing, after, hs, rfl, hb⟩
        cases body with
        | nil =>
          obtain ⟨rfl, -⟩ := List.cons.inj hs
          exact absurd (closedBy_nil.1 hb) hends
        | cons l body =>
          obtain ⟨rfl, hrest⟩ := List.cons.inj hs
          have hb := (closedBy_cons hc hd).1 hb
          exact ⟨body.length, ih.2 ⟨body, closing, after, hrest, rfl, hb⟩, rfl⟩

end ClosedBy

section Rows

variable {depth count : Nat} {lines : List Line}

theorem endef?_inside {us : List Line} (h : ∀ l ∈ us, nesting l = .inside) (ws : List Line) :
    endef? depth (us ++ ws) = (endef? depth ws).map (· + us.length) := by
  induction us with
  | nil => simp
  | cons u us ih =>
    rw [List.cons_append, endef?, h u List.mem_cons_self,
      ih fun l hl => h l (List.mem_cons_of_mem u hl)]
    simp [Function.comp_def, Nat.add_assoc]

theorem endef?_rows (hl : Lexed lines) : endef? depth (rows lines) =
    (endef? depth lines).map fun count => (rows (lines.take count)).length := by
  induction lines generalizing depth with
  | nil => rfl
  | cons line lines ih =>
    have hc := hl.closed_head
    have ih {depth : Nat} := @ih depth hl.tail
    have htake (count : Nat) : rows ((line :: lines).take (count + 1)) =
        rows [line] ++ rows (lines.take count) := by
      have hcut : Cut ((line :: lines.take count) ++ lines.drop count) := by
        rw [List.cons_append, List.take_append_drop]
        exact hl.cut
      exact rows_cons hcut.left hc
    obtain ⟨row, rest, hr, hn, -, hveiled, hclosing⟩ := rows_line hl.head
    have hrest {d : Nat} (ws : List Line) : endef? d (rest ++ ws) =
        (endef? d ws).map (· + rest.length) :=
      endef?_inside (fun r hr => nesting_veiled (hveiled r hr)) ws
    rw [rows_cons hl.cut hc, hr, List.cons_append, endef?, endef?, hn]
    have hmap {d : Nat} : ((endef? d (rest ++ rows lines)).map (· + 1)) =
        ((endef? d lines).map (· + 1)).map
          fun count => (rows ((line :: lines).take count)).length := by
      rw [hrest, ih]
      simp only [Option.map_map]
      refine congrArg (Option.map · _) (funext fun count => ?_)
      show (rows (lines.take count)).length + rest.length + 1 =
        (rows ((line :: lines).take (count + 1))).length
      rw [htake, hr, List.length_append, List.length_cons]
      omega
    cases hnest : nesting line with
    | inside => exact hmap
    | opens => exact hmap
    | closes =>
      simp only
      split
      · rfl
      · exact hmap

theorem rows_of_endef? (hl : Lexed lines) (h : endef? depth lines = some count) :
    ∃ closing, lines[count]? = some closing ∧ Lexed [closing] ∧ nesting closing = .closes ∧
      rows lines = rows (lines.take count) ++ closing :: rows (lines.drop (count + 1)) := by
  obtain ⟨closing, hc, hn⟩ := nesting_of_endef? h
  obtain ⟨hlt, rfl⟩ := List.getElem?_eq_some_iff.1 hc
  have hsplit : lines = lines.take count ++ lines[count] :: lines.drop (count + 1) := by
    rw [← List.drop_eq_getElem_cons hlt, List.take_append_drop]
  have hl : Lexed (lines.take count ++ lines[count] :: lines.drop (count + 1)) := by
    rwa [← hsplit]
  have hone := hl.right.head
  refine ⟨_, hc, hone, hn, ?_⟩
  calc rows lines = rows (lines.take count) ++ rows (lines[count] :: lines.drop (count + 1)) := by
        rw [← rows_append hl.cut hl.left.closed, ← hsplit]
    _ = rows (lines.take count) ++ lines[count] :: rows (lines.drop (count + 1)) := by
        rw [rows_cons hl.right.cut hone.closed_head,
          rows_of_flattenAll hone.cut (flattenAll_of_closes hone hn), List.singleton_append]

section Closed

variable {body after : List Line} {closing : Line} (hl : Lexed lines)
  (hled : ∀ l ∈ rows lines, l.Led)

include hl hled

/-- The rows up to the one that is found are closed by it. -/
theorem closedBy_of_endef? (h : endef? depth lines = some count) : ∃ closing,
    rows lines = rows (lines.take count) ++ closing :: rows (lines.drop (count + 1)) ∧
      ClosedBy depth (rows (lines.take count)) closing := by
  obtain ⟨closing, -, -, -, hs⟩ := rows_of_endef? hl h
  have hrows : endef? depth (rows lines) = some (rows (lines.take count)).length := by
    rw [endef?_rows hl, h]
    rfl
  obtain ⟨body, closing', after, hs', hlen, hb⟩ := (endef?_eq_some hled).1 hrows
  obtain ⟨rfl, htail⟩ := List.append_inj (hs.symm.trans hs') hlen.symm
  obtain ⟨rfl, -⟩ := List.cons.inj htail
  exact ⟨closing, hs, hb⟩

theorem endef?_of_closedBy (hs : rows lines = body ++ closing :: after)
    (h : ClosedBy depth body closing) :
    ∃ count, endef? depth lines = some count ∧ rows (lines.drop (count + 1)) = after := by
  have hrows := (endef?_eq_some hled).2 ⟨body, closing, after, hs, rfl, h⟩
  rw [endef?_rows hl] at hrows
  obtain ⟨count, he, hlen⟩ := Option.map_eq_some_iff.1 hrows
  obtain ⟨closing', hs', -⟩ := closedBy_of_endef? hl hled he
  obtain ⟨-, htail⟩ := List.append_inj (hs'.symm.trans hs) hlen
  obtain ⟨-, hafter⟩ := List.cons.inj htail
  exact ⟨count, he, hafter⟩

theorem endef?_eq_none (h : ∀ body closing after, rows lines = body ++ closing :: after →
    ¬ ClosedBy depth body closing) : endef? depth lines = none := by
  cases he : endef? depth lines with
  | none => rfl
  | some count =>
    obtain ⟨closing, hs, hb⟩ := closedBy_of_endef? hl hled he
    exact absurd hb (h _ _ _ hs)

end Closed

end Rows

end Line

end MakeTree
