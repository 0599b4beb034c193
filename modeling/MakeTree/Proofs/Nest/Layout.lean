import MakeTree.Proofs.Nest.Bracketed
import MakeTree.Proofs.Nest.Levels
import MakeTree.Proofs.TokenFidelity

/-!
What stands between the brackets of an expansion. Given which tokens are its own, those that no
bracket within it holds, the name ends at its first blank and its commas separate the arguments
(`layout_call`).
-/

namespace MakeTree

/-- The trees are the leaves of tokens, each behind what was passed over, the first of all at the
offset. -/
def Tree.Bears (start : Nat) (ts : List Tree) (tokens : List Token) : Prop :=
  ∃ xs : List Lexeme, ts = xs.flatMap Lexeme.leaves ∧ xs.map Lexeme.token = tokens ∧
    Lexeme.Seated start xs

/-- The trees are arguments, an expression each, with commas between them, one between two. -/
inductive Separated : Nat → List Tree → List Token → List Token → Prop
  | single {start : Nat} {ts : List Tree} {tokens : List Token}
      (h : Accounts .expression start ts tokens) : Separated start [.node .expression ts] tokens []
  | comma {start : Nat} {ts us vs : List Tree} {tokens tokens' commas : List Token} {w : Token}
      (h : Accounts .expression start ts tokens)
      (hu : Tree.Bears (start + (Tree.textOf ts).byteSize) us [w]) (hw : w.kind = .comma)
      (hv : Separated (start + (Tree.textOf ts).byteSize + (Tree.textOf us).byteSize) vs tokens'
        commas) :
      Separated start (.node .expression ts :: (us ++ vs)) (tokens ++ w :: tokens') (w :: commas)

/-- The tokens between the brackets of an expansion. Those behind the blanks are the arguments with
the commas that separate them. -/
structure Call where
  name : List Token
  blanks : List Token
  arguments : List Token
  commas : List Token

namespace Call

def tokens (c : Call) : List Token := c.name ++ (c.blanks ++ c.arguments)

/-- The trees that the parts make, the name at the offset. -/
structure Makes (c : Call) (start : Nat) (us bs as : List Tree) : Prop where
  name : Accounts .expression start us c.name
  blanks : Tree.Bears (start + (Tree.textOf us).byteSize) bs c.blanks
  arguments : c.arguments = [] ∧ c.commas = [] ∧ as = [] ∨ c.arguments ≠ [] ∧
    Separated (start + (Tree.textOf us).byteSize + (Tree.textOf bs).byteSize) as c.arguments
      c.commas

/-- Where the name ends and what separates the arguments, by which tokens are the expansion's own.
Behind the parts there are the closer and further tokens. -/
structure Divides (c : Call) (own : Token → Prop) (closer : Token) (after : List Token) : Prop where
  name : ∀ t ∈ c.name, own t → t.kind ≠ .whitespace ∧ t.kind ≠ .expansionSuffix
  stop : ∀ t ∈ (c.blanks ++ (c.arguments ++ [closer])).head?,
    own t ∧ (t.kind = .whitespace ∨ t.kind = .expansionSuffix)
  blanks : ∀ t ∈ c.blanks, t.kind = .whitespace
  arguments : ∀ t ∈ c.arguments.head?, t.kind ≠ .whitespace
  commas : ∀ t ∈ c.blanks ++ (c.arguments ++ closer :: after),
    t ∈ c.commas ↔ t.kind = .comma ∧ own t

end Call

namespace Tree.Bears

variable {start : Nat} {ts : List Tree} {tokens : List Token}

theorem lexeme {x : Lexeme} (h : x.Stands start) : Bears start x.leaves [x.token] :=
  ⟨[x], (List.flatMap_singleton ..).symm, rfl, h, trivial⟩

theorem nodesOf (h : Bears start ts tokens) : Tree.nodesOf ts = [] := by
  obtain ⟨xs, rfl, -, -⟩ := h
  induction xs with
  | nil => rfl
  | cons x xs ih => rw [List.flatMap_cons, nodesOf_append, nodesOf_leaves, ih, List.append_nil]

end Tree.Bears

namespace Nest

open MakeTree.Tree

variable {P : Token → Prop} {depth start : Nat} {n : Nest} {ns : List Nest} {xs : List Lexeme}

theorem eq_of_separator (hc : n.Closed) (hk : n.kind = .whitespace ∨ n.kind = .comma)
    (hx : xs.map ofLexeme = n.flatten) : xs = [n.first] ∧ n.trees = n.first.leaves := by
  cases n with
  | leaf x =>
    have hr : x.isReference = false := by
      have hne : x.token.kind ≠ .varRef := by
        intro hv
        rcases hk with hk | hk <;> exact absurd (hv.symm.trans hk) (by decide)
      simp [Lexeme.isReference, hne]
    obtain ⟨y, rfl, hy⟩ := map_ofLexeme_eq_singleton hx.symm
    obtain ⟨rfl, -⟩ := ofLexeme_eq_leaf hy
    exact ⟨rfl, by rw [trees, Lexeme.trees, hr]; rfl⟩
  | quoted x inside trailing =>
    rcases hk with hk | hk <;> exact absurd (hc.symm.trans hk) (by decide)
  | raw x => rcases hk with hk | hk <;> exact absurd (hc.symm.trans hk) (by decide)
  | expansion opener body closer =>
    rcases hk with hk | hk <;> exact absurd (hc.1.symm.trans hk) (by decide)

theorem parts_eq (ns : List Nest) : parts ns = ns.map fun n => ⟨.ofToken n.token, n.trees⟩ := by
  induction ns with
  | nil => rfl
  | cons n ns ih => rw [parts, ih, List.map_cons]

theorem bears_blanks (hc : ClosedAll ns) (hk : ∀ n ∈ ns, n.kind = .whitespace)
    (hx : xs.map ofLexeme = flattenAll ns) (hs : Lexeme.Seated start xs) :
    Bears start (treesOf ns) (xs.map Lexeme.token) ∧
      ∀ t ∈ xs.map Lexeme.token, t.kind = .whitespace := by
  suffices h : treesOf ns = xs.flatMap Lexeme.leaves ∧
      ∀ t ∈ xs.map Lexeme.token, t.kind = .whitespace from ⟨⟨xs, h.1, rfl, hs⟩, h.2⟩
  clear hs
  induction ns generalizing xs with
  | nil =>
    obtain rfl := List.map_eq_nil_iff.1 hx
    exact ⟨rfl, by simp⟩
  | cons n ns ih =>
    obtain ⟨ys, zs, rfl, hy, hz⟩ := List.map_eq_append_iff.1 hx
    have hn := hk n List.mem_cons_self
    obtain ⟨rfl, ht⟩ := eq_of_separator hc.1 (.inl hn) hy
    obtain ⟨htrees, hkinds⟩ := ih hc.2 (fun m hm => hk m (List.mem_cons_of_mem n hm)) hz
    constructor
    · show n.trees ++ treesOf ns = _
      rw [ht, htrees, List.flatMap_append, List.flatMap_singleton]
    · intro t hm
      rcases List.mem_cons.1 hm with rfl | hm
      · exact hn
      · exact hkinds t hm

theorem Counted.eq_of_mem (h : Counted P depth (n :: ns)) (hx : xs.map ofLexeme = n.flatten)
    {t : Token} (ht : t ∈ xs.map Lexeme.token) (hp : P t) : t = n.token ∧ depth = 0 := by
  obtain ⟨x, hm, rfl⟩ := List.mem_map.1 ht
  obtain ⟨m, hfirst, hn⟩ := n.flatten_eq_cons
  have hmem : ofLexeme x ∈ n.flatten := hx ▸ List.mem_map_of_mem hm
  have htoken : (ofLexeme x).token = x.token := by rw [token, first_ofLexeme]
  rw [hn] at hmem
  rcases List.mem_cons.1 hmem with he | hmem
  · have ht : x.token = n.token := by rw [hfirst, ← he, htoken]
    exact ⟨ht, h.1.1 (ht ▸ hp)⟩
  · exact absurd (htoken.symm ▸ hp) (h.2.1 _ hmem)

theorem separated_arguments (hc : ClosedAll ns) (hp : Counted P depth ns) {argument : List Tree}
    {tokens : List Token} (ha : Accounts .expression start argument tokens)
    (hx : xs.map ofLexeme = flattenAll ns)
    (hs : Lexeme.Seated (start + (Tree.textOf argument).byteSize) xs) : ∃ commas : List Token,
      Separated start (Part.arguments depth argument (parts ns)) (tokens ++ xs.map Lexeme.token)
        commas ∧
      ∀ t, t ∈ commas ↔ t ∈ xs.map Lexeme.token ∧ t.kind = .comma ∧ P t := by
  induction ns generalizing depth start argument tokens xs with
  | nil =>
    obtain rfl := List.map_eq_nil_iff.1 hx
    rw [List.map_nil, List.append_nil]
    exact ⟨[], .single ha, by simp⟩
  | cons n ns ih =>
    obtain ⟨ys, zs, rfl, ⟨hy, h₁⟩, hz, h₂⟩ := Lexeme.seated_split hx hs
    rw [parts, Part.arguments]
    by_cases hcomma : Mark.ofToken n.token = .comma ∧ depth = 0
    · obtain ⟨hm, rfl⟩ := hcomma
      have hk := Mark.ofToken_comma.1 hm
      obtain ⟨rfl, ht⟩ := eq_of_separator hc.1 (.inr hk) hy
      have hd : (Mark.ofToken n.token).depth 0 = 0 := by
        rw [hm]
        rfl
      have hpn := hp.1.2 rfl
      have hp' := hp.2.2
      rw [hd] at hp'
      have hb := Bears.lexeme h₁.1
      have h₂' : Lexeme.Seated (start + (Tree.textOf argument).byteSize +
          (Tree.textOf n.first.leaves).byteSize + (Tree.textOf []).byteSize) zs := by
        rw [Lexeme.textOf_leaves]
        simpa [Lexeme.textOf, Tree.textOf, Text.byteSize] using h₂
      obtain ⟨commas, hsep, hall⟩ := ih hc.2 hp' .nil hz h₂'
      refine ⟨n.first.token :: commas, ?_, fun t => ?_⟩
      · rw [if_pos ⟨hm, rfl⟩]
        show Separated start (.node .expression argument :: (n.trees ++ _)) _ _
        rw [ht]
        exact .comma ha hb hk hsep
      · rw [List.mem_cons, hall, List.map_append, List.mem_append, List.map_singleton,
          List.mem_singleton]
        constructor
        · intro h
          rcases h with rfl | h
          · exact ⟨.inl rfl, hk, hpn⟩
          · exact ⟨.inr h.1, h.2⟩
        · intro h
          exact h.1.imp_right fun hm => ⟨hm, h.2⟩
    · have hr : Reading (fun _ => True) .expression n.flatten n.trees :=
        reading_trees trivial trivial n (by decide)
      have ht : Tree.textOf n.trees = Lexeme.textOf ys := hr.text hy.symm h₁
      have hseat : Lexeme.Seated (start + (Tree.textOf (argument ++ n.trees)).byteSize) zs := by
        rwa [Tree.textOf_append, ht, Text.byteSize_append, ← Nat.add_assoc]
      obtain ⟨commas, hsep, hall⟩ := ih hc.2 hp.2.2 (ha.append (hr.accounts hy.symm h₁)) hz hseat
      rw [if_neg hcomma, List.map_append, ← List.append_assoc]
      refine ⟨commas, hsep, fun t => ?_⟩
      rw [hall, List.mem_append]
      constructor
      · exact fun h => ⟨.inr h.1, h.2⟩
      · intro h
        refine ⟨h.1.resolve_left fun hm => hcomma ?_, h.2⟩
        obtain ⟨rfl, hd⟩ := hp.eq_of_mem hy hm h.2.2
        exact ⟨Mark.ofToken_comma.2 h.2.1, hd⟩

theorem kind_ne_suffix (hc : n.Closed) : n.token.kind ≠ .expansionSuffix := by
  intro hk
  cases n with
  | leaf x => exact hc.2 hk
  | quoted x inside trailing => exact absurd (hk.symm.trans hc) (by decide)
  | raw x => exact absurd (hk.symm.trans hc) (by decide)
  | expansion opener body closer => exact absurd (hk.symm.trans hc.1) (by decide)

theorem splitName_parts (hc : ClosedAll ns) (hp : Counted P depth ns) : ∃ ms ms', ns = ms ++ ms' ∧
    Part.splitName depth (parts ns) = (parts ms, parts ms') ∧ Counted P 0 ms' ∧
    (∀ n ∈ ms'.head?, n.kind = .whitespace ∧ P n.token) ∧
    ∀ ys : List Lexeme, ys.map ofLexeme = flattenAll ms →
      ∀ t ∈ ys.map Lexeme.token, P t → t.kind ≠ .whitespace ∧ t.kind ≠ .expansionSuffix := by
  induction ns generalizing depth with
  | nil =>
    refine ⟨[], [], rfl, rfl, trivial, by simp, fun ys hy => ?_⟩
    obtain rfl := List.map_eq_nil_iff.1 hy
    simp
  | cons n ns ih =>
    rw [parts, Part.splitName]
    by_cases hb : Mark.ofToken n.token = .blank ∧ depth = 0
    · obtain ⟨hm, rfl⟩ := hb
      refine ⟨[], n :: ns, rfl, if_pos ⟨hm, rfl⟩, hp, fun m hmem => ?_, fun ys hy => ?_⟩
      · obtain rfl := Option.some.inj hmem
        exact ⟨Mark.ofToken_whitespace.1 hm, hp.1.2 rfl⟩
      · obtain rfl := List.map_eq_nil_iff.1 hy
        simp
    · obtain ⟨ms, ms', rfl, hsplit, hp', hhead, hname⟩ := ih hc.2 hp.2.2
      refine ⟨n :: ms, ms', rfl, ?_, hp', hhead, fun ys hy t ht hP => ?_⟩
      · rw [if_neg hb, hsplit]
        rfl
      · obtain ⟨ys, zs, rfl, hy, hz⟩ := List.map_eq_append_iff.1 hy
        rw [List.map_append] at ht
        rcases List.mem_append.1 ht with ht | ht
        · obtain ⟨rfl, hd⟩ := hp.eq_of_mem hy ht hP
          exact ⟨fun hk => hb ⟨Mark.ofToken_whitespace.2 hk, hd⟩, kind_ne_suffix hc.1⟩
        · exact hname zs hz t ht hP

theorem Counted.dropWhile (h : Counted P 0 ns) : Counted P 0 (ns.dropWhile isWhitespace) := by
  induction ns with
  | nil => trivial
  | cons n ns ih =>
    by_cases hn : n.isWhitespace = true
    · have hm : Mark.ofToken n.token = .blank := by
        rw [Mark.ofToken_whitespace]
        exact beq_iff_eq.1 hn
      have hrest := h.2.2
      rw [hm] at hrest
      rw [List.dropWhile_cons_of_pos hn]
      exact ih hrest
    · rwa [List.dropWhile_cons_of_neg hn]

theorem head?_tokens (hx : xs.map ofLexeme = flattenAll ns) :
    (xs.map Lexeme.token).head? = ns.head?.map token := by
  rw [← map_token_ofLexeme, hx]
  cases ns with
  | nil => rfl
  | cons n ns =>
    obtain ⟨m, hm, hf⟩ := n.flatten_eq_cons
    rw [flattenAll, hf, List.head?_cons, Option.map_some, hm]
    rfl

theorem layout_eq {ms ms' : List Nest}
    (h : Part.splitName 0 (parts ns) = (parts ms, parts ms')) :
    Part.layout (parts ns) = .node .expression (treesOf ms) ::
      (treesOf (ms'.takeWhile isWhitespace) ++
        if (ms'.dropWhile isWhitespace).isEmpty then []
        else Part.arguments 0 [] (parts (ms'.dropWhile isWhitespace))) := by
  have hmark : (fun p : Part => p.mark == .blank) ∘
      (fun n : Nest => (⟨.ofToken n.token, n.trees⟩ : Part)) = isWhitespace := by
    funext n
    have hb := Mark.ofToken_whitespace (t := n.token)
    rw [Bool.eq_iff_iff, Function.comp, beq_iff_eq, hb, isWhitespace, beq_iff_eq]
    rfl
  have htake : (parts ms').takeWhile (·.mark == .blank) = parts (ms'.takeWhile isWhitespace) := by
    rw [parts_eq, parts_eq, List.takeWhile_map, hmark]
  have hdrop : (parts ms').drop (parts (ms'.takeWhile isWhitespace)).length =
      parts (ms'.dropWhile isWhitespace) := by
    have hsplit : parts ms' =
        parts (ms'.takeWhile isWhitespace) ++ parts (ms'.dropWhile isWhitespace) := by
      rw [parts_eq, parts_eq, parts_eq, ← List.map_append, List.takeWhile_append_dropWhile]
    rw [hsplit, List.drop_left]
  rw [Part.layout, h]
  simp only [htake, hdrop]
  rw [treesOf, treesOf, parts_eq (ms'.dropWhile _), List.isEmpty_map]

theorem separated_rest (hc : ClosedAll ns) (hp : Counted P 0 ns)
    (hx : xs.map ofLexeme = flattenAll ns) (hs : Lexeme.Seated start xs) : ∃ commas : List Token,
      (xs.map Lexeme.token = [] ∧ commas = [] ∧
          (if ns.isEmpty then [] else Part.arguments 0 [] (parts ns)) = [] ∨
        xs.map Lexeme.token ≠ [] ∧
          Separated start (if ns.isEmpty then [] else Part.arguments 0 [] (parts ns))
            (xs.map Lexeme.token) commas) ∧
      ∀ t, t ∈ commas ↔ t ∈ xs.map Lexeme.token ∧ t.kind = .comma ∧ P t := by
  by_cases hn : ns = []
  · subst hn
    obtain rfl := List.map_eq_nil_iff.1 hx
    exact ⟨[], .inl ⟨rfl, rfl, rfl⟩, by simp⟩
  · have he : ns.isEmpty = false := List.isEmpty_eq_false_iff.2 hn
    have hne : xs.map Lexeme.token ≠ [] := by
      intro hnil
      have hh := head?_tokens hx
      rw [hnil, List.head?_nil, eq_comm, Option.map_eq_none_iff, List.head?_eq_none_iff] at hh
      exact hn hh
    obtain ⟨commas, hsep, hall⟩ := separated_arguments hc hp .nil hx hs
    exact ⟨commas, .inr ⟨hne, by simpa [he] using hsep⟩, hall⟩

theorem stop_of_head {closer : Token} (hx : xs.map ofLexeme = flattenAll ns)
    (hhead : ∀ n ∈ ns.head?, n.kind = .whitespace ∧ P n.token) (hk : closer.kind = .expansionSuffix)
    (hclose : P closer) : ∀ t ∈ (xs.map Lexeme.token ++ [closer]).head?,
      P t ∧ (t.kind = .whitespace ∨ t.kind = .expansionSuffix) := by
  intro t ht
  rw [List.head?_append, head?_tokens hx] at ht
  cases ns with
  | nil =>
    obtain rfl := Option.some.inj ht
    exact ⟨hclose, .inr hk⟩
  | cons n ns =>
    obtain rfl := Option.some.inj ht
    obtain ⟨hn, hP⟩ := hhead n rfl
    exact ⟨hP, .inl hn⟩

theorem head_ne_whitespace (hx : xs.map ofLexeme = flattenAll (ns.dropWhile isWhitespace)) :
    ∀ t ∈ (xs.map Lexeme.token).head?, t.kind ≠ .whitespace := by
  intro t ht hw
  rw [head?_tokens hx] at ht
  obtain ⟨n, hn, rfl⟩ := Option.map_eq_some_iff.1 ht
  have hno := List.head?_dropWhile_not isWhitespace ns
  rw [hn] at hno
  simp [isWhitespace, kind, hw] at hno

/-- The trees between the brackets, given which tokens are the expansion's own. -/
theorem layout_call (hc : ClosedAll ns) (hp : Counted P 0 ns) (hx : xs.map ofLexeme = flattenAll ns)
    (hs : Lexeme.Seated start xs) {closer : Token} (hk : closer.kind = .expansionSuffix)
    (hclose : P closer) {after : List Token} (hafter : ∀ t ∈ after, ¬ P t) :
    ∃ (c : Call) (us bs as : List Tree), c.tokens = xs.map Lexeme.token ∧
      Part.layout (parts ns) = .node .expression us :: (bs ++ as) ∧
      c.Makes start us bs as ∧ c.Divides P closer after := by
  obtain ⟨ms, rest, rfl, hsplit, hp', hhead, hname⟩ := splitName_parts hc hp
  rw [flattenAll_append] at hx
  obtain ⟨ys, zs, rfl, ⟨hyx, hys⟩, hzx, hzs⟩ := Lexeme.seated_split hx hs
  -- what follows the name is cut behind its blanks
  have hcut := List.takeWhile_append_dropWhile (p := isWhitespace) (l := rest)
  have hzx' := hzx
  rw [← hcut, flattenAll_append] at hzx'
  obtain ⟨ws, vs, rfl, ⟨hwx, hws⟩, hvx, hvs⟩ := Lexeme.seated_split hzx' hzs
  have hcr := (closedAll_append.1 hc).2
  rw [← hcut] at hcr
  obtain ⟨hcb, hca⟩ := closedAll_append.1 hcr
  have hblank : ∀ n ∈ rest.takeWhile isWhitespace, n.kind = .whitespace := fun n hm => by
    simpa [isWhitespace] using List.mem_takeWhile_imp hm
  obtain ⟨hbears, hwhite⟩ := bears_blanks hcb hblank hwx hws
  obtain ⟨commas, hsep, hall⟩ := separated_rest hca hp'.dropWhile hvx hvs
  have hr := reading_treesOf (P := fun _ => True) trivial trivial ms (k := .expression) (by decide)
  have htu : Tree.textOf (treesOf ms) = Lexeme.textOf ys := hr.text hyx.symm hys
  have htb : Tree.textOf (treesOf (rest.takeWhile isWhitespace)) = Lexeme.textOf ws :=
    textOf_treesOf hwx hws
  refine ⟨⟨ys.map Lexeme.token, ws.map Lexeme.token, vs.map Lexeme.token, commas⟩, _, _, _, ?_,
    layout_eq hsplit, ?_, ?_⟩
  · rw [Call.tokens, List.map_append, List.map_append]
  · refine ⟨hr.accounts hyx.symm hys, ?_, ?_⟩
    · rwa [htu]
    · rwa [htu, htb]
  · have hstop := stop_of_head hzx hhead hk hclose
    rw [List.map_append, List.append_assoc] at hstop
    refine ⟨hname ys hyx, hstop, hwhite, head_ne_whitespace hvx, fun t ht => ?_⟩
    constructor
    · exact fun h => ((hall t).1 h).2
    · intro h
      obtain ⟨hcomma, hown⟩ := h
      rcases List.mem_append.1 ht with ht | ht
      · exact absurd ((hwhite t ht).symm.trans hcomma) (by decide)
      rcases List.mem_append.1 ht with ht | ht
      · exact (hall t).2 ⟨ht, hcomma, hown⟩
      rcases List.mem_cons.1 ht with rfl | ht
      · exact absurd (hk.symm.trans hcomma) (by decide)
      · exact absurd hown (hafter t ht)

end Nest

end MakeTree
