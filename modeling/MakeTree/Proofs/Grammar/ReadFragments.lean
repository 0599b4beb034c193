import MakeTree.Proofs.Grammar.Simulation
import MakeTree.Proofs.Nest.Sound

/-!
What comes of going through fragments. Nothing is taken or built, and the outcome is the same
wherever the parser stands (`settled_fragments`). Sound nests have partners for all their brackets,
so they are refused for a line break in an expansion and for nothing else (`fragments_error`), and
where no nest is refused, none breaks the line (`solid_of_fragments_ok`).
-/

namespace MakeTree

/-- The line ends within an expansion of `ns` and may not. -/
inductive Crosses (multiline : Bool) (ns : List Nest) : ParseError → Prop
  | mk {n : Nest} (hm : multiline = false) (hn : n ∈ Nest.flattenAll ns)
      (hl : n.isLineBreak = true) :
      Crosses multiline ns (.unexpectedToken n.token [.token .expansionSuffix])

/-- Why fragments may be refused at all. -/
inductive Unreadable : ParseError → Prop
  /-- the line ends within an expansion -/
  | crossing {n : Nest} (hl : n.isLineBreak = true) :
      Unreadable (.unexpectedToken n.token [.token .expansionSuffix])
  /-- a closer stands by itself -/
  | closer (n : Nest) : Unreadable (.unexpectedToken n.token [.text])
  /-- nothing closes an expansion -/
  | opener : Unreadable (.unexpectedEnd [.token .expansionSuffix])

theorem Crosses.mono {multiline : Bool} {ns ms : List Nest} {e : ParseError}
    (h : Crosses multiline ns e) (hs : Nest.flattenAll ns ⊆ Nest.flattenAll ms) :
    Crosses multiline ms e := by
  obtain ⟨hm, hn, hl⟩ := h
  exact .mk hm (hs hn) hl

namespace Parser

/-- A line break in the nest is the nest. -/
def Solid (n : Nest) : Prop := ∀ m ∈ n.flatten, m.isLineBreak = true → n.isLineBreak = true

theorem not_isLineBreak_of_solid {ns : List Nest} (h : ∀ n ∈ ns, Solid n)
    (hl : ∀ n ∈ ns, n.isLineBreak = false) : ∀ m ∈ Nest.flattenAll ns, m.isLineBreak = false := by
  intro m hm
  obtain ⟨n, hn, hm⟩ := Nest.mem_flattenAll hm
  refine Bool.eq_false_iff.2 fun hb => ?_
  exact absurd ((h n hn m hm hb).symm.trans (hl n hn)) (by decide)

variable {multiline : Bool}

theorem fragment_other {x : Lexeme} (hp : x.token.kind ≠ .expansionPrefix)
    (hs : x.token.kind ≠ .expansionSuffix) (ns : List Nest) :
    fragment multiline (.leaf x :: ns) = pure () := by
  unfold fragment
  split
  · next hk => exact absurd hk hp
  · next hk => exact absurd hk hs
  · rfl

/-- What holds of the steps of going through fragments, and of two such parsers in turn, holds of
going through them: no fragment is looked for where there is none. -/
theorem fragment_induction {C : Parser Unit → Prop} (hpure : C (pure ()))
    (hthen : ∀ {p q}, C p → C q → C (p >>= fun _ => q))
    (hrecord : ∀ x : Lexeme, C (record x.token.inside.frameEvents))
    (hopener : C (failAt [] [.token .expansionSuffix]))
    (hcloser : ∀ n : Nest, n.kind = .expansionSuffix → C (failAt [n] [.text]))
    (hbreak : ∀ n : Nest, n.isLineBreak = true → C (failAt [n] [.token .expansionSuffix])) :
    (∀ ns, ns ≠ [] → C (fragment multiline ns)) ∧
      (∀ count ns, C (fragments multiline count ns)) ∧ ∀ ns, C (bracketed multiline ns) := by
  -- the cases up to the seventh are those of the first nest, the last three those in an expansion
  apply fragment.mutual_induct multiline
  case case1 => exact fun h => absurd rfl h
  case case2 =>
    intro x ns hk ih _
    rw [fragment, hk]
    exact hthen ih hopener
  case case3 =>
    intro x ns hk _
    rw [fragment, hk]
    exact hcloser (.leaf x) hk
  case case4 =>
    intro x ns hp hs _
    rw [fragment_other hp hs]
    exact hpure
  case case5 =>
    intro x inside trailing tail ih _
    rw [fragment]
    exact hthen (hrecord x) ih
  case case6 =>
    intro x tail _
    rw [fragment]
    exact hrecord x
  case case7 =>
    intro opener body closer tail ih _
    rwa [fragment]
  case case8 =>
    intro ns
    rw [fragments]
    exact hpure
  case case9 =>
    intro count
    rw [fragments]
    exact hpure
  case case10 =>
    intro count n ns ih ih'
    rw [fragments]
    exact hthen (ih nofun) ih'
  case case11 =>
    rw [bracketed]
    exact hpure
  case case12 =>
    intro n ns hn
    rw [bracketed, if_pos hn]
    exact hbreak n (Bool.and_eq_true _ _ ▸ hn).1
  case case13 =>
    intro n ns hn ih ih'
    rw [bracketed, if_neg hn]
    exact hthen (ih nofun) ih'

/-- Wherever the parser stands, the outcome is the same, and nothing is taken or built. -/
inductive Settled (p : Parser Unit) : Prop
  | ok (es : List Event) (h : ∀ c : Cursor, p c = .ok () { c with events := c.events ++ es })
  | error (e : ParseError) (es : List Event)
      (h : ∀ c : Cursor, p c = .error e { c with events := c.events ++ es })

theorem Settled.then {p q : Parser Unit} (hp : Settled p) (hq : Settled q) :
    Settled (p >>= fun _ => q) := by
  cases hp with
  | error e es hp =>
    refine .error e es fun c => ?_
    show EStateM.bind p _ c = _
    rw [EStateM.bind, hp]
  | ok es hp =>
    have step (c : Cursor) : (p >>= fun _ => q) c = q { c with events := c.events ++ es } := by
      show EStateM.bind p _ c = _
      rw [EStateM.bind, hp]
    cases hq with
    | ok es' hq => exact .ok (es ++ es') fun c => by rw [step, hq, List.append_assoc]
    | error e es' hq => exact .error e (es ++ es') fun c => by rw [step, hq, List.append_assoc]

theorem Settled.succeeds {p : Parser Unit} (h : Settled p) (hp : ∀ c e s, p c ≠ .error e s) :
    ∃ es, ∀ c : Cursor, p c = .ok () { c with events := c.events ++ es } := by
  cases h with
  | ok es h => exact ⟨es, h⟩
  | error e es h => exact absurd (h ⟨[], [], []⟩) (hp _ _ _)

theorem settled_failAt (ns : List Nest) (expected : List Expected) :
    Settled (failAt ns expected) := by
  cases ns with
  | nil => exact .error (.unexpectedEnd expected) [] fun c => by rw [List.append_nil]; rfl
  | cons n ns =>
    exact .error (.unexpectedToken n.token expected) [] fun c => by rw [List.append_nil]; rfl

theorem settled_fragments (multiline : Bool) (count : Nat) (ns : List Nest) :
    Settled (fragments multiline count ns) :=
  (fragment_induction (.ok [] fun c => by rw [List.append_nil]; rfl) Settled.then
    (fun _ => .ok _ fun _ => rfl) (settled_failAt _ _) (fun _ _ => settled_failAt _ _)
    fun _ _ => settled_failAt _ _).2.1 count ns

theorem unreadable_of_fragments {count : Nat} {ns : List Nest} {c s : Cursor} {e : ParseError}
    (h : fragments multiline count ns c = .error e s) : Unreadable e := by
  refine (fragment_induction (C := fun p => ∀ c e s, p c = .error e s → Unreadable e)
    ?_ ?_ ?_ ?_ ?_ ?_).2.1 count ns c e s h
  · rintro c e s ⟨⟩
  · intro p q hp hq c e s h
    obtain h | ⟨_, _, -, h⟩ := bind_error h
    · exact hp _ _ _ h
    · exact hq _ _ _ h
  · rintro x c e s ⟨⟩
  · rintro c e s ⟨⟩
    exact .opener
  · rintro n hn c e s ⟨⟩
    exact .closer n
  · rintro n hn c e s ⟨⟩
    exact .crossing hn

/-- Sound nests are refused for a line break in an expansion only. -/
def CrossesOnly (multiline : Bool) (ns : List Nest) (p : Parser Unit) : Prop :=
  Nest.SoundAll ns → ∀ c e s, p c = .error e s → Crosses multiline ns e

theorem crossesOnly_fragments :
    (∀ ns, ns ≠ [] → CrossesOnly multiline ns (fragment multiline ns)) ∧
      (∀ count ns, CrossesOnly multiline ns (fragments multiline count ns)) ∧
      ∀ ns, CrossesOnly multiline ns (bracketed multiline ns) := by
  have left {n : Nest} {ns : List Nest} : n.flatten ⊆ Nest.flattenAll (n :: ns) :=
    List.subset_append_left _ _
  have right {n : Nest} {ns : List Nest} : Nest.flattenAll ns ⊆ Nest.flattenAll (n :: ns) :=
    List.subset_append_right _ _
  apply fragment.mutual_induct multiline
  case case1 => exact fun h => absurd rfl h
  case case2 =>
    intro x ns hk _ _ hs
    exact absurd hk hs.1.2.1
  case case3 =>
    intro x ns hk _ hs
    exact absurd hk hs.1.2.2.1
  case case4 =>
    intro x ns hp hq _ _ c e s h
    rw [fragment_other hp hq] at h
    cases h
  case case5 =>
    -- inside of a literal there is no line break to cross
    intro x inside trailing tail ih _ hs c e s h
    rw [fragment] at h
    obtain h | ⟨_, _, -, h⟩ := bind_error h
    · cases h
    · obtain ⟨-, hn, hl⟩ := ih hs.1.2.2.1 _ _ _ h
      have hb := Nest.not_isLineBreak_of_unbroken hs.1.2.2.1 hs.1.2.2.2 _ hn
      exact absurd (hl.symm.trans hb) (by decide)
  case case6 =>
    intro x tail _ _ c e s h
    rw [fragment] at h
    cases h
  case case7 =>
    intro opener body closer tail ih _ hs c e s h
    rw [fragment] at h
    refine (ih hs.1.2.2.1 _ _ _ h).mono (List.Subset.trans (fun m hm => ?_) left)
    exact List.mem_cons_of_mem _ (List.mem_append_left _ hm)
  case case8 =>
    intro ns _ c e s h
    rw [fragments] at h
    cases h
  case case9 =>
    intro count _ c e s h
    rw [fragments] at h
    cases h
  case case10 =>
    intro count n ns ih ih' hs c e s h
    rw [fragments] at h
    obtain h | ⟨_, _, -, h⟩ := bind_error h
    · exact ih nofun hs _ _ _ h
    · exact (ih' hs.2 _ _ _ h).mono right
  case case11 =>
    intro _ c e s h
    rw [bracketed] at h
    cases h
  case case12 =>
    intro n ns hn hs c e s h
    rw [bracketed, if_pos hn] at h
    cases h
    rw [Bool.and_eq_true, Bool.not_eq_true'] at hn
    obtain ⟨hl, hm⟩ := hn
    refine .mk hm (left ?_) hl
    rw [Nest.flatten_eq_of_closed hs.1.closed fun hk => by simp [Nest.isLineBreak, hk] at hl]
    exact List.mem_singleton.2 rfl
  case case13 =>
    intro n ns hn ih ih' hs c e s h
    rw [bracketed, if_neg hn] at h
    obtain h | ⟨_, _, -, h⟩ := bind_error h
    · exact ih nofun hs _ _ _ h
    · exact (ih' hs.2 _ _ _ h).mono right

theorem solid_of_fragments :
    (∀ ns c s, fragment false ns c = .ok () s → ∀ n ∈ ns.head?, n.Closed → Solid n) ∧
      (∀ count ns c s, fragments false count ns c = .ok () s →
        ∀ n ∈ ns.take count, n.Closed → Solid n) ∧
      ∀ ns c s, bracketed false ns c = .ok () s →
        ∀ n ∈ ns, n.isLineBreak = false ∧ (n.Closed → Solid n) := by
  have alone {n : Nest} (h : n.flatten = [n]) : n.Closed → Solid n := by
    intro _ m hm hl
    rw [h] at hm
    exact List.mem_singleton.1 hm ▸ hl
  apply fragment.mutual_induct false
  case case1 => exact fun _ _ _ _ hn => nomatch hn
  case case2 =>
    intro x ns _ _ c s h n hn
    obtain rfl := Option.some.inj hn
    exact alone rfl
  case case3 =>
    intro x ns _ c s h n hn
    obtain rfl := Option.some.inj hn
    exact alone rfl
  case case4 =>
    intro x ns _ _ c s h n hn
    obtain rfl := Option.some.inj hn
    exact alone rfl
  case case5 =>
    intro x inside trailing tail _ c s h n hn
    obtain rfl := Option.some.inj hn
    exact alone rfl
  case case6 =>
    intro x tail c s h n hn
    obtain rfl := Option.some.inj hn
    exact alone rfl
  case case7 =>
    intro opener body closer tail ih c s h n hn hc m hm hl
    obtain rfl := Option.some.inj hn
    rw [fragment] at h
    have hbody := ih c s h
    rw [Nest.flatten, List.mem_cons, List.mem_append, List.mem_singleton] at hm
    rcases hm with rfl | hm | rfl
    · exact hl
    · have hsolid (n : Nest) (hn : n ∈ body) : Solid n :=
        (hbody n hn).2 (hc.2.1.mem hn)
      have hb := not_isLineBreak_of_solid hsolid (fun n hn => (hbody n hn).1) m hm
      exact absurd (hl.symm.trans hb) (by decide)
    · simp [Nest.isLineBreak, Nest.kind, Nest.token, Nest.first, hc.2.2] at hl
  case case8 =>
    intro ns c s _ n hn
    rw [List.take_zero] at hn
    cases hn
  case case9 =>
    intro count c s _ n hn
    rw [List.take_nil] at hn
    cases hn
  case case10 =>
    intro count n ns ih ih' c s h m hm
    rw [fragments] at h
    obtain ⟨_, s', h₁, h₂⟩ := bind_ok h
    rw [List.take_succ_cons, List.mem_cons] at hm
    rcases hm with rfl | hm
    · exact ih c s' h₁ _ rfl
    · exact ih' s' s h₂ m hm
  case case11 => exact fun _ _ _ _ hn => nomatch hn
  case case12 =>
    intro n ns hn c s h
    rw [bracketed, if_pos hn] at h
    cases h
  case case13 =>
    intro n ns hn ih ih' c s h m hm
    rw [bracketed, if_neg hn] at h
    obtain ⟨_, s', h₁, h₂⟩ := bind_ok h
    rcases List.mem_cons.1 hm with rfl | hm
    · exact ⟨by simpa using hn, ih c s' h₁ _ rfl⟩
    · exact ih' s' s h₂ m hm

section Outcome

variable {count : Nat} {ns : List Nest} {c s : Cursor}

theorem fragments_ok {a : Unit} (h : fragments multiline count ns c = .ok a s) :
    s.unread = c.unread ∧ s.built = c.built := by
  cases settled_fragments multiline count ns with
  | ok es hp =>
    rw [hp] at h
    cases h
    exact ⟨rfl, rfl⟩
  | error e es hp =>
    rw [hp] at h
    cases h

theorem fragments_error {e : ParseError} (hs : Nest.SoundAll ns)
    (h : fragments multiline count ns c = .error e s) : Crosses multiline ns e :=
  crossesOnly_fragments.2.1 count ns hs c e s h

/-- Where expansions may take several lines, sound nests are never refused. -/
theorem fragments_of_sound (hs : Nest.SoundAll ns) (count : Nat) :
    ∃ es, ∀ c : Cursor, fragments true count ns c = .ok () { c with events := c.events ++ es } := by
  refine (settled_fragments true count ns).succeeds fun c e s h => ?_
  obtain ⟨hm, -, -⟩ := fragments_error hs h
  cases hm

theorem fragments_of_unbroken (hs : Nest.SoundAll ns) (hu : Nest.UnbrokenAll ns) (count : Nat) :
    ∃ es, ∀ c : Cursor,
      fragments multiline count ns c = .ok () { c with events := c.events ++ es } := by
  refine (settled_fragments multiline count ns).succeeds fun c e s h => ?_
  obtain ⟨-, hn, hl⟩ := fragments_error hs h
  have hb := Nest.not_isLineBreak_of_unbroken hs hu _ hn
  exact absurd (hl.symm.trans hb) (by decide)

/-- Where none is refused, none breaks the line. -/
theorem solid_of_fragments_ok {a : Unit} (h : fragments false count ns c = .ok a s) :
    ∀ n ∈ ns.take count, n.Closed → Solid n :=
  solid_of_fragments.2.1 count ns c s h

end Outcome

end Parser

end MakeTree
