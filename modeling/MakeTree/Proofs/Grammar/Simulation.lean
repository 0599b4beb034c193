import MakeTree.Proofs.Grammar.Blind

/-!
Two runs of one parser. `Sim ρ V p q` says that `p` and `q` do the same on lines that are alike,
whatever each has built before: both fail, at tokens that are alike, or both succeed with values
related by `V`, have built trees that are alike and leave nests that are alike.
-/

namespace MakeTree

/-- The same error at tokens that are alike. -/
inductive ParseError.Corresponds (ρ : Likeness) : ParseError → ParseError → Prop
  | token {t u : Token} (h : ρ.token t u) (expected : List Expected) :
      Corresponds ρ (.unexpectedToken t expected) (.unexpectedToken u expected)
  | atEnd (expected : List Expected) :
      Corresponds ρ (.unexpectedEnd expected) (.unexpectedEnd expected)

namespace Parser

variable {α β γ δ : Type}

/-- Corresponding results of parsers that started with `outer` and `outer'` built. -/
inductive Agree (ρ : Likeness) (V : α → β → Prop) (outer outer' : List Tree) :
    EStateM.Result ParseError Cursor α → EStateM.Result ParseError Cursor β → Prop
  | ok {a : α} {b : β} {ns ms : List Nest} {ts us : List Tree} {es es' : List Event}
      (hv : V a b) (hr : ρ.Row ns ms) (ht : ρ.forest ts us) : Agree ρ V outer outer'
        (.ok a ⟨ns, outer ++ ts, es⟩) (.ok b ⟨ms, outer' ++ us, es'⟩)
  | error {e e' : ParseError} {s s' : Cursor} (h : e.Corresponds ρ e') :
      Agree ρ V outer outer' (.error e s) (.error e' s')

/-- What two parsers do in front of `ns` and `ms`. -/
def SimAt (ρ : Likeness) (V : α → β → Prop) (p : Parser α) (q : Parser β)
    (ns ms : List Nest) : Prop :=
  ∀ ts us es es', Agree ρ V ts us (p ⟨ns, ts, es⟩) (q ⟨ms, us, es'⟩)

def Sim (ρ : Likeness) (V : α → β → Prop) (p : Parser α) (q : Parser β) : Prop :=
  ∀ ns ms, ρ.Row ns ms → SimAt ρ V p q ns ms

variable {ρ : Likeness} {V : α → β → Prop} {W : γ → δ → Prop}

theorem Agree.same {a : α} {b : β} {ns ms : List Nest} {ts us : List Tree} {es es' : List Event}
    (hv : V a b) (hr : ρ.Row ns ms) :
    Agree ρ V ts us (.ok a ⟨ns, ts, es⟩) (.ok b ⟨ms, us, es'⟩) := by
  have h : Agree ρ V ts us (.ok a ⟨ns, ts ++ [], es⟩) (.ok b ⟨ms, us ++ [], es'⟩) :=
    .ok hv hr ρ.nil
  rwa [List.append_nil, List.append_nil] at h

theorem sim_pure {a : α} {b : β} (h : V a b) : Sim ρ V (pure a) (pure b) :=
  fun _ _ hr _ _ _ _ => .same h hr

theorem Agree.outer {ts ts' us us' : List Tree} {r : EStateM.Result ParseError Cursor α}
    {r' : EStateM.Result ParseError Cursor β} (h : Agree ρ V (ts ++ ts') (us ++ us') r r')
    (ht : ρ.forest ts' us') : Agree ρ V ts us r r' := by
  cases h with
  | ok hv hr ht' =>
    rw [List.append_assoc, List.append_assoc]
    exact .ok hv hr (ρ.append ht ht')
  | error he => exact .error he

theorem SimAt.bind {p : Parser α} {q : Parser β} {f : α → Parser γ} {g : β → Parser δ}
    {ns ms : List Nest} {Q : List Nest → List Nest → Prop} (h : SimAt ρ V p q ns ms)
    (hQ : ∀ {ts us es es' a b s s'}, p ⟨ns, ts, es⟩ = .ok a s → q ⟨ms, us, es'⟩ = .ok b s' →
      Q s.unread s'.unread)
    (hf : ∀ a b ls ls', V a b → ρ.Row ls ls' → Q ls ls' → SimAt ρ W (f a) (g b) ls ls') :
    SimAt ρ W (p >>= f) (q >>= g) ns ms := by
  intro ts us es es'
  have hp := h ts us es es'
  have hQ := @hQ ts us es es'
  show Agree ρ W ts us (EStateM.bind p f _) (EStateM.bind q g _)
  unfold EStateM.bind
  generalize p ⟨ns, ts, es⟩ = r at hp hQ
  generalize q ⟨ms, us, es'⟩ = r' at hp hQ
  cases hp with
  | ok hv hr ht => exact (hf _ _ _ _ hv hr (hQ rfl rfl) _ _ _ _).outer ht
  | error he => exact .error he

theorem sim_bind {p : Parser α} {q : Parser β} {f : α → Parser γ} {g : β → Parser δ}
    (h : Sim ρ V p q) (hf : ∀ a b, V a b → Sim ρ W (f a) (g b)) :
    Sim ρ W (p >>= f) (q >>= g) := fun ns ms hr =>
  (h ns ms hr).bind (Q := fun _ _ => True) (fun _ _ => trivial)
    fun a b ls ls' hv hr _ => hf a b hv ls ls' hr

theorem sim_then {p : Parser α} {q : Parser α} {p' : Parser γ} {q' : Parser δ}
    (h : Sim ρ Eq p q) (h' : Sim ρ W p' q') :
    Sim ρ W (p >>= fun _ => p') (q >>= fun _ => q') :=
  sim_bind h fun _ _ _ => h'

theorem sim_unread_bind {f : List Nest → Parser γ} {g : List Nest → Parser δ}
    (h : ∀ ns ms, ρ.Row ns ms → Sim ρ W (f ns) (g ms)) :
    Sim ρ W (unread >>= f) (unread >>= g) := by
  have hu : Sim ρ ρ.Row unread unread := fun ns ms hr _ _ _ _ => .same hr hr
  exact sim_bind hu h

theorem sim_load {line line' : List Nest} (h : ρ.Row line line') :
    Sim ρ Eq (load line) (load line') := fun _ _ _ _ _ _ _ => .same rfl h

theorem sim_build {ts us : List Tree} (h : ρ.forest ts us) : Sim ρ Eq (build ts) (build us) :=
  fun _ _ hr _ _ _ _ => .ok rfl hr h

theorem sim_record (es es' : List Event) : Sim ρ Eq (record es) (record es') :=
  fun _ _ hr _ _ _ _ => .same rfl hr

theorem sim_throw {e e' : ParseError} (h : e.Corresponds ρ e') :
    Sim ρ V (throw e) (throw e') := fun _ _ _ _ _ _ _ => .error h

theorem sim_failAt {ns ms : List Nest} (h : ρ.Nests ns ms) (expected : List Expected) :
    Sim ρ V (failAt ns expected) (failAt ms expected) := by
  cases h with
  | nil => exact sim_throw (.atEnd expected)
  | cons hn _ => exact sim_throw (.token hn.token expected)

theorem sim_fail (expected : List Expected) : Sim ρ V (fail expected) (fail expected) :=
  sim_unread_bind fun _ _ h => sim_failAt h.nests expected

theorem sim_ite {c c' : Prop} [Decidable c] [Decidable c'] {p p' : Parser α} {q q' : Parser β}
    (hc : c ↔ c') (h : Sim ρ V p q) (h' : Sim ρ V p' q') :
    Sim ρ V (if c then p else p') (if c' then q else q') := by
  by_cases hd : c
  · rw [if_pos hd, if_pos (hc.1 hd)]
    exact h
  · rw [if_neg hd, if_neg (mt hc.2 hd)]
    exact h'

theorem within_eq (kind : NodeKind) (p : Parser α) (ns : List Nest) (ts : List Tree)
    (es : List Event) : within kind p ⟨ns, ts, es⟩ =
      match p ⟨ns, [], es⟩ with
      | .ok a s => .ok a { s with built := ts ++ [.node kind s.built] }
      | .error e s => .error e s := by
  show EStateM.bind p (fun a => EStateM.bind (modify _) fun _ => pure a) ⟨ns, [], es⟩ = _
  unfold EStateM.bind
  cases p ⟨ns, [], es⟩ <;> rfl

theorem sim_within {p : Parser α} {q : Parser β} (kind : NodeKind) (h : Sim ρ V p q) :
    Sim ρ V (within kind p) (within kind q) := by
  intro ns ms hr ts us es es'
  have hp := h ns ms hr [] [] es es'
  rw [within_eq, within_eq]
  generalize p ⟨ns, [], es⟩ = r at hp
  generalize q ⟨ms, [], es'⟩ = r' at hp
  cases hp with
  | ok hv hr ht => exact .ok hv hr (ρ.node kind ht)
  | error he => exact .error he

theorem bind_ok {p : Parser α} {f : α → Parser β} {b : β} {s s' : Cursor}
    (h : (p >>= f) s = .ok b s') : ∃ a s₁, p s = .ok a s₁ ∧ f a s₁ = .ok b s' := by
  have h : EStateM.bind p f s = .ok b s' := h
  unfold EStateM.bind at h
  cases hp : p s with
  | ok a s₁ =>
    rw [hp] at h
    exact ⟨a, s₁, rfl, h⟩
  | error e s₁ =>
    rw [hp] at h
    cases h

theorem bind_error {p : Parser α} {f : α → Parser β} {e : ParseError} {s s' : Cursor}
    (h : (p >>= f) s = .error e s') :
    p s = .error e s' ∨ ∃ a s₁, p s = .ok a s₁ ∧ f a s₁ = .error e s' := by
  have h : EStateM.bind p f s = .error e s' := h
  unfold EStateM.bind at h
  cases hp : p s with
  | ok a s₁ =>
    rw [hp] at h
    exact .inr ⟨a, s₁, rfl, h⟩
  | error e' s₁ =>
    rw [hp] at h
    cases h
    exact .inl rfl

theorem within_ok {p : Parser α} {k : NodeKind} {ns : List Nest} {outer : List Tree}
    {es : List Event} {a : α} {s : Cursor} (h : within k p ⟨ns, outer, es⟩ = .ok a s) :
    ∃ s₁, p ⟨ns, [], es⟩ = .ok a s₁ ∧ s.unread = s₁.unread ∧
      s.built = outer ++ [.node k s₁.built] := by
  rw [within_eq] at h
  cases hp : p ⟨ns, [], es⟩ with
  | ok b s₁ =>
    rw [hp] at h
    cases h
    exact ⟨s₁, rfl, rfl, rfl⟩
  | error e s₁ =>
    rw [hp] at h
    cases h

theorem within_error {p : Parser α} {k : NodeKind} {ns : List Nest} {outer : List Tree}
    {es : List Event} {e : ParseError} {s : Cursor} (h : within k p ⟨ns, outer, es⟩ = .error e s) :
    p ⟨ns, [], es⟩ = .error e s := by
  rw [within_eq] at h
  cases hp : p ⟨ns, [], es⟩ with
  | ok a s₁ =>
    rw [hp] at h
    cases h
  | error e' s' =>
    rw [hp] at h
    exact h

end Parser

end MakeTree
