import MakeTree.Grammar.Line
import Mathlib.Data.List.Basic

/-!
Conditionals among the kinds of lines. Lines are `Matched` when each `endif` among them closes a
conditional among them and none is left open. What the scan for a recipe finds is a conditional with
matched lines inside (`endsInRecipe_conditional`), and where one starts there is but one
(`Matched.unique`).
-/

namespace MakeTree

namespace LineKind

def isConditional : LineKind → Bool
  | keyword (.conditional _) => true
  | _ => false

/-- Lines of which a recipe and the conditionals in it are made. -/
def fit : LineKind → Bool
  | blank => true
  | comment => true
  | recipe => true
  | keyword (.conditional _) => true
  | keyword .otherwise => true
  | keyword .endif => true
  | _ => false

def opened (ks : List LineKind) : Nat := ks.countP isConditional

def closed (ks : List LineKind) : Nat := ks.count (.keyword .endif)

/-- Lines fit for a recipe that close each conditional they open, and no other. -/
structure Matched (ks : List LineKind) : Prop where
  fit : ∀ k ∈ ks, k.fit = true
  nested : ∀ us, us <+: ks → closed us ≤ opened us
  even : closed ks = opened ks

/-- A conditional up to its `endif`, with a command in it. -/
def RecipeBlock (ks : List LineKind) : Prop := ∃ c body,
  ks = .keyword (.conditional c) :: (body ++ [.keyword .endif]) ∧ Matched body ∧ recipe ∈ body

section Counts

variable (us ws : List LineKind)

@[simp] theorem opened_nil : opened [] = 0 := rfl

@[simp] theorem closed_nil : closed [] = 0 := rfl

@[simp] theorem opened_append : opened (us ++ ws) = opened us + opened ws := List.countP_append

@[simp] theorem closed_append : closed (us ++ ws) = closed us + closed ws := List.count_append

@[simp] theorem opened_cons (k : LineKind) :
    opened (k :: us) = opened us + if k.isConditional then 1 else 0 := List.countP_cons

@[simp] theorem closed_cons (k : LineKind) :
    closed (k :: us) = closed us + if k = .keyword .endif then 1 else 0 := by
  simp [closed, List.count_cons]

end Counts

theorem prefix_append {us vs ws : List LineKind} (h : vs <+: us ++ ws) :
    vs <+: us ∨ ∃ as, vs = us ++ as ∧ as <+: ws := by
  obtain ⟨bs, h⟩ := h
  obtain ⟨as, rfl, h⟩ | ⟨as, rfl, rfl⟩ := List.append_eq_append_iff.1 h
  · exact .inl (List.prefix_append vs as)
  · exact .inr ⟨as, rfl, List.prefix_append as bs⟩

namespace Matched

variable {us ws : List LineKind}

theorem nil : Matched [] where
  fit := nofun
  nested us h := by simp [List.prefix_nil.1 h]
  even := rfl

theorem append (h : Matched us) (h' : Matched ws) : Matched (us ++ ws) where
  fit k hk := (List.mem_append.1 hk).elim (h.fit k) (h'.fit k)
  nested vs hv := by
    obtain hv | ⟨as, rfl, ha⟩ := prefix_append hv
    · exact h.nested vs hv
    · have := h'.nested as ha
      have := h.even
      simp only [closed_append, opened_append]
      omega
  even := by
    have := h.even
    have := h'.even
    simp only [closed_append, opened_append]
    omega

theorem singleton {k : LineKind} (hf : k.fit = true) (hc : k.isConditional = false)
    (he : k ≠ .keyword .endif) : Matched [k] where
  fit j hj := by rwa [List.mem_singleton.1 hj]
  nested vs hv := by
    rcases List.prefix_cons_iff.1 hv with rfl | ⟨ws, rfl, hw⟩
    · exact Nat.le_refl _
    · simp [List.prefix_nil.1 hw, hc, he]
  even := by simp [hc, he]

theorem block (h : Matched us) (c : ConditionalKind) :
    Matched (.keyword (.conditional c) :: (us ++ [.keyword .endif])) where
  fit k hk := by
    rcases List.mem_cons.1 hk with rfl | hk
    · rfl
    · rcases List.mem_append.1 hk with hk | hk
      · exact h.fit k hk
      · rw [List.mem_singleton.1 hk]
        rfl
  nested vs hv := by
    rcases List.prefix_cons_iff.1 hv with rfl | ⟨as, rfl, ha⟩
    · exact Nat.le_refl _
    · rcases List.prefix_concat_iff.1 ha with rfl | ha
      · have := h.even
        simp [isConditional]
        omega
      · have := h.nested as ha
        simp [isConditional]
        omega
  even := by
    have := h.even
    simp [isConditional, this]

theorem right (h : Matched us) (h' : Matched (us ++ ws)) : Matched ws where
  fit k hk := h'.fit k (List.mem_append_right us hk)
  nested vs hv := by
    have hn := h'.nested (us ++ vs) ((List.prefix_append_right_inj us).2 hv)
    have := h.even
    simp only [closed_append, opened_append] at hn
    omega
  even := by
    have he := h'.even
    have := h.even
    simp only [closed_append, opened_append] at he
    omega

theorem split {xs ys : List LineKind} (h : Matched us) (h' : Matched ws)
    (he : us ++ xs = ws ++ .keyword .endif :: ys) :
    ∃ vs, ws = us ++ vs ∧ xs = vs ++ .keyword .endif :: ys ∧ Matched vs := by
  obtain ⟨as, rfl, rfl⟩ | ⟨bs, rfl, hb⟩ := List.append_eq_append_iff.1 he
  · exact ⟨as, rfl, rfl, h.right h'⟩
  · cases bs with
    | nil => exact ⟨[], by simp, hb.symm, .nil⟩
    | cons b bs =>
      obtain ⟨rfl, rfl⟩ := List.cons.inj hb
      have hn := h.nested (ws ++ [.keyword .endif]) ⟨bs, by simp⟩
      have := h'.even
      simp [isConditional] at hn
      omega

theorem unique {xs ys : List LineKind} (h : Matched us) (h' : Matched ws)
    (he : us ++ .keyword .endif :: xs = ws ++ .keyword .endif :: ys) : us = ws ∧ xs = ys := by
  obtain ⟨vs, rfl, hv, -⟩ := h.split h' he
  obtain ⟨as, ha, -, -⟩ := h'.split h he.symm
  rw [List.append_assoc, List.self_eq_append_right, List.append_eq_nil_iff] at ha
  obtain ⟨rfl, -⟩ := ha
  rw [List.append_nil]
  exact ⟨rfl, (List.cons.inj hv).2⟩

end Matched

theorem RecipeBlock.unique {block body xs ys : List LineKind} (h : RecipeBlock block)
    (hm : Matched body) {c : ConditionalKind}
    (he : .keyword (.conditional c) :: (body ++ [.keyword .endif]) ++ xs = block ++ ys) :
    block = .keyword (.conditional c) :: (body ++ [.keyword .endif]) ∧ xs = ys := by
  obtain ⟨c', body', rfl, hm', -⟩ := h
  rw [List.cons_append, List.cons_append, List.append_assoc, List.append_assoc] at he
  obtain ⟨hc, he⟩ := List.cons.inj he
  obtain ⟨rfl, rfl⟩ := hm.unique hm' he
  exact ⟨by rw [hc], rfl⟩

section Scan

/-- The scan goes through fit lines, and counts, as long as they close no more than is open. -/
theorem endsInRecipe_within {us : List LineKind} {depth : Nat} (hf : ∀ k ∈ us, k.fit = true)
    (hn : ∀ vs, vs <+: us → closed vs ≤ opened vs + depth) (seen : Bool) (ks : List LineKind) :
    endsInRecipe (depth + 1) seen (us ++ ks) =
      endsInRecipe (depth + 1 + opened us - closed us) (seen || us.contains recipe) ks := by
  induction us generalizing depth seen with
  | nil => simp
  | cons k us ih =>
    have hf' := fun j hj => hf j (List.mem_cons_of_mem k hj)
    have hstep {d : Nat} (hd : d + closed [k] = depth + opened [k]) :
        ∀ vs, vs <+: us → closed vs ≤ opened vs + d := by
      intro vs hv
      have := hn (k :: vs) (List.cons_prefix_cons.2 ⟨rfl, hv⟩)
      simp only [closed_cons, opened_cons, closed_nil, opened_nil] at this hd
      omega
    have hk := hf k List.mem_cons_self
    cases k with
    | blank => simpa [isConditional, endsInRecipe] using ih hf' (hstep rfl) seen
    | comment => simpa [isConditional, endsInRecipe] using ih hf' (hstep rfl) seen
    | recipe => simpa [isConditional, endsInRecipe] using ih hf' (hstep rfl) true
    | other => cases hk
    | keyword w =>
      cases w with
      | conditional c =>
        have hi := ih hf' (hstep (d := depth + 1) (by simp [isConditional])) seen
        rw [List.cons_append, endsInRecipe, hi]
        simp [isConditional]
        congr 1
        omega
      | otherwise => simpa [isConditional, endsInRecipe] using ih hf' (hstep rfl) seen
      | endif =>
        have hle := hn [.keyword .endif] (by simp)
        simp [isConditional] at hle
        obtain ⟨d, rfl⟩ : ∃ d, depth = d + 1 := ⟨depth - 1, by omega⟩
        have hi := ih hf' (hstep (d := d) (by simp [isConditional])) seen
        rw [List.cons_append, endsInRecipe, if_neg (by omega), Nat.add_sub_cancel, hi]
        simp [isConditional]
        congr 1
        omega
      | _ => cases hk

theorem Matched.scan {us : List LineKind} (h : Matched us) (seen : Bool) (ks : List LineKind) :
    endsInRecipe 1 seen (us ++ ks) = endsInRecipe 1 (seen || us.contains recipe) ks := by
  have hs := @endsInRecipe_within us 0 h.fit h.nested seen ks
  rwa [h.even, Nat.add_sub_cancel] at hs

theorem endsInRecipe_split {ks : List LineKind} {depth : Nat} {seen : Bool}
    (h : endsInRecipe (depth + 1) seen ks = true) : ∃ us vs, ks = us ++ .keyword .endif :: vs ∧
      (∀ k ∈ us, k.fit = true) ∧ (∀ ws, ws <+: us → closed ws ≤ opened ws + depth) ∧
      closed us = opened us + depth ∧ (seen || us.contains recipe) = true := by
  induction ks generalizing depth seen with
  | nil => cases h
  | cons k ks ih =>
    -- a line that leaves `d` conditionals open, with what is found from there on
    have step {d : Nat} {s : Bool} (hf : k.fit = true)
        (hd : d + closed [k] = depth + opened [k]) (hs : s = (seen || k == recipe))
        (h : endsInRecipe (d + 1) s ks = true) : ∃ us vs, k :: ks = us ++ .keyword .endif :: vs ∧
          (∀ k ∈ us, k.fit = true) ∧ (∀ ws, ws <+: us → closed ws ≤ opened ws + depth) ∧
          closed us = opened us + depth ∧ (seen || us.contains recipe) = true := by
      obtain ⟨us, vs, rfl, hfit, hn, he, hr⟩ := ih h
      refine ⟨k :: us, vs, rfl, ?_, fun ws hw => ?_, ?_, ?_⟩
      · exact List.forall_mem_cons.2 ⟨hf, hfit⟩
      · rcases List.prefix_cons_iff.1 hw with rfl | ⟨as, rfl, ha⟩
        · exact Nat.zero_le _
        · have := hn as ha
          simp only [closed_cons, opened_cons, closed_nil, opened_nil] at hd ⊢
          omega
      · simp only [closed_cons, opened_cons, closed_nil, opened_nil] at hd ⊢
        omega
      · rw [List.contains_cons, ← Bool.or_assoc, Bool.beq_comm (a := recipe), ← hs, hr]
    cases k with
    | blank => exact step rfl rfl (Bool.or_false _).symm h
    | comment => exact step rfl rfl (Bool.or_false _).symm h
    | recipe => exact step rfl rfl (Bool.or_true _).symm h
    | other => cases h
    | keyword w =>
      cases w with
      | conditional c => exact step (d := depth + 1) rfl (by simp [isConditional]) (Bool.or_false _).symm h
      | otherwise => exact step rfl rfl (Bool.or_false _).symm h
      | endif =>
        rw [endsInRecipe] at h
        split at h
        · next hd =>
          obtain rfl : depth = 0 := by omega
          exact ⟨[], ks, rfl, nofun, fun ws hw => by simp [List.prefix_nil.1 hw], rfl, by simpa using h⟩
        · next hd =>
          obtain ⟨d, rfl⟩ : ∃ d, depth = d + 1 := ⟨depth - 1, by omega⟩
          exact step (d := d) rfl (by simp [isConditional]) (Bool.or_false _).symm h
      | _ => cases h

/-- A conditional is fit for a recipe if it is a block with a command in it. -/
theorem endsInRecipe_conditional {c : ConditionalKind} {ks : List LineKind} :
    endsInRecipe 0 false (.keyword (.conditional c) :: ks) = true ↔
      ∃ block after, .keyword (.conditional c) :: ks = block ++ after ∧ RecipeBlock block := by
  constructor
  · intro h
    have h : endsInRecipe (0 + 1) false ks = true := h
    obtain ⟨body, after, rfl, hf, hn, he, hr⟩ := endsInRecipe_split h
    exact ⟨.keyword (.conditional c) :: (body ++ [.keyword .endif]), after, by simp,
      c, body, rfl, ⟨hf, hn, he⟩, by simpa using hr⟩
  · rintro ⟨_, after, h, c', body, rfl, hl, hr⟩
    rw [List.cons_append, List.append_assoc] at h
    obtain ⟨-, rfl⟩ := List.cons.inj h
    rw [endsInRecipe, hl.scan]
    simp [endsInRecipe, hr]

end Scan

end LineKind

end MakeTree
