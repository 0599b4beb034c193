import MakeTree.Token.Lexer
import Mathlib.Data.List.TakeWhile
import Mathlib.Tactic.Set

/-!
What a piece of text depends on. A piece that starts on a line ends on it, unless it is the line
break or a continuation (`unbroken_inLine`), and what follows a piece does not change it
(`shape_append`): the lexer looks ahead, but never past the piece it then cuts. The one exception
is a dollar sign in front of a continuation.
-/

namespace MakeTree

namespace Text

theorem lineBreak?_eq (t : Text) : lineBreak? t =
    if t[0]? = some '\r' ∧ t[1]? = some '\n' then some 1
    else if t[0]? = some '\r' ∨ t[0]? = some '\n' then some 0 else none := by
  rcases t with _ | ⟨y, _ | ⟨z, t⟩⟩ <;> unfold lineBreak? <;> split <;> simp_all
  grind

theorem lineBreak?_isSome {t : Text} :
    (lineBreak? t).isSome ↔ t[0]? = some '\r' ∨ t[0]? = some '\n' := by
  rw [lineBreak?_eq]
  grind

theorem continuation?_eq (t : Text) : continuation? t =
    if t[0]? = some '\\' then (lineBreak? t.tail).map (· + 1) else none := by
  rcases t with _ | ⟨y, t⟩ <;> unfold continuation? <;> split <;> simp_all

theorem continuation?_isSome {t : Text} : (continuation? t).isSome ↔
    t[0]? = some '\\' ∧ (t[1]? = some '\r' ∨ t[1]? = some '\n') := by
  rw [continuation?_eq]
  split <;> simp_all [lineBreak?_isSome]

theorem lineBreak?_append {a x : Text} (h : ∀ n ∈ lineBreak? (a ++ x), n < a.length) :
    lineBreak? (a ++ x) = lineBreak? a := by
  simp only [lineBreak?_eq] at *
  grind

theorem takeWhile_append_of_le {p : Char → Bool} {a x : Text}
    (h : ((a ++ x).takeWhile p).length ≤ a.length) : (a ++ x).takeWhile p = a.takeWhile p := by
  rw [List.takeWhile_append] at h ⊢
  split
  · next he =>
    have hx : x.takeWhile p = [] := by
      rw [if_pos he, List.length_append] at h
      exact List.length_eq_zero_iff.1 (by omega)
    rw [hx, List.append_nil]
    exact ((List.takeWhile_prefix p).eq_of_length he).symm
  · rfl

theorem getElem?_of_lt_takeWhile {p : Char → Bool} {t : Text} {i : Nat}
    (h : i < (t.takeWhile p).length) : ∃ d, t[i]? = some d ∧ p d := by
  refine ⟨(t.takeWhile p)[i], ?_, List.mem_takeWhile_imp (List.getElem_mem h)⟩
  rw [List.IsPrefix.getElem (List.takeWhile_prefix p), List.getElem?_eq_getElem]

end Text

theorem ne_break_of_isBlank {d : Char} (h : isBlank d) : d ≠ '\n' ∧ d ≠ '\r' := by
  constructor <;> rintro rfl <;> simp [isBlank] at h

theorem ne_break_of_isWordChar {d : Char} (h : isWordChar d) : d ≠ '\n' ∧ d ≠ '\r' := by
  constructor <;> rintro rfl <;> revert h <;> decide

namespace Shape

/-- How many characters of the piece follow its first. -/
def more : Shape → Nat
  | token _ m _ => m
  | continuation m => m
  | illegal => 0

@[simp, grind =] theorem more_token (k : TokenKind) (m : Nat) (ch : FrameChange) :
    (token k m ch).more = m := rfl

@[simp, grind =] theorem more_continuation (m : Nat) : (continuation m).more = m := rfl

@[simp, grind =] theorem more_illegal : illegal.more = 0 := rfl

@[simp, grind =] theorem more_plain (m : Nat) : (plain m).more = m := rfl

@[simp, grind =] theorem more_assign (m : Nat) : (assign m).more = m := rfl

@[simp] theorem more_word (frames : List Frame) (b : Bool) (w : Text) :
    (word frames b w).more = w.length - 1 := by
  unfold word
  split
  · rfl
  · split <;> rfl

@[simp] theorem more_closing (frames : List Frame) : (closing frames).more = 0 := by
  unfold closing
  split <;> rfl

@[simp] theorem more_opening (frames : List Frame) : (opening frames).more = 0 := by
  unfold opening
  split <;> rfl

theorem dollar_eq (t : Text) : dollar t =
    if t[0]? = some '$' ∧ t[1]? = some '(' then plain 2
    else if t[0]? = some '(' ∨ t[0]? = some '{' then token .expansionPrefix 1 (.opens .expansion)
    else if t[0]? = none ∨ (t[0]? = some '\r' ∨ t[0]? = some '\n') ∨
      t[0]? = some '\\' ∧ (t[1]? = some '\r' ∨ t[1]? = some '\n') then plain 0
    else token .varRef 1 .keep := by
  simp only [← Text.lineBreak?_isSome, ← Text.continuation?_isSome]
  rcases t with _ | ⟨y, _ | ⟨z, t⟩⟩ <;> unfold dollar <;> split <;> simp_all

theorem backslash_eq (t : Text) : backslash t =
    if t[0]? = some '(' ∨ t[0]? = some ')' ∨ t[0]? = some '#' then plain 1 else plain 0 := by
  rcases t with _ | ⟨y, t⟩ <;> unfold backslash <;> split <;> simp_all

theorem colon_eq (t : Text) : colon t =
    if t[0]? = some ':' ∧ t[1]? = some '=' then assign 2
    else if t[0]? = some '=' then assign 1 else token .colon 0 .keep := by
  rcases t with _ | ⟨y, _ | ⟨z, t⟩⟩ <;> unfold colon <;> split <;> simp_all

theorem beforeEquals_eq (t : Text) : beforeEquals t =
    if t[0]? = some '=' then assign 1 else plain 0 := by
  rcases t with _ | ⟨y, t⟩ <;> unfold beforeEquals <;> split <;> simp_all

/-- What `f` reads off the text `a ++ x` it reads off `a` too, if that ends within `a`. -/
def Local (f : Text → Shape) : Prop :=
  ∀ a x, (f (a ++ x)).more ≤ a.length → f (a ++ x) = f a

theorem dollar_append {a x : Text} (h : (dollar (a ++ x)).more ≤ a.length)
    (hx : a = ['\\'] → ¬ (Text.lineBreak? x).isSome) : dollar (a ++ x) = dollar a := by
  rw [Text.lineBreak?_isSome] at hx
  rcases a with _ | ⟨y, _ | ⟨z, a⟩⟩
  · simp only [dollar_eq] at *
    grind
  · simp only [dollar_eq] at *
    grind
  · simp only [dollar_eq] at *
    grind

theorem local_backslash : Local backslash := by
  intro a x h
  simp only [backslash_eq] at *
  grind

theorem local_colon : Local colon := by
  intro a x h
  simp only [colon_eq] at *
  grind

theorem local_beforeEquals : Local beforeEquals := by
  intro a x h
  simp only [beforeEquals_eq] at *
  grind

theorem local_quote (q : Char) : Local (quote q) := by
  intro a x h
  simp only [quote] at *
  set p : Char → Bool := fun c => c != q && c != '\n' && c != '\r'
  by_cases hl : ((a ++ x).takeWhile p).length ≤ a.length
  · rw [Text.takeWhile_append_of_le hl] at h ⊢
    have := (List.takeWhile_prefix p (l := a)).length_le
    grind
  · have ha : a.takeWhile p = a := by
      rw [List.takeWhile_append] at hl
      split at hl
      · next he => exact (List.takeWhile_prefix p).eq_of_length he
      · exact absurd (List.takeWhile_prefix p).length_le hl
    rw [ha]
    grind

theorem inLine_append {frames : List Frame} {b : Bool} {c : Char} {a x : Text}
    (h : (inLine frames b c (a ++ x)).more ≤ a.length)
    (hx : c = '$' → a = ['\\'] → ¬ (Text.lineBreak? x).isSome) :
    inLine frames b c (a ++ x) = inLine frames b c a := by
  unfold inLine at *
  split at h
  · exact dollar_append h (hx rfl)
  · exact local_backslash a x h
  · rfl
  · rfl
  · rfl
  · rfl
  · exact local_colon a x h
  · exact local_beforeEquals a x h
  · exact local_beforeEquals a x h
  · exact local_beforeEquals a x h
  · rfl
  · simp only [Text.line, more_token] at *
    rw [Text.takeWhile_append_of_le h]
  · exact local_quote _ a x h
  · exact local_quote _ a x h
  · by_cases hb : isBlank c = true
    · simp only [hb, if_true, more_token] at h ⊢
      rw [Text.takeWhile_append_of_le h]
    by_cases hw : isWordChar c = true
    · simp only [hb, hw, if_true, if_false, more_word, Bool.false_eq_true] at h ⊢
      rw [Text.takeWhile_append_of_le (by simpa using h)]
    · simp only [hb, hw, if_false, Bool.false_eq_true]

/-- The characters after the first of the piece are there, and none of them breaks the line. -/
def Unbroken (s : Shape) (after : Text) : Prop :=
  ∀ i < s.more, ∃ d, after[i]? = some d ∧ d ≠ '\n' ∧ d ≠ '\r'

theorem unbroken_of_takeWhile {s : Shape} {t : Text} {p : Char → Bool}
    (hp : ∀ d, p d → d ≠ '\n' ∧ d ≠ '\r') (h : s.more = (t.takeWhile p).length) :
    s.Unbroken t := by
  intro i hi
  obtain ⟨d, hd, hpd⟩ := Text.getElem?_of_lt_takeWhile (h ▸ hi)
  exact ⟨d, hd, hp d hpd⟩

theorem unbroken_of_more_eq_zero {s : Shape} {t : Text} (h : s.more = 0) : s.Unbroken t := by
  intro i hi
  omega

theorem unbroken_dollar (t : Text) : (dollar t).Unbroken t := by
  intro i hi
  simp only [dollar_eq] at hi
  grind

theorem unbroken_backslash (t : Text) : (backslash t).Unbroken t := by
  intro i hi
  simp only [backslash_eq] at hi
  grind

theorem unbroken_colon (t : Text) : (colon t).Unbroken t := by
  intro i hi
  simp only [colon_eq] at hi
  grind

theorem unbroken_beforeEquals (t : Text) : (beforeEquals t).Unbroken t := by
  intro i hi
  simp only [beforeEquals_eq] at hi
  grind

theorem unbroken_quote {q : Char} (hq : q ≠ '\n' ∧ q ≠ '\r') (t : Text) :
    (quote q t).Unbroken t := by
  intro i hi
  simp only [quote] at hi
  set p : Char → Bool := fun c => c != q && c != '\n' && c != '\r'
  split at hi
  · next hq' =>
    rcases Nat.lt_succ_iff_lt_or_eq.1 hi with h | rfl
    · obtain ⟨d, hd, hp⟩ := Text.getElem?_of_lt_takeWhile h
      simp only [p, Bool.and_eq_true, bne_iff_ne, ne_eq] at hp
      exact ⟨d, hd, hp.1.2, hp.2⟩
    · exact ⟨q, hq', hq⟩
  · simp at hi

theorem unbroken_inLine (frames : List Frame) (b : Bool) (c : Char) (t : Text) :
    (inLine frames b c t).Unbroken t := by
  unfold inLine
  split
  · exact unbroken_dollar t
  · exact unbroken_backslash t
  · exact unbroken_of_more_eq_zero (more_closing frames)
  · exact unbroken_of_more_eq_zero (more_closing frames)
  · exact unbroken_of_more_eq_zero (more_opening frames)
  · exact unbroken_of_more_eq_zero rfl
  · exact unbroken_colon t
  · exact unbroken_beforeEquals t
  · exact unbroken_beforeEquals t
  · exact unbroken_beforeEquals t
  · exact unbroken_of_more_eq_zero rfl
  · exact unbroken_of_takeWhile (fun d hd => by simpa using hd) rfl
  · exact unbroken_quote (by decide) t
  · exact unbroken_quote (by decide) t
  · split
    · exact unbroken_of_takeWhile (fun d => ne_break_of_isBlank) rfl
    · split
      · exact unbroken_of_takeWhile (fun d => ne_break_of_isWordChar) (by simp)
      · split <;> exact unbroken_of_more_eq_zero rfl

theorem Unbroken.more_le {s : Shape} {after : Text} (h : s.Unbroken after) :
    s.more ≤ after.length := by
  rcases hm : s.more with _ | m
  · exact Nat.zero_le _
  · obtain ⟨d, hd, -⟩ := h m (by omega)
    exact (List.getElem?_eq_some_iff.1 hd).1

theorem Unbroken.ne_break {s : Shape} {after : Text} (h : s.Unbroken after) {d : Char}
    (hd : d ∈ after.take s.more) : d ≠ '\n' ∧ d ≠ '\r' := by
  obtain ⟨i, hi, rfl⟩ := List.mem_take_iff_getElem.1 hd
  obtain ⟨d', hd', hb⟩ := h i (by omega)
  rw [List.getElem?_eq_getElem (by omega)] at hd'
  exact Option.some.inj hd' ▸ hb

end Shape

end MakeTree
