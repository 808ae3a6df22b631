import ConstraintNet.Proofs.Reading.Tokens

/-! Numerals in a text.

A numeral begins where no word and no other numeral has just been begun (`Fresh`), and it
ends where no digit follows. One out of range (`Overflow`) is a part of a text like any
other, and whether there is one can be told from the parts of the text, unless they are
divided inside a numeral (`Fits.append`). -/
namespace ConstraintNet.Reading
open Text (isBlank)
open Text.Decimal (IsNumeral int64? value)
open Grammar (Blanks IsWord)

/-- What comes next goes on with no word and no numeral. -/
def Fresh (u : List Char) : Prop :=
  ∀ c, u.getLast? = some c → isWordChar c = false ∧ c ≠ '-'

/-- The text does not go on with a numeral. -/
def Unbroken (u v : List Char) : Prop :=
  ∀ c, u.getLast? = some c → c.isDigit = true ∨ c = '-' → EndsAt Char.isDigit v.head?

/-- Between `u` and `v` a numeral out of range, the whole of it. -/
structure Overflow (u n v : List Char) : Prop where
  fresh : Fresh u
  numeral : IsNumeral n
  outOfRange : value n < Int64.minValue.toInt ∨ Int64.maxValue.toInt < value n
  ends : EndsAt Char.isDigit v.head?

/-- No numeral of the text is out of range. -/
def Fits (w : List Char) : Prop :=
  ∀ u n v, w = u ++ n ++ v → ¬ Overflow u n v

section
variable {u v w x n m : List Char} {c : Char}

theorem Overflow.int64?_eq (h : Overflow u n v) : int64? n = none :=
  int64?_eq_none_iff.mpr h.outOfRange

/-! ### Characters of none -/

theorem isWordChar_of_isBlank (h : isBlank c = true) : isWordChar c = false := by
  rw [← Bool.not_eq_true]
  intro hword
  rw [isBlank_of_isWordChar hword] at h
  cases h

theorem isDigit_of_isWordChar (h : isWordChar c = false) : c.isDigit = false := by
  rw [← Bool.not_eq_true]
  intro hdigit
  rw [isWordChar_of_isDigit hdigit] at h
  cases h

theorem isDigit_of_isBlank (h : isBlank c = true) : c.isDigit = false :=
  isDigit_of_isWordChar (isWordChar_of_isBlank h)

/-! ### Where a token may begin -/

theorem fresh_nil : Fresh [] :=
  fun _ h => nomatch h

theorem fresh_concat (hword : isWordChar c = false) (hsign : c ≠ '-') (u : List Char) :
    Fresh (u ++ [c]) := by
  intro d hd
  rw [List.getLast?_concat] at hd
  cases hd
  exact ⟨hword, hsign⟩

theorem Fresh.right (h : Fresh (u ++ v)) : Fresh v := by
  intro c hc
  exact h c (by rw [List.getLast?_append, hc, Option.some_or])

/-- After a blank a token may begin. -/
theorem fresh_append_blanks (hw : Blanks w) (hne : w ≠ []) (u : List Char) : Fresh (u ++ w) := by
  intro c hc
  rw [List.getLast?_append, List.getLast?_eq_some_getLast hne, Option.some_or] at hc
  have hblank := hw c (Option.some.inj hc ▸ List.getLast_mem hne)
  refine ⟨isWordChar_of_isBlank hblank, ?_⟩
  rintro rfl
  revert hblank
  decide

theorem Fresh.blanks (h : Fresh u) (hw : Blanks w) : Fresh (u ++ w) := by
  by_cases hne : w = []
  · rwa [hne, List.append_nil]
  · exact fresh_append_blanks hw hne u

/-! ### Where a numeral ends -/

theorem endsAt_nil : EndsAt Char.isDigit ([] : List Char).head? :=
  fun _ h => nomatch h

theorem EndsAt.left (h : EndsAt Char.isDigit (v ++ w).head?) : EndsAt Char.isDigit v.head? := by
  intro c hc
  exact h c (by rw [List.head?_append, hc, Option.some_or])

theorem EndsAt.append (hv : EndsAt Char.isDigit v.head?) (hw : EndsAt Char.isDigit w.head?) :
    EndsAt Char.isDigit (v ++ w).head? := by
  cases v with
  | nil => exact hw
  | cons c v => exact hv

theorem endsAt_of_blanks (hw : Blanks w) : EndsAt Char.isDigit w.head? :=
  fun c hc => isDigit_of_isBlank (hw c (List.mem_of_head? hc))

/-- A numeral is over where a token may begin. -/
theorem Fresh.unbroken (h : Fresh u) (v : List Char) : Unbroken u v := by
  intro c hc hnumeral
  obtain ⟨hword, hsign⟩ := h c hc
  rcases hnumeral with hdigit | hminus
  · rw [isDigit_of_isWordChar hword] at hdigit
    cases hdigit
  · exact absurd hminus hsign

theorem unbroken_of_endsAt (h : EndsAt Char.isDigit v.head?) (u : List Char) : Unbroken u v :=
  fun _ _ _ => h

theorem Unbroken.left (h : Unbroken u (v ++ w)) : Unbroken u v :=
  fun c hc hnumeral => (h c hc hnumeral).left

theorem Unbroken.blanks (h : Unbroken u (w ++ v)) (hw : Blanks w) : Unbroken (u ++ w) v := by
  by_cases hne : w = []
  · rw [hne, List.append_nil]
    rwa [hne] at h
  · exact (fresh_append_blanks hw hne u).unbroken v

/-! ### Inside a numeral -/

theorem isDigit_or_sign (h : IsNumeral n) : ∀ c ∈ n, c.isDigit = true ∨ c = '-' := by
  obtain ⟨ds, -, hds, rfl | rfl⟩ := h
  · exact fun c hc => .inl (hds c hc)
  · intro c hc
    rcases List.mem_cons.mp hc with rfl | hc
    · exact .inr rfl
    · exact .inl (hds c hc)

/-- A numeral goes on with digits. -/
theorem isDigit_of_append (h : IsNumeral (m ++ x)) (hm : m ≠ []) : ∀ c ∈ x, c.isDigit = true := by
  obtain ⟨c, m, rfl⟩ := List.exists_cons_of_ne_nil hm
  obtain ⟨ds, -, hds, heq | heq⟩ := h
  · subst heq
    exact fun d hd => hds d (List.mem_append_right _ hd)
  · obtain ⟨-, rfl⟩ := List.cons.inj heq
    exact fun d hd => hds d (List.mem_append_right _ hd)

/-- The last character of what a numeral begins with. -/
theorem exists_getLast?_numeral (h : IsNumeral (m ++ x)) (hm : m ≠ []) (u : List Char) :
    ∃ c, (u ++ m).getLast? = some c ∧ (c.isDigit = true ∨ c = '-') := by
  refine ⟨m.getLast hm, ?_, isDigit_or_sign h _ (List.mem_append_left x (List.getLast_mem hm))⟩
  rw [List.getLast?_append, List.getLast?_eq_some_getLast hm, Option.some_or]

theorem not_unbroken (h : IsNumeral (m ++ x)) (hm : m ≠ []) (hx : x ≠ []) (u v : List Char) :
    ¬ Unbroken (u ++ m) (x ++ v) := by
  intro hunbroken
  obtain ⟨c, hc, hnumeral⟩ := exists_getLast?_numeral h hm u
  obtain ⟨d, x, rfl⟩ := List.exists_cons_of_ne_nil hx
  have hdigit := isDigit_of_append h hm d (List.mem_cons_self ..)
  rw [hunbroken c hc hnumeral d rfl] at hdigit
  cases hdigit

theorem not_fresh (h : IsNumeral (m ++ x)) (hm : m ≠ []) (u : List Char) : ¬ Fresh (u ++ m) := by
  intro hfresh
  obtain ⟨c, hc, hnumeral⟩ := exists_getLast?_numeral h hm u
  obtain ⟨hword, hsign⟩ := hfresh c hc
  rcases hnumeral with hdigit | rfl
  · rw [isDigit_of_isWordChar hword] at hdigit
    cases hdigit
  · exact hsign rfl

/-- Where a numeral ends is settled by where it begins. -/
theorem numeral_unique (hn : IsNumeral n) (hv : EndsAt Char.isDigit v.head?) (hm : IsNumeral m)
    (hw : EndsAt Char.isDigit w.head?) (h : n ++ v = m ++ w) : n = m := by
  have hle : ∀ {n v m w : List Char}, IsNumeral n → EndsAt Char.isDigit v.head? → IsNumeral m →
      n ++ v = m ++ w → m.length ≤ n.length := by
    intro n v m w hn hv hm h
    rcases List.append_eq_append_iff.mp h with ⟨x, rfl, rfl⟩ | ⟨x, rfl, -⟩
    · refine Decidable.byContradiction fun hlt => ?_
      have hx : x ≠ [] := by
        rintro rfl
        rw [List.append_nil] at hlt
        exact hlt (Nat.le_refl _)
      exact not_unbroken hm (numeral_ne_nil hn) hx [] w (unbroken_of_endsAt hv _)
    · rw [List.length_append]
      exact Nat.le_add_right ..
  exact (List.append_inj h (Nat.le_antisymm (hle hm hw hn h.symm) (hle hn hv hm h))).1

/-! ### Numerals out of range -/

theorem Overflow.before (h : Overflow u n v) (hw : EndsAt Char.isDigit w.head?) :
    Overflow u n (v ++ w) :=
  ⟨h.fresh, h.numeral, h.outOfRange, h.ends.append hw⟩

/-! A numeral out of range is out of range in any part of the text that it is in. -/

theorem Overflow.left (h : Overflow u n (v ++ w)) : Overflow u n v :=
  ⟨h.fresh, h.numeral, h.outOfRange, h.ends.left⟩

theorem Overflow.right (h : Overflow (x ++ u) n v) : Overflow u n v :=
  ⟨h.fresh.right, h.numeral, h.outOfRange, h.ends⟩

/-- Texts that fit are put together to one that fits, except inside a numeral. -/
theorem Fits.append (hv : Fits v) (hw : Fits w) (h : Unbroken v w) : Fits (v ++ w) := by
  intro u n z hsplit hover
  rcases List.append_eq_append_iff.mp hsplit with ⟨x, hx, rfl⟩ | ⟨x, rfl, rfl⟩
  · rcases List.append_eq_append_iff.mp hx.symm with ⟨y, rfl, rfl⟩ | ⟨y, rfl, rfl⟩
    · exact hw y n z rfl hover.right
    · -- The numeral is divided, so all of it is in one of the texts.
      by_cases hy : y = []
      · subst hy
        exact hw [] x z rfl ⟨fresh_nil, hover.numeral, hover.outOfRange, hover.ends⟩
      by_cases hx : x = []
      · subst hx
        rw [List.append_nil] at hover
        exact hv u y [] (List.append_nil _).symm (Overflow.left (v := []) hover)
      · exact not_unbroken hover.numeral hy hx u z h
  · exact hv u n x rfl hover.left

theorem fits_nil : Fits [] := by
  intro u n v hsplit hover
  have hnil := (List.append_eq_nil_iff.mp (List.append_eq_nil_iff.mp hsplit.symm).1).2
  exact numeral_ne_nil hover.numeral hnil

/-- Without digits there is no numeral. -/
theorem fits_of_isDigit (h : ∀ c ∈ w, c.isDigit = false) : Fits w := by
  intro u n v hsplit hover
  obtain ⟨ds, hne, hds, hn⟩ := hover.numeral
  obtain ⟨d, ds, rfl⟩ := List.exists_cons_of_ne_nil hne
  have hmem : d ∈ n := by
    rcases hn with rfl | rfl
    · exact List.mem_cons_self ..
    · exact List.mem_cons_of_mem _ (List.mem_cons_self ..)
  have hnot := h d (by
    rw [hsplit]
    exact List.mem_append_left v (List.mem_append_right u hmem))
  rw [hds d (List.mem_cons_self ..)] at hnot
  cases hnot

theorem fits_blanks (h : Blanks w) : Fits w :=
  fits_of_isDigit fun c hc => isDigit_of_isBlank (h c hc)

/-- In a word no numeral begins. -/
theorem fits_word (h : IsWord w) : Fits w := by
  intro u n v hsplit hover
  obtain ⟨d, n, rfl⟩ := List.exists_cons_of_ne_nil (numeral_ne_nil hover.numeral)
  by_cases hu : u = []
  · subst hu
    obtain ⟨c, cs, rfl, hc, -⟩ := h
    obtain ⟨rfl, -⟩ := List.cons.inj hsplit
    obtain ⟨hdigit, hsign⟩ := isDigit_of_isInitial (isInitial_iff.mpr hc)
    rcases isDigit_or_sign hover.numeral c (List.mem_cons_self ..) with hdigit' | rfl
    · rw [hdigit] at hdigit'
      cases hdigit'
    · exact hsign rfl
  · have hmem : u.getLast hu ∈ w := by
      rw [hsplit, List.append_assoc]
      exact List.mem_append_left _ (List.getLast_mem hu)
    have hword := (hover.fresh _ (List.getLast?_eq_some_getLast hu)).1
    rw [isWordChar_of_isWord h _ hmem] at hword
    cases hword

theorem fits_numeral {k : Int64} (h : IsNumeral n) (hk : int64? n = some k) : Fits n := by
  intro u m v hsplit hover
  rw [List.append_assoc] at hsplit
  by_cases hu : u = []
  · subst hu
    have heq := numeral_unique h endsAt_nil hover.numeral hover.ends
      ((List.append_nil n).trans hsplit)
    rw [heq, hover.int64?_eq] at hk
    cases hk
  · rw [hsplit] at h
    exact not_fresh h hu [] hover.fresh

end

end ConstraintNet.Reading
