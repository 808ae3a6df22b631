/-! Blanks.

A blank is a character with the Unicode property White_Space. The property is a
table of ten ranges, `Blank.ranges`. Every character that core calls white space
is in it (`isBlank_of_isWhitespace`), and among the first 128 code points it
holds the controls from tab to carriage return, space, and no other
(`isBlank_ascii`): so no character of a word, a number or a delimiter is blank. -/
namespace ConstraintNet.Text

/-- The code points of White_Space, as first and last of each range. -/
def Blank.ranges : List (Nat × Nat) :=
  [(0x0009, 0x000D), (0x0020, 0x0020), (0x0085, 0x0085), (0x00A0, 0x00A0), (0x1680, 0x1680),
    (0x2000, 0x200A), (0x2028, 0x2029), (0x202F, 0x202F), (0x205F, 0x205F), (0x3000, 0x3000)]

def isBlank (c : Char) : Bool :=
  Blank.ranges.any fun r => r.1 ≤ c.toNat && c.toNat ≤ r.2

theorem isBlank_iff (c : Char) :
    isBlank c = true ↔ ∃ r ∈ Blank.ranges, r.1 ≤ c.toNat ∧ c.toNat ≤ r.2 := by
  simp only [isBlank, List.any_eq_true, Bool.and_eq_true, decide_eq_true_eq]

theorem isBlank_of_isWhitespace (c : Char) (h : c.isWhitespace = true) : isBlank c = true := by
  simp only [Char.isWhitespace, Bool.or_eq_true, decide_eq_true_eq] at h
  rcases h with ((rfl | rfl) | rfl) | rfl <;> decide

/-- The blanks among the first 128 code points are the controls from tab to
carriage return, and space. -/
theorem isBlank_ascii (c : Char) (h : c.toNat < 128) :
    isBlank c = true ↔ (9 ≤ c.toNat ∧ c.toNat ≤ 13) ∨ c.toNat = 32 := by
  rw [isBlank_iff]
  simp only [Blank.ranges, List.mem_cons, List.not_mem_nil, or_false]
  constructor
  · rintro ⟨r, hr, hl, hu⟩
    rcases hr with rfl | rfl | rfl | rfl | rfl | rfl | rfl | rfl | rfl | rfl <;>
      simp only at hl hu <;> omega
  · rintro (⟨hl, hu⟩ | h)
    · exact ⟨_, Or.inl rfl, hl, hu⟩
    · exact ⟨_, Or.inr (Or.inl rfl), by simp only; omega, by simp only; omega⟩

end ConstraintNet.Text
