import ConstraintNet.Proofs.Grammar.Basic
import ConstraintNet.Reading.Parse

/-! How deep operands nest.

The parentheses of a text are counted before anything is read (`overnested`). In a
text of a term none but those around operands are there to be counted, and they are
balanced: so the count passes the text exactly if the operands of the term nest no
deeper than it allows (`overnested_derives`). -/
namespace ConstraintNet

namespace Term

mutual

/-- The applications on the way down to the deepest leaf, or operator without operands. -/
def nesting : Term → Nat
  | .name _ => 0
  | .literal _ _ => 0
  | .application _ _ operands => nestingOf operands + 1

/-- The nesting of the deepest of some terms, zero if there is none. -/
def nestingOf : List Term → Nat
  | [] => 0
  | term :: terms => max term.nesting (nestingOf terms)

end

end Term

namespace Grammar
open Text (byteLength byteLength_append isBlank)
open Text.Decimal (IsNumeral)

/-! ### Texts without parentheses -/

/-- No parenthesis to be counted. -/
def Flat (w : List Char) : Prop :=
  ∀ c ∈ w, c ≠ '(' ∧ c ≠ ')'

instance (w : List Char) : Decidable (Flat w) :=
  List.decidableBAll (fun c => c ≠ '(' ∧ c ≠ ')') w

theorem Flat.append {v w : List Char} (hv : Flat v) (hw : Flat w) : Flat (v ++ w) :=
  fun c hc => (List.mem_append.mp hc).elim (hv c) (hw c)

/-- No class of characters that a token is made of holds a parenthesis. -/
theorem flat_of_class (accept : Char → Bool) (hopening : accept '(' = false)
    (hclosing : accept ')' = false) {w : List Char} (h : ∀ c ∈ w, accept c = true) : Flat w := by
  intro c hc
  have haccept := h c hc
  constructor
  · rintro rfl
    rw [hopening] at haccept
    cases haccept
  · rintro rfl
    rw [hclosing] at haccept
    cases haccept

theorem Blanks.flat {b : List Char} (h : Blanks b) : Flat b :=
  flat_of_class isBlank (by decide) (by decide) h

theorem IsWord.flat {x : List Char} (h : IsWord x) : Flat x := by
  obtain ⟨c, cs, rfl, hc, hcs⟩ := h
  refine flat_of_class (fun c => c.isAlphanum || c == '_') (by decide) (by decide) fun d hd => ?_
  have hd' : d.isAlphanum = true ∨ d = '_' := by
    rcases List.mem_cons.mp hd with rfl | hd
    · exact hc.imp (fun h => by rw [Char.isAlphanum, h, Bool.true_or]) id
    · exact hcs d hd
  rwa [Bool.or_eq_true, beq_iff_eq]

theorem flat_numeral {x : List Char} (h : IsNumeral x) : Flat x := by
  obtain ⟨ds, -, hds, hx⟩ := h
  have hflat : Flat ds := flat_of_class Char.isDigit (by decide) (by decide) hds
  rcases hx with rfl | rfl
  · exact hflat
  · exact Flat.append (v := ['-']) (by decide) hflat

theorem Spaced.flat {x w : List Char} (h : Spaced x w) (hx : Flat x) : Flat w := by
  obtain ⟨b, a, hb, ha, rfl⟩ := h
  exact (hb.flat.append hx).append ha.flat

theorem Following.flat {α : Type} {P : α → List Char → Prop} {as : List α} {w : List Char}
    (h : Following P as w) (hP : ∀ a w, P a w → Flat w) : Flat w := by
  induction h with
  | nil => exact nofun
  | cons hcomma hitem _ ih => exact ((hcomma.flat (by decide)).append (hP _ _ hitem)).append ih

theorem DerivesParameter.flat {fits : List Char → Int64 → Prop} {p : Parameter} {w : List Char}
    (h : DerivesParameter fits p w) : Flat w := by
  cases h with
  | integer hn _ hw => exact hw.flat (flat_numeral hn)
  | symbol hx hw => exact hw.flat hx.flat

theorem DerivesBlock.flat {fits : List Char → Int64 → Prop} {ps : List Parameter} {w : List Char}
    (h : DerivesBlock fits ps w) : Flat w := by
  rcases h with ⟨-, rfl⟩ | ⟨-, u, v, x, hu, hv, hx, rfl⟩
  · exact nofun
  · have hlist : Flat v := by
      cases hv with
      | none => exact nofun
      | some hitem hrest => exact hitem.flat.append (hrest.flat fun _ _ => DerivesParameter.flat)
    exact ((hu.flat (by decide)).append hlist).append (hx.flat (by decide))

/-! ### Counting -/

section Counting
variable {limit depth j k : Nat} {v w : List Char}

theorem overnested_flat (h : Flat w) (offset : Nat) (v : List Char) :
    overnested limit depth offset (w ++ v) = overnested limit depth (offset + byteLength w) v := by
  induction w generalizing offset with
  | nil => rfl
  | cons c w ih =>
    obtain ⟨hopening, hclosing⟩ := h c (List.mem_cons_self ..)
    rw [List.cons_append, overnested, if_neg hopening, if_neg hclosing,
      ih fun d hd => h d (List.mem_cons_of_mem _ hd), byteLength, Nat.add_assoc]

/-- A parenthesis between blanks opens a level, if there is one left. -/
theorem overnested_opening {u : List Char} (hu : Spaced ['('] u) (offset : Nat) (v : List Char) :
    (depth < limit → overnested limit depth offset (u ++ v) =
        overnested limit (depth + 1) (offset + byteLength u) v) ∧
      (limit ≤ depth → (overnested limit depth offset (u ++ v)).isSome = true) := by
  obtain ⟨b, a, hb, ha, rfl⟩ := hu
  rw [List.append_assoc, List.append_assoc, overnested_flat hb.flat, List.append_assoc]
  constructor
  · intro hlt
    rw [List.cons_append, overnested, if_pos rfl, if_pos hlt, List.nil_append, overnested_flat ha.flat,
      byteLength_append, byteLength_append, byteLength, byteLength]
    congr 1
    omega
  · intro hle
    rw [List.cons_append, overnested, if_pos rfl, if_neg (Nat.not_lt.mpr hle)]
    rfl

/-- And one closes it. -/
theorem overnested_closing {u : List Char} (hu : Spaced [')'] u) (offset : Nat) (v : List Char) :
    overnested limit (depth + 1) offset (u ++ v) = overnested limit depth (offset + byteLength u) v := by
  obtain ⟨b, a, hb, ha, rfl⟩ := hu
  rw [List.append_assoc, List.append_assoc, overnested_flat hb.flat, List.append_assoc, List.cons_append,
    overnested, if_neg (by decide), if_pos rfl, List.nil_append, overnested_flat ha.flat,
    byteLength_append, byteLength_append, byteLength, byteLength]
  show overnested limit depth _ v = _
  congr 1
  omega

/-- With `depth` levels open, the count passes a text that opens `k` more and closes
them again, unless these are too many. -/
structure Balanced (limit depth k : Nat) (w : List Char) : Prop where
  pass : depth + k ≤ limit → ∀ offset v,
    overnested limit depth offset (w ++ v) = overnested limit depth (offset + byteLength w) v
  stop : limit < depth + k → ∀ offset v, (overnested limit depth offset (w ++ v)).isSome = true

theorem Flat.balanced (h : Flat w) (hdepth : depth ≤ limit) : Balanced limit depth 0 w :=
  ⟨fun _ => overnested_flat h, fun hlt => absurd hlt (Nat.not_lt.mpr hdepth)⟩

theorem Balanced.append (hv : Balanced limit depth j v) (hw : Balanced limit depth k w) :
    Balanced limit depth (max j k) (v ++ w) := by
  constructor
  · intro hle offset x
    rw [List.append_assoc, hv.pass (by omega), hw.pass (by omega), byteLength_append, Nat.add_assoc]
  · intro hlt offset x
    rw [List.append_assoc]
    by_cases hj : limit < depth + j
    · exact hv.stop hj offset _
    · rw [hv.pass (by omega)]
      exact hw.stop (by omega) _ x

theorem Balanced.flat_append (hv : Flat v) (hdepth : depth ≤ limit) (hw : Balanced limit depth k w) :
    Balanced limit depth k (v ++ w) := by
  have h := (hv.balanced hdepth).append hw
  rwa [Nat.zero_max] at h

/-- Parentheses around a text open one level more. -/
theorem Balanced.enclose {u x y : List Char} (hu : Spaced ['('] u)
    (hx : depth < limit → Balanced limit (depth + 1) k x) (hy : Spaced [')'] y) :
    Balanced limit depth (k + 1) (u ++ x ++ y) := by
  constructor
  · intro hle offset v
    have hlt : depth < limit := by omega
    rw [List.append_assoc, List.append_assoc, (overnested_opening hu _ _).1 hlt,
      (hx hlt).pass (by omega), overnested_closing hy, byteLength_append, byteLength_append,
      Nat.add_assoc, Nat.add_assoc, Nat.add_assoc]
  · intro hlt offset v
    rw [List.append_assoc, List.append_assoc]
    by_cases hroom : depth < limit
    · rw [(overnested_opening hu _ _).1 hroom]
      exact (hx hroom).stop (by omega) _ _
    · exact (overnested_opening hu _ _).2 (Nat.not_lt.mp hroom)

end Counting

/-! ### Terms -/

section Terms
variable {fits : List Char → Int64 → Prop} {limit : Nat}

mutual

theorem balanced_derives (t : Term) {depth : Nat} (hdepth : depth ≤ limit) {w : List Char}
    (h : Derives fits t w) : Balanced limit depth t.nesting w := by
  cases h with
  | literal hn _ hw => exact (hw.flat (flat_numeral hn)).balanced hdepth
  | @application f ps ts u v w x y hf hu hblock hopening hlist hclosing =>
    refine Balanced.flat_append ((hu.flat hf.flat).append hblock.flat) hdepth ?_
    refine Balanced.enclose hopening (fun hlt => ?_) hclosing
    cases hlist with
    | none => exact Flat.balanced nofun hlt
    | some hitem hrest =>
      exact (balanced_derives _ hlt hitem).append (balanced_following _ hlt hrest)
  | name hx hw => exact (hw.flat hx.flat).balanced hdepth

theorem balanced_following (ts : List Term) {depth : Nat} (hdepth : depth ≤ limit) {w : List Char}
    (h : Following (Derives fits) ts w) : Balanced limit depth (Term.nestingOf ts) w := by
  cases h with
  | nil => exact Flat.balanced nofun hdepth
  | cons hcomma hitem hrest =>
    refine Balanced.append ?_ (balanced_following _ hdepth hrest)
    exact Balanced.flat_append (hcomma.flat (by decide)) hdepth (balanced_derives _ hdepth hitem)

end

/-- The count passes the text of a term exactly if its operands nest no deeper than
it allows. -/
theorem overnested_derives {t : Term} {w : List Char} (h : Derives fits t w) :
    overnested limit 0 0 w = none ↔ t.nesting ≤ limit := by
  have hbalanced := balanced_derives t (Nat.zero_le limit) h
  constructor
  · intro hnone
    refine Nat.not_lt.mp fun hlt => ?_
    have hsome := hbalanced.stop (by omega) 0 []
    rw [List.append_nil, hnone] at hsome
    cases hsome
  · intro hle
    have hpass := hbalanced.pass (by omega) 0 []
    rw [List.append_nil] at hpass
    rw [hpass]
    rfl

end Terms

end Grammar

end ConstraintNet
