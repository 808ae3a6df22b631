import ConstraintNet.Proofs.Reading.RoundTrip
import Mathlib.Data.List.Forall2

/-! Taking texts apart.

A text may be put together from words and numerals, with marks between them. Neither has
a character of a mark in it (`Solid`), so each ends where the next mark begins, and there
is only one way to take the text apart again: into lines (`lines_apart`), into items with
commas between (`commas_apart`), and into what stands before a mark and behind it
(`apart`). -/
namespace ConstraintNet
open Text.Decimal (IsNumeral)
open Grammar (IsWord)
open Reading (isWordChar)

namespace Listing

/-! ### Taking texts apart -/

section
variable {α : Type} {x y v w : List α}

/-- What is of a class ends where something else begins. -/
theorem apart {accept : α → Bool} (hx : ∀ a ∈ x, accept a = true) (hy : ∀ a ∈ y, accept a = true)
    (hv : ∀ a, v.head? = some a → accept a = false) (hw : ∀ a, w.head? = some a → accept a = false)
    (h : x ++ v = y ++ w) : x = y ∧ v = w := by
  induction x generalizing y with
  | nil =>
    cases y with
    | nil => exact ⟨rfl, h⟩
    | cons b y =>
      have hb := hv b (congrArg List.head? h)
      rw [hy b (List.mem_cons_self ..)] at hb
      cases hb
  | cons a x ih =>
    cases y with
    | nil =>
      have ha := hw a (congrArg List.head? h.symm)
      rw [hx a (List.mem_cons_self ..)] at ha
      cases ha
    | cons b y =>
      obtain ⟨rfl, htail⟩ := List.cons.inj h
      obtain ⟨rfl, hrest⟩ := ih (fun c hc => hx c (List.mem_cons_of_mem _ hc))
        (fun c hc => hy c (List.mem_cons_of_mem _ hc)) htail
      exact ⟨rfl, hrest⟩

/-- What does not have `a` in it ends where `a` stands. -/
theorem apart_at [DecidableEq α] {a : α} (hx : a ∉ x) (hy : a ∉ y) (h : x ++ a :: v = y ++ a :: w) :
    x = y ∧ v = w := by
  have hne : ∀ {z : List α}, a ∉ z → ∀ b ∈ z, decide (b ≠ a) = true := fun hz b hb =>
    decide_eq_true (ne_of_mem_of_not_mem hb hz)
  have hstop : ∀ {z : List α} b, (a :: z).head? = some b → decide (b ≠ a) = false := by
    rintro z b ⟨⟩
    simp
  obtain ⟨hfirst, hrest⟩ := apart (hne hx) (hne hy) hstop hstop h
  exact ⟨hfirst, (List.cons.inj hrest).2⟩

end

/-- Lists that look the same are related item by item. -/
theorem forall₂_of_map_eq {α β γ : Type} {f : α → γ} {g : β → γ} {R : α → β → Prop} {xs : List α}
    {ys : List β} (h : xs.map f = ys.map g) (hR : ∀ x ∈ xs, ∀ y ∈ ys, f x = g y → R x y) :
    List.Forall₂ R xs ys := by
  induction xs generalizing ys with
  | nil =>
    rw [List.map_eq_nil_iff.mp h.symm]
    exact .nil
  | cons x xs ih =>
    cases ys with
    | nil => cases h
    | cons y ys =>
      obtain ⟨hfirst, hrest⟩ := List.cons.inj h
      refine .cons (hR x (List.mem_cons_self ..) y (List.mem_cons_self ..) hfirst) ?_
      exact ih hrest fun x hx y hy => hR x (List.mem_cons_of_mem _ hx) y (List.mem_cons_of_mem _ hy)

/-- A text has only one division into lines. -/
theorem lines_apart {ls ms : List (List Char)} (hl : ∀ l ∈ ls, '\n' ∉ l) (hm : ∀ m ∈ ms, '\n' ∉ m)
    (h : ls.flatMap (· ++ ['\n']) = ms.flatMap (· ++ ['\n'])) : ls = ms := by
  induction ls generalizing ms with
  | nil =>
    cases ms with
    | nil => rfl
    | cons m ms => simp at h
  | cons l ls ih =>
    cases ms with
    | nil => simp at h
    | cons m ms =>
      simp only [List.flatMap_cons, List.append_assoc, List.singleton_append] at h
      obtain ⟨rfl, hrest⟩ :=
        apart_at (hl l (List.mem_cons_self ..)) (hm m (List.mem_cons_self ..)) h
      rw [ih (fun l h => hl l (List.mem_cons_of_mem _ h)) (fun m h => hm m (List.mem_cons_of_mem _ h))
        hrest]

/-! ### Solid texts -/

/-- A character of a word or of a numeral. -/
def isSolid (c : Char) : Bool :=
  isWordChar c || c == '-'

/-- A text of such characters, and not of none. -/
structure Solid (x : List Char) : Prop where
  ne_nil : x ≠ []
  all : ∀ c ∈ x, isSolid c = true

theorem isSolid_of_isWordChar {c : Char} (h : isWordChar c = true) : isSolid c = true := by
  rw [isSolid, h, Bool.true_or]

theorem solid_of_isWord {x : List Char} (h : IsWord x) : Solid x := by
  refine ⟨?_, fun c hc => isSolid_of_isWordChar (Reading.isWordChar_of_isWord h c hc)⟩
  obtain ⟨c, cs, rfl, -⟩ := h
  exact List.cons_ne_nil c cs

theorem solid_of_isNumeral {x : List Char} (h : IsNumeral x) : Solid x := by
  obtain ⟨ds, hne, hds, hx⟩ := h
  have hdigit : ∀ d ∈ ds, isSolid d = true := fun d hd =>
    isSolid_of_isWordChar (Reading.isWordChar_of_isDigit (hds d hd))
  rcases hx with rfl | rfl
  · exact ⟨hne, hdigit⟩
  · exact ⟨List.cons_ne_nil _ _, List.forall_mem_cons.mpr ⟨by decide, hdigit⟩⟩

/-- No word is a numeral. -/
theorem not_isNumeral_of_isWord {x : List Char} (h : IsWord x) : ¬IsNumeral x := by
  obtain ⟨c, cs, rfl, hc, -⟩ := h
  obtain ⟨hdigit, hsign⟩ := Reading.isDigit_of_isInitial (Reading.isInitial_iff.mpr hc)
  rintro ⟨ds, -, hds, rfl | hx⟩
  · rw [hds c (List.mem_cons_self ..)] at hdigit
    cases hdigit
  · exact hsign (List.cons.inj hx).1

theorem Solid.newline_notMem {x : List Char} (h : Solid x) : '\n' ∉ x := by
  intro hmem
  exact absurd (h.all _ hmem) (by decide)

/-! ### Commas -/

theorem commas_cons (x : List Char) (xs : List (List Char)) :
    [',', ' '].intercalate (x :: xs) = x ++ xs.flatMap fun y => ',' :: ' ' :: y := by
  induction xs generalizing x with
  | nil => exact List.intercalate_singleton.trans (List.append_nil x).symm
  | cons y ys ih =>
    rw [List.intercalate_cons_cons, ih, List.flatMap_cons, List.append_assoc]
    rfl

theorem newline_notMem_commas {xs : List (List Char)} (h : ∀ x ∈ xs, Solid x) :
    '\n' ∉ [',', ' '].intercalate xs := by
  cases xs with
  | nil => exact List.not_mem_nil
  | cons x xs =>
    obtain ⟨hx, hxs⟩ := List.forall_mem_cons.mp h
    rw [commas_cons, List.mem_append, List.mem_flatMap, not_or]
    refine ⟨hx.newline_notMem, ?_⟩
    rintro ⟨y, hy, hmem⟩
    simp only [List.mem_cons, (hxs y hy).newline_notMem, or_false] at hmem
    exact absurd hmem (by decide)

section
variable {xs ys : List (List Char)} {c : Char} {v w : List Char}

/-- Behind an item stands a comma, or what stands behind all items. -/
theorem isSolid_head_following (hc : isSolid c = false) (xs : List (List Char)) (v : List Char) :
    ∀ d, (xs.flatMap (fun y => ',' :: ' ' :: y) ++ c :: v).head? = some d → isSolid d = false := by
  cases xs with
  | nil =>
    rintro d ⟨⟩
    exact hc
  | cons x xs =>
    rintro d ⟨⟩
    decide

theorem following_apart (hx : ∀ x ∈ xs, Solid x) (hy : ∀ y ∈ ys, Solid y) (hc : isSolid c = false)
    (hcomma : c ≠ ',') (h : xs.flatMap (fun y => ',' :: ' ' :: y) ++ c :: v =
      ys.flatMap (fun y => ',' :: ' ' :: y) ++ c :: w) : xs = ys ∧ v = w := by
  induction xs generalizing ys with
  | nil =>
    cases ys with
    | nil => exact ⟨rfl, (List.cons.inj h).2⟩
    | cons y ys => exact absurd (List.cons.inj h).1 hcomma
  | cons x xs ih =>
    cases ys with
    | nil => exact absurd (List.cons.inj h).1.symm hcomma
    | cons y ys =>
      obtain ⟨hx, hxs⟩ := List.forall_mem_cons.mp hx
      obtain ⟨hy, hys⟩ := List.forall_mem_cons.mp hy
      simp only [List.flatMap_cons, List.cons_append, List.append_assoc] at h
      obtain ⟨rfl, hrest⟩ := apart hx.all hy.all (isSolid_head_following hc xs v)
        (isSolid_head_following hc ys w) (List.cons.inj (List.cons.inj h).2).2
      obtain ⟨rfl, hlast⟩ := ih hxs hys hrest
      exact ⟨rfl, hlast⟩

/-- Items with commas between are told apart, up to where a mark follows. -/
theorem commas_apart (hx : ∀ x ∈ xs, Solid x) (hy : ∀ y ∈ ys, Solid y) (hc : isSolid c = false)
    (hcomma : c ≠ ',') (h : [',', ' '].intercalate xs ++ c :: v = [',', ' '].intercalate ys ++ c :: w) :
    xs = ys ∧ v = w := by
  have hmark : ∀ {z r r'}, Solid z → c :: r ≠ z ++ r' := by
    intro z r r' hz heq
    cases z with
    | nil => exact hz.ne_nil rfl
    | cons d z =>
      have hd := hz.all d (List.mem_cons_self ..)
      rw [← (List.cons.inj heq).1, hc] at hd
      cases hd
  cases xs with
  | nil =>
    cases ys with
    | nil => exact ⟨rfl, (List.cons.inj h).2⟩
    | cons y ys =>
      rw [commas_cons, List.append_assoc] at h
      exact absurd h (hmark (hy y (List.mem_cons_self ..)))
  | cons x xs =>
    cases ys with
    | nil =>
      rw [commas_cons, List.append_assoc] at h
      exact absurd h.symm (hmark (hx x (List.mem_cons_self ..)))
    | cons y ys =>
      obtain ⟨hx, hxs⟩ := List.forall_mem_cons.mp hx
      obtain ⟨hy, hys⟩ := List.forall_mem_cons.mp hy
      rw [commas_cons, commas_cons, List.append_assoc, List.append_assoc] at h
      obtain ⟨rfl, hrest⟩ := apart hx.all hy.all (isSolid_head_following hc xs v)
        (isSolid_head_following hc ys w) h
      obtain ⟨rfl, hlast⟩ := following_apart hxs hys hc hcomma hrest
      exact ⟨rfl, hlast⟩

end

end Listing

open Listing

/-! ### Parameters -/

theorem Text.Decimal.chars_inj {i j : Int} (h : chars i = chars j) : i = j := by
  rw [← value_chars i, h, value_chars]

theorem Parameter.solid_chars {p : Parameter} (h : p.Spelled) : Solid p.chars := by
  cases p with
  | integer value => exact solid_of_isNumeral (Text.Decimal.isNumeral_chars _)
  | symbol name => exact solid_of_isWord h

theorem Parameter.solid_map_chars {ps : List Parameter} (h : ∀ p ∈ ps, p.Spelled) :
    ∀ x ∈ ps.map chars, Solid x := by
  intro x hx
  obtain ⟨p, hp, rfl⟩ := List.mem_map.mp hx
  exact solid_chars (h p hp)

theorem Parameter.chars_inj {p q : Parameter} (hp : p.Spelled) (hq : q.Spelled)
    (h : p.chars = q.chars) : p = q := by
  cases p with
  | integer value =>
    cases q with
    | integer other =>
      exact congrArg Parameter.integer (Int64.toInt_inj.mp (Text.Decimal.chars_inj h))
    | symbol name =>
      have hnumeral : IsNumeral (Parameter.integer value).chars := Text.Decimal.isNumeral_chars _
      rw [h] at hnumeral
      exact absurd hnumeral (not_isNumeral_of_isWord hq)
  | symbol name =>
    cases q with
    | integer value =>
      have hnumeral : IsNumeral (Parameter.integer value).chars := Text.Decimal.isNumeral_chars _
      rw [← h] at hnumeral
      exact absurd hnumeral (not_isNumeral_of_isWord hp)
    | symbol other => exact congrArg Parameter.symbol (String.toList_inj.mp h)

theorem Parameter.map_chars_inj {ps qs : List Parameter} (hp : ∀ p ∈ ps, p.Spelled)
    (hq : ∀ q ∈ qs, q.Spelled) (h : ps.map chars = qs.map chars) : ps = qs := by
  induction ps generalizing qs with
  | nil => exact (List.map_eq_nil_iff.mp h.symm).symm
  | cons p ps ih =>
    cases qs with
    | nil => cases h
    | cons q qs =>
      obtain ⟨hp, hps⟩ := List.forall_mem_cons.mp hp
      obtain ⟨hq, hqs⟩ := List.forall_mem_cons.mp hq
      obtain ⟨hfirst, hrest⟩ := List.cons.inj h
      rw [chars_inj hp hq hfirst, ih hps hqs hrest]

end ConstraintNet
