import ConstraintNet.Proofs.Reading.Parse
import ConstraintNet.Term.Canonical

/-! Which terms survive being written and read.

A term may be built by hand from any texts. It is well formed if these are words
and numerals of its values, wherever they stand in it, and if its operands nest no
deeper than may be read.

`parse_canonical_iff`: the canonical form of a term is read as that term exactly if
the term is well formed, and whatever is read is. -/
namespace ConstraintNet
open Text.Decimal (IsNumeral)
open Grammar

/-! ### Well-formed terms -/

def Parameter.Spelled : Parameter → Prop
  | .integer _ => True
  | .symbol name => IsWord name.toList

namespace Term

/-- The text at the root is a word, or a numeral of the value, and the parameters
there are integers and words. -/
def Spelled : Term → Prop
  | .name text => IsWord text.toList
  | .literal text value => IsNumeral text.toList ∧ InRange text.toList value
  | .application operator parameters _ => IsWord operator.toList ∧ ∀ p ∈ parameters, p.Spelled

structure WellFormed (t : Term) : Prop where
  spelled : ∀ s ∈ t.subterms, s.Spelled
  nesting : t.nesting ≤ nestingLimit

end Term

/-! ### What is read is well formed -/

theorem Parameter.spelled_of_derives {p : Parameter} {w : List Char}
    (h : DerivesParameter InRange p w) : p.Spelled := by
  cases h with
  | integer => trivial
  | symbol hx _ =>
    rw [Spelled, String.toList_ofList]
    exact hx

theorem Parameter.spelled_of_block {ps : List Parameter} {w : List Char}
    (h : DerivesBlock InRange ps w) : ∀ p ∈ ps, p.Spelled := by
  rcases h with ⟨rfl, -⟩ | ⟨-, u, v, x, -, hlist, -, -⟩
  · exact nofun
  · intro p hp
    obtain ⟨w, hw⟩ := hlist.exists_text p hp
    exact spelled_of_derives hw

namespace Term

mutual

theorem spelled_of_derives (t : Term) {w : List Char} (h : Derives InRange t w) :
    ∀ s ∈ t.subterms, s.Spelled := by
  cases h with
  | literal hn hvalue _ =>
    intro s hs
    obtain rfl := List.mem_singleton.mp hs
    rw [Spelled, String.toList_ofList]
    exact ⟨hn, hvalue⟩
  | @application f ps ts _ _ _ _ _ hf _ hblock _ hlist _ =>
    intro s hs
    rcases List.mem_cons.mp hs with rfl | hs
    · rw [Spelled, String.toList_ofList]
      exact ⟨hf, Parameter.spelled_of_block hblock⟩
    · exact spelledOf_of_derives ts hlist.exists_text s hs
  | name hx _ =>
    intro s hs
    obtain rfl := List.mem_singleton.mp hs
    rw [Spelled, String.toList_ofList]
    exact hx

theorem spelledOf_of_derives (ts : List Term) (h : ∀ t ∈ ts, ∃ w, Derives InRange t w) :
    ∀ s ∈ subtermsOf ts, s.Spelled := by
  cases ts with
  | nil => exact nofun
  | cons t ts =>
    intro s hs
    obtain ⟨w, hw⟩ := h t (List.mem_cons_self ..)
    rcases List.mem_append.mp hs with hs | hs
    · exact spelled_of_derives t hw s hs
    · exact spelledOf_of_derives ts (fun t ht => h t (List.mem_cons_of_mem _ ht)) s hs

end

end Term

/-! ### What is well formed is read -/

theorem Parameter.derives_chars {p : Parameter} (h : p.Spelled) :
    DerivesParameter InRange p p.chars := by
  cases p with
  | integer value =>
    exact .integer (Text.Decimal.isNumeral_chars _) (Text.Decimal.value_chars _) (.refl _)
  | symbol name =>
    have hword : DerivesParameter InRange (.symbol (String.ofList name.toList)) name.toList :=
      .symbol h (.refl _)
    rwa [String.ofList_toList] at hword

theorem Parameter.derives_block {ps : List Parameter} (h : ∀ p ∈ ps, p.Spelled) :
    DerivesBlock InRange ps (Parameter.block ps) := by
  cases ps with
  | nil => exact .inl ⟨rfl, rfl⟩
  | cons p ps =>
    refine .inr ⟨List.cons_ne_nil p ps, ['\x7b'], _, ['\x7d'], .refl _, ?_, .refl _, rfl⟩
    exact Listed.intercalate fun p hp => derives_chars (h p hp)

namespace Term

mutual

theorem derives_chars (t : Term) (h : ∀ s ∈ t.subterms, s.Spelled) : Derives InRange t t.chars := by
  cases t with
  | name text =>
    have hword : IsWord text.toList := h _ (List.mem_singleton_self _)
    have hderives : Derives InRange (.name (String.ofList text.toList)) text.toList :=
      .name hword (.refl _)
    rwa [String.ofList_toList] at hderives
  | literal text value =>
    obtain ⟨hn, hvalue⟩ : IsNumeral text.toList ∧ InRange text.toList value :=
      h _ (List.mem_singleton_self _)
    have hderives := Derives.literal hn hvalue (.refl _)
    rwa [String.ofList_toList] at hderives
  | application operator ps ts =>
    obtain ⟨hf, hps⟩ : IsWord operator.toList ∧ ∀ p ∈ ps, p.Spelled := h _ (List.mem_cons_self ..)
    have hts := derivesOf_chars ts fun s hs => h s (List.mem_cons_of_mem _ hs)
    have hderives := Derives.application hf (.refl _) (Parameter.derives_block hps) (.refl ['('])
      (Listed.intercalate hts) (.refl [')'])
    rw [String.ofList_toList] at hderives
    rw [chars, charsOf_eq_map, List.append_assoc]
    exact hderives

theorem derivesOf_chars (ts : List Term) (h : ∀ s ∈ subtermsOf ts, s.Spelled) :
    ∀ t ∈ ts, Derives InRange t t.chars := by
  cases ts with
  | nil => exact nofun
  | cons t ts =>
    intro s hs
    rcases List.mem_cons.mp hs with heq | hs
    · rw [heq]
      exact derives_chars t fun r hr => h r (List.mem_append_left _ hr)
    · exact derivesOf_chars ts (fun r hr => h r (List.mem_append_right _ hr)) s hs

end

theorem WellFormed.of_parse {s : String} {t : Term} (h : parse s = .ok t) : t.WellFormed := by
  obtain ⟨hderives, hnesting⟩ := parse_ok_iff.mp h
  exact ⟨spelled_of_derives t hderives, hnesting⟩

theorem WellFormed.parse_canonical {t : Term} (h : t.WellFormed) : parse t.canonical = .ok t := by
  rw [parse_ok_iff, toList_canonical]
  exact ⟨derives_chars t h.spelled, h.nesting⟩

theorem parse_canonical_iff :
    (∀ t : Term, parse t.canonical = .ok t ↔ t.WellFormed) ∧
      ∀ (s : String) (t : Term), parse s = .ok t → t.WellFormed ∧ parse t.canonical = parse s := by
  refine ⟨fun t => ⟨.of_parse, WellFormed.parse_canonical⟩, fun s t h => ?_⟩
  have ht := WellFormed.of_parse h
  exact ⟨ht, ht.parse_canonical.trans h.symm⟩

/-- A text with blanks and its canonical form are read alike. -/
theorem parse_canonical_distance :
    let t := application "dist" [.integer 3] [.name "x", .literal "-07" (-7)]
    parse "dist\x7b 003 \x7d(x, -07)" = .ok t ∧ t.WellFormed ∧
      parse t.canonical = parse "dist\x7b 003 \x7d(x, -07)" := by
  have hread : parse "dist\x7b 003 \x7d(x, -07)" =
      .ok (application "dist" [.integer 3] [.name "x", .literal "-07" (-7)]) := by decide +kernel
  exact ⟨hread, parse_canonical_iff.2 _ _ hread⟩

end Term

end ConstraintNet
