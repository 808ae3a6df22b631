import ConstraintNet.Proofs.Grammar.Nesting
import ConstraintNet.Proofs.Reading.Texts

/-! What a text is parsed as.

`parse_iff_derives`: a text is parsed as a term exactly if it is a text of that term
and its operands nest no deeper than allowed, and no text is one of two terms.

`parse_error_divides`: the span of any other error divides the text where it can no
longer be completed. Some text of a term begins with what is before the span. None
begins with what is before the end of the span, and if the span is empty it is at
the end of the text, which is no text of a term as it stands. -/
namespace ConstraintNet
open Text (byteLength byteLength_append)
open Grammar (InRange Derives IsText overnested_derives)
open Reading (wholeText wholeText_read_iff wholeText_refused derives_unique)

namespace Term

/-! ### Terms -/

theorem parse_ok_iff {s : String} {t : Term} :
    parse s = .ok t ↔ Derives InRange t s.toList ∧ t.nesting ≤ nestingLimit := by
  unfold parse
  constructor
  · intro h
    split at h
    · cases h
    next hnesting =>
      split at h
      next t' state hread =>
        obtain rfl := Except.ok.inj h
        have hderives := wholeText_read_iff.mp ⟨state, hread⟩
        exact ⟨hderives, (overnested_derives hderives).mp hnesting⟩
      next => cases h
  · rintro ⟨hderives, hnesting⟩
    obtain ⟨state, hread⟩ := wholeText_read_iff.mpr hderives
    rw [(overnested_derives hderives).mpr hnesting, hread]

theorem parse_iff_derives :
    (∀ (s : String) (t : Term),
        parse s = .ok t ↔ Derives InRange t s.toList ∧ t.nesting ≤ nestingLimit) ∧
      ∀ (s : String) (t t' : Term), Derives InRange t s.toList → Derives InRange t' s.toList → t = t' :=
  ⟨fun _ _ => parse_ok_iff, fun _ _ _ => derives_unique⟩

/-- A text of a distance: what it is parsed as is the only term it is a text of. -/
theorem parse_distance :
    let t := application "dist" [.integer 3, .symbol "p"] [.name "x", .literal "-07" (-7)]
    Derives InRange t "dist\x7b 3, p \x7d(x, -07)".toList ∧ t.nesting ≤ nestingLimit ∧
      ∀ t', Derives InRange t' "dist\x7b 3, p \x7d(x, -07)".toList → t' = t := by
  have hparse : parse "dist\x7b 3, p \x7d(x, -07)" =
      .ok (application "dist" [.integer 3, .symbol "p"] [.name "x", .literal "-07" (-7)]) := by
    decide +kernel
  obtain ⟨hderives, hnesting⟩ := (parse_iff_derives.1 _ _).mp hparse
  exact ⟨hderives, hnesting, fun t' h => parse_iff_derives.2 _ t' _ h hderives⟩

/-! ### Errors -/

theorem parse_error {s : String} {e : ParseError}
    (hnesting : overnested nestingLimit 0 0 s.toList = none) (h : parse s = .error e) :
    ∃ f, wholeText s.toList = .refused f ∧ e.span = f.span := by
  unfold parse at h
  rw [hnesting] at h
  cases hread : wholeText s.toList with
  | read t state =>
    rw [hread] at h
    cases h
  | refused f =>
    rw [hread] at h
    obtain rfl := Except.error.inj h
    exact ⟨f, rfl, rfl⟩

theorem parse_error_divides {s : String} {e : ParseError}
    (hnesting : overnested nestingLimit 0 0 s.toList = none) (h : parse s = .error e) :
    ∃ u x z, s.toList = u ++ x ++ z ∧ e.span.start = byteLength u ∧ e.span.stop = byteLength (u ++ x) ∧
      (∃ w, IsText (u ++ w)) ∧
      (e.span.start < e.span.stop → ∀ w, ¬ IsText (u ++ x ++ w)) ∧
      (e.span.start = e.span.stop → e.span.start = byteLength s.toList ∧ ¬ IsText s.toList) := by
  obtain ⟨f, hrefused, hspan⟩ := parse_error hnesting h
  have hnot := Reading.not_isText_of_refused hrefused
  obtain ⟨f', u, x, z, hrefused', hs, hstart, hstop, hlast, hviable, hdead⟩ := wholeText_refused hnot
  rw [hrefused] at hrefused'
  obtain rfl := Reading.Outcome.refused.inj hrefused'
  rw [hspan]
  refine ⟨u, x, z, hs, hstart, hstop, hviable, fun hlt w => ?_, fun heq => ⟨?_, hnot⟩⟩
  · refine hdead w fun hx => ?_
    rw [hstart, hstop, hx, List.append_nil] at hlt
    exact absurd hlt (Nat.lt_irrefl _)
  · have hx : x = [] := by
      refine Decidable.byContradiction fun hne => ?_
      have hpos := Reading.byteLength_pos hne
      rw [hstart, hstop, byteLength_append] at heq
      omega
    rw [hstart, hs, hx, hlast hx, List.append_nil, List.append_nil]

/-- Where a comma is missing. -/
theorem parse_error_divides_add :
    overnested nestingLimit 0 0 "add(x 1)".toList = none ∧ ∃ e, parse "add(x 1)" = .error e ∧
      ∃ u x z, "add(x 1)".toList = u ++ x ++ z ∧ e.span.start = byteLength u ∧
        e.span.stop = byteLength (u ++ x) ∧ (∃ w, IsText (u ++ w)) ∧
        (e.span.start < e.span.stop → ∀ w, ¬ IsText (u ++ x ++ w)) ∧
        (e.span.start = e.span.stop → e.span.start = byteLength "add(x 1)".toList ∧
          ¬ IsText "add(x 1)".toList) := by
  have hnesting : overnested nestingLimit 0 0 "add(x 1)".toList = none := by decide +kernel
  have herror : parse "add(x 1)" = .error ⟨.grammar (.unexpected (some '1')
      [.character '\x7b', .character '(', .character ',', .character ')']), ⟨6, 7⟩, 1, 7⟩ := by
    decide +kernel
  exact ⟨hnesting, _, herror, parse_error_divides hnesting herror⟩

end Term

end ConstraintNet
