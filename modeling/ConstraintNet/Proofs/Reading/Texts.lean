import ConstraintNet.Proofs.Reading.Terms

/-! What is made of a whole text.

A text of a term is read as that term (`wholeText_reads`), so no text is one of two
terms (`derives_unique`). Any other is refused, and the failure divides it: some
text of a term begins with what is before the failure, and none with what is before
its end (`wholeText_refused`). -/
namespace ConstraintNet.Reading
open Text (byteLength byteLength_append isBlank)
open Grammar (Blanks InRange Derives IsText)

/-- A text of some term begins like this. -/
def Viable (u : List Char) : Prop :=
  ∃ w, IsText (u ++ w)

theorem Viable.left {u v : List Char} (h : Viable (u ++ v)) : Viable u := by
  obtain ⟨w, hw⟩ := h
  exact ⟨v ++ w, by rwa [← List.append_assoc]⟩

theorem start_before (text : List Char) : (State.start text).skip.Before text := rfl

theorem start_clear (text : List Char) : Clear (State.start text).skip :=
  fun _ h => nomatch h

/-- Blanks in front of a whole text make no difference. -/
theorem wholeText_eq (text : List Char) :
    wholeText text = whole noTerm (text.length + 1) (State.start text).skip := by
  show (Reader.padded _ >>= _) (State.start text) = (Reader.padded _ >>= _) _
  rw [Reader.bind_apply, Reader.bind_apply, padded_skip]

theorem length_start_lt (text : List Char) : (State.start text).skip.rest.length < text.length + 1 :=
  Nat.lt_succ_of_le (List.dropWhile_suffix isBlank).length_le

theorem term_ends_nil (t : Term) : Phrase.term.Ends t (ahead []) := by
  cases t with
  | literal text value => exact nofun
  | application operator ps ts => trivial
  | name text => exact ⟨nofun, nofun, nofun⟩

theorem wholeText_reads {t : Term} {text : List Char} (h : Derives InRange t text) :
    ∃ s, wholeText text = .read t s := by
  have hbefore : (State.start text).skip.Before (text ++ []) := by
    rw [List.append_nil]
    exact start_before text
  obtain ⟨s, hread, hs, -⟩ := term_reads (text.length + 1) h (term_ends_nil t) (length_start_lt text)
    (start_clear text) rfl hbefore
  have hend : Reader.endOfInput s = .read () s := by
    rw [Reader.endOfInput, hs]
    rfl
  refine ⟨s, ?_⟩
  rw [wholeText_eq, whole, bind_read hread, bind_read hend]
  rfl

theorem derives_unique {t t' : Term} {text : List Char} (h : Derives InRange t text)
    (h' : Derives InRange t' text) : t = t' := by
  obtain ⟨s, hs⟩ := wholeText_reads h
  obtain ⟨s', hs'⟩ := wholeText_reads h'
  rw [hs] at hs'
  exact (Outcome.read.inj hs').1

theorem endOfInput_refused {s : State} {c : Char} (h : s.rest.head? = some c) :
    Reader.endOfInput s = .refused (s.refuse .endOfInput) := by
  unfold Reader.endOfInput
  split
  next hnil =>
    rw [hnil] at h
    cases h
  next => rfl

/-- A text that is not read as a whole is read no further than it went. -/
theorem keeps_endOfInput {D : Option Char → Prop} (t : Term) :
    Keeps Opens D (Reader.endOfInput >>= fun _ => pure t) := by
  intro s f hs
  obtain ⟨c, hc⟩ : ∃ c, s.rest.head? = some c := hs.barred.elim (fun h => ⟨_, h⟩) (fun h => ⟨_, h⟩)
  obtain ⟨hplace, hspan⟩ := hs.refuse .endOfInput
  refine ⟨_, hplace, hspan, ?_⟩
  rw [bind_refused (endOfInput_refused hc)]
  exact .refused

/-- A text is one of a term, or fails. -/
theorem whole_decided (text : List Char) :
    IsText text ∨ Fails Clear (fun _ => False) Viable (whole noTerm) text := by
  rcases term_decided text with ⟨t, w, v, rfl, hw, hends⟩ | hfails
  · cases htoken : (ahead v).token with
    | none =>
      have hblanks : Blanks v := blanks_of_afterBlanks (List.head?_eq_none_iff.mp htoken)
      exact .inl ⟨t, hw.after hblanks⟩
    | some c =>
      have hend : Fails Calm (fun _ => False) (fun b => Viable (w ++ b))
          (fun _ => Reader.endOfInput) v := by
        refine Fails.here (fun b hb => ⟨[], t, ?_⟩) fun n s _ hs _ hhead => ?_
        · rw [List.append_nil]
          exact hw.after hb
        · rw [htoken] at hhead
          exact ⟨_, endOfInput_refused hhead, hs.refuse .endOfInput⟩
      exact .inr (Fails.after (k := fun _ t => Reader.endOfInput >>= fun _ => pure t)
        (fun n => term_reads n hw hends) (hend.map fun _ => t) fun _ h => h)
  · refine .inr (hfails.bind ?_ fun _ t => keeps_endOfInput t)
    rintro u ⟨t, w, hw, v, rfl⟩
    exact ⟨v, t, hw⟩

theorem not_isText_of_refused {text : List Char} {f : Failure} (h : wholeText text = .refused f) :
    ¬ IsText text := by
  rintro ⟨t, ht⟩
  obtain ⟨s, hs⟩ := wholeText_reads ht
  rw [hs] at h
  cases h

/-- What is refused divides a text: some text of a term begins with what is before
the failure, and none with what is before its end. -/
theorem wholeText_refused {text : List Char} (h : ¬ IsText text) :
    ∃ f u x z, wholeText text = .refused f ∧ text = u ++ x ++ z ∧
      f.span.start = byteLength u ∧ f.span.stop = byteLength (u ++ x) ∧
      (x = [] → z = []) ∧ Viable u ∧ ∀ w, (x = [] → w = []) → ¬ IsText (u ++ x ++ w) := by
  rcases whole_decided text with ht | ⟨u, x, z, rfl, hedge, hu, hstuck⟩
  · exact absurd ht h
  · have hrefused : ∀ z', Edge u x z' → ∃ f, wholeText (u ++ x ++ z') = .refused f ∧
        f.Marks (byteLength (u ++ x ++ z')) x z' := by
      intro z' hedge'
      obtain ⟨f, hmarks, hleft⟩ :=
        hstuck _ _ z' (length_start_lt _) (start_clear _) hedge' (start_before _)
      rw [State.total_skip, State.start, State.total, Nat.zero_add] at hmarks
      rcases hleft.cases with hf | ⟨_, _, -, hstranded⟩
      · exact ⟨f, by rw [wholeText_eq, hf], hmarks⟩
      · exact hstranded.barred.elim
    obtain ⟨f, hf, hplace, hstart, y, ⟨y', rfl⟩, hstop⟩ := hrefused z hedge
    -- the failure may span more of the text than is needed for it
    have hstart' : f.span.start = byteLength u := by
      rw [List.append_assoc, byteLength_append u] at hstart
      omega
    refine ⟨f, u, x ++ y, y', hf, by simp only [List.append_assoc], hstart', ?_, ?_, hu, ?_⟩
    · rw [hstop, hstart', byteLength_append u]
    · intro hnil
      obtain ⟨hx, hy⟩ := List.append_eq_nil_iff.mp hnil
      exact (List.append_eq_nil_iff.mp (hedge.last hx)).2
    · intro w hw
      have hedge' : Edge u x (y ++ w) := by
        refine ⟨hedge.solid, fun hx => ?_⟩
        have hy := (List.append_eq_nil_iff.mp (hedge.last hx)).1
        rw [hy, hw (by rw [hx, hy]; rfl)]
        rfl
      obtain ⟨g, hg, -⟩ := hrefused (y ++ w) hedge'
      have hnot := not_isText_of_refused hg
      simpa only [List.append_assoc] using hnot

theorem wholeText_read_iff {text : List Char} {t : Term} :
    (∃ s, wholeText text = .read t s) ↔ Derives InRange t text := by
  refine ⟨fun ⟨s, hs⟩ => ?_, wholeText_reads⟩
  by_cases h : IsText text
  · obtain ⟨t', ht'⟩ := h
    obtain ⟨s', hs'⟩ := wholeText_reads ht'
    rw [hs] at hs'
    rwa [(Outcome.read.inj hs').1]
  · obtain ⟨f, _, _, _, hf, -⟩ := wholeText_refused h
    rw [hs] at hf
    cases hf

end ConstraintNet.Reading
