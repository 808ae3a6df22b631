import ConstraintNet.Proofs.Reading.Spans
import ConstraintNet.Proofs.Reading.Parse

/-! Numerals out of range.

A text may be one of a term but for its numerals: it would be if they could be of any size
(`Grammar.AnySize`). What is wrong with it is then the first numeral out of range and nothing
else (`Term.parse_outOfRange`).

Up to that numeral the text is right: some text of a term in range begins like it, even with
the first character of the numeral (`Grammar.derives_clips`). So no reading is refused before,
and none is refused inside a numeral or gets past one that is out of range. -/
namespace ConstraintNet

namespace Grammar
open Text.Decimal (IsNumeral int64? int64?_eq_some_iff)
open Reading (Fresh Overflow Fits EndsAt fresh_concat endsAt_nil endsAt_of_blanks
  int64?_eq_none_iff zero_inRange)

/-- Numerals of any size, of which those in range have their value. -/
def AnySize (n : List Char) (value : Int64) : Prop :=
  ∀ v, InRange n v → v = value

/-- In the text, behind `s`, there is a numeral out of range, and some text of `M` begins
like this one up to the first character of the numeral. -/
def Clipped (s : List Char) (M : List Char → Prop) (w : List Char) : Prop :=
  ∃ u c n v r, w = u ++ c :: n ++ v ∧ Overflow (s ++ u) (c :: n) v ∧ M (u ++ c :: r)

section Clipped
variable {s u v w x n : List Char} {M M' : List Char → Prop} {α : Type}
  {P P' : α → List Char → Prop}

theorem Clipped.after (h : Clipped (s ++ u) M w) (hM : ∀ x, M x → M' (u ++ x)) :
    Clipped s M' (u ++ w) := by
  obtain ⟨x, c, n, v, r, rfl, hover, hx⟩ := h
  refine ⟨u ++ x, c, n, v, r, by simp only [List.append_assoc], ?_, ?_⟩
  · rwa [← List.append_assoc]
  · rw [List.append_assoc]
    exact hM _ hx

theorem Clipped.before (h : Clipped s M v) (hw : EndsAt Char.isDigit w.head?)
    (hM : ∀ x, M x → ∃ y, M' (x ++ y)) : Clipped s M' (v ++ w) := by
  obtain ⟨u, c, n, v, r, rfl, hover, hx⟩ := h
  obtain ⟨y, hy⟩ := hM _ hx
  refine ⟨u, c, n, v ++ w, r ++ y, by simp only [List.append_assoc], hover.before hw, ?_⟩
  rwa [List.append_assoc] at hy

theorem Clipped.mono (h : Clipped s M w) (hM : ∀ x, M x → M' x) : Clipped s M' w := by
  obtain ⟨u, c, n, v, r, hsplit, hover, hx⟩ := h
  exact ⟨u, c, n, v, r, hsplit, hover, hM _ hx⟩

/-! ### Tokens -/

/-- Every numeral begins like one in range. -/
theorem exists_inRange (h : IsNumeral n) :
    ∃ c r m value, n = c :: r ∧ IsNumeral (c :: m) ∧ InRange (c :: m) value := by
  obtain ⟨ds, hne, hds, rfl | rfl⟩ := h
  · obtain ⟨d, ds, rfl⟩ := List.exists_cons_of_ne_nil hne
    have hdigit : ∀ c ∈ [d], c.isDigit = true :=
      List.forall_mem_singleton.mpr (hds d (List.mem_cons_self ..))
    cases hvalue : int64? [d] with
    | some value =>
      exact ⟨d, ds, [], value, rfl, ⟨[d], List.cons_ne_nil _ _, hdigit, .inl rfl⟩,
        int64?_eq_some_iff.mp hvalue⟩
    | none =>
      have hle : d.toNat ≤ 57 := (Reading.isDigit_iff.mp (hdigit d (List.mem_cons_self ..))).2
      have hmagnitude : Text.Decimal.magnitude [d] = d.toNat - 48 := by
        simp [Text.Decimal.magnitude, Nat.ofDigitChars]
      have hmin : Int64.minValue.toInt ≤ 0 := by decide
      have hmax : 9 ≤ Int64.maxValue.toInt := by decide
      rw [int64?_eq_none_iff, Text.Decimal.value_of_isDigit hdigit, hmagnitude] at hvalue
      omega
  · exact ⟨'-', ds, ['0'], 0, rfl, zero_inRange (.inr rfl)⟩

theorem numeral_clips {value : Int64} (hs : Fresh s) (hn : IsNumeral n) (hvalue : AnySize n value)
    (hw : Spaced n w) (hM : ∀ m v x, IsNumeral m → InRange m v → Spaced m x → M x) :
    InRange n value ∨ Clipped s M w := by
  cases hfits : int64? n with
  | some v =>
    have hv := int64?_eq_some_iff.mp hfits
    rw [← hvalue v hv]
    exact .inl hv
  | none =>
    obtain ⟨b, a, hb, ha, rfl⟩ := hw
    obtain ⟨c, r, m, v, rfl, hm, hv⟩ := exists_inRange hn
    refine .inr ⟨b, c, r, a, m, rfl, ⟨hs.blanks hb, hn, int64?_eq_none_iff.mp hfits,
      endsAt_of_blanks ha⟩, ?_⟩
    exact hM _ v _ hm hv (.front hb _)

/-- After a delimiter a token may begin. -/
theorem Spaced.fresh {c : Char} (h : Spaced [c] w) (hword : Reading.isWordChar c = false)
    (hsign : c ≠ '-') (s : List Char) : Fresh (s ++ w) := by
  obtain ⟨b, a, -, ha, rfl⟩ := h
  have hc := (fresh_concat hword hsign (s ++ b)).blanks ha
  simpa only [List.append_assoc] using hc

/-- A delimiter ends what is before it. -/
theorem Spaced.endsAt {c : Char} (h : Spaced [c] w) (hdigit : c.isDigit = false) (v : List Char) :
    EndsAt Char.isDigit (w ++ v).head? := by
  obtain ⟨b, a, hb, -, rfl⟩ := h
  have hc : EndsAt Char.isDigit (c :: a ++ v).head? := by
    rintro d ⟨⟩
    exact hdigit
  simpa only [List.append_assoc, List.cons_append, List.nil_append] using
    (endsAt_of_blanks hb).append hc

/-! ### Lists -/

theorem Following.endsAt {as : List α} (h : Following P as w) : EndsAt Char.isDigit w.head? := by
  cases h with
  | nil => exact endsAt_nil
  | cons hcomma _ _ =>
    rw [List.append_assoc]
    exact hcomma.endsAt (by decide) _

theorem following_clips (s : List Char) {as : List α}
    (hP : ∀ a ∈ as, ∀ s w, Fresh s → P a w → P' a w ∨ Clipped s (fun x => ∃ b, P' b x) w)
    (h : Following P as w) :
    Following P' as w ∨ Clipped s (fun x => ∃ bs, Following P' bs x) w := by
  induction h generalizing s with
  | nil => exact .inl .nil
  | @cons a as u v w hcomma hitem hrest ih =>
    rcases hP a (List.mem_cons_self ..) (s ++ u) v (hcomma.fresh (by decide) (by decide) s) hitem with
      hitem' | hclip
    · rcases ih (s ++ (u ++ v)) (fun b hb => hP b (List.mem_cons_of_mem a hb)) with hrest' | hclip
      · exact .inl (.cons hcomma hitem' hrest')
      · exact .inr (hclip.after fun x ⟨bs, hx⟩ => ⟨a :: bs, .cons hcomma hitem' hx⟩)
    · have hfirst : Clipped s (fun x => ∃ b y, x = u ++ y ∧ P' b y) (u ++ v) :=
        hclip.after fun x ⟨b, hx⟩ => ⟨b, x, rfl, hx⟩
      refine .inr (hfirst.before hrest.endsAt ?_)
      rintro _ ⟨b, y, rfl, hy⟩
      exact ⟨[], [b], .cons hcomma hy .nil⟩

theorem listed_clips (hs : Fresh s) {as : List α}
    (hP : ∀ a ∈ as, ∀ s w, Fresh s → P a w → P' a w ∨ Clipped s (fun x => ∃ b, P' b x) w)
    (h : Listed P as w) :
    Listed P' as w ∨ Clipped s (fun x => ∃ b bs, Listed P' (b :: bs) x) w := by
  cases h with
  | none => exact .inl .none
  | @some a as u v hitem hrest =>
    rcases hP a (List.mem_cons_self ..) s u hs hitem with hitem' | hclip
    · rcases following_clips (s ++ u) (fun b hb => hP b (List.mem_cons_of_mem a hb)) hrest with
        hrest' | hclip
      · exact .inl (.some hitem' hrest')
      · exact .inr (hclip.after fun x ⟨bs, hx⟩ => ⟨a, bs, .some hitem' hx⟩)
    · exact .inr (hclip.before hrest.endsAt fun x ⟨b, hx⟩ => ⟨[], b, [], .some hx .nil⟩)

theorem enclosed_clips (s : List Char) {opening closing : Char}
    (hword : Reading.isWordChar opening = false) (hsign : opening ≠ '-')
    (hdigit : closing.isDigit = false) {as : List α}
    (hP : ∀ a ∈ as, ∀ s w, Fresh s → P a w → P' a w ∨ Clipped s (fun x => ∃ b, P' b x) w)
    (h : Enclosed P opening closing as w) :
    Enclosed P' opening closing as w ∨
      Clipped s (fun x => ∃ b bs, Enclosed P' opening closing (b :: bs) x) w := by
  obtain ⟨u, v, x, hu, hv, hx, rfl⟩ := h
  rcases listed_clips (hu.fresh hword hsign s) hP hv with hv' | hclip
  · exact .inl ⟨u, v, x, hu, hv', hx, rfl⟩
  · have hlist : Clipped s (fun y => ∃ b bs z, y = u ++ z ∧ Listed P' (b :: bs) z) (u ++ v) :=
      hclip.after fun z ⟨b, bs, hz⟩ => ⟨b, bs, z, rfl, hz⟩
    have hends : EndsAt Char.isDigit x.head? := by
      have hends' := hx.endsAt hdigit []
      rwa [List.append_nil] at hends'
    refine .inr (hlist.before hends ?_)
    rintro _ ⟨b, bs, z, rfl, hz⟩
    exact ⟨x, b, bs, u, z, x, hu, hz, hx, rfl⟩

/-! ### Parameters and terms -/

theorem parameter_clips {p : Parameter} (hs : Fresh s) (h : DerivesParameter AnySize p w) :
    DerivesParameter InRange p w ∨ Clipped s (fun x => ∃ q, DerivesParameter InRange q x) w := by
  cases h with
  | integer hn hvalue hw =>
    have hclips := numeral_clips (M := fun x => ∃ q, DerivesParameter InRange q x) hs hn hvalue hw
      fun m v x hm hv hx => ⟨_, .integer hm hv hx⟩
    exact hclips.imp_left fun hvalue' => .integer hn hvalue' hw
  | symbol hx hw => exact .inl (.symbol hx hw)

theorem block_clips (s : List Char) {ps : List Parameter} (h : DerivesBlock AnySize ps w) :
    DerivesBlock InRange ps w ∨ Clipped s (fun x => ∃ qs, DerivesBlock InRange qs x) w := by
  rcases h with hnone | ⟨hne, hblock⟩
  · exact .inl (.inl hnone)
  · rcases enclosed_clips s (by decide) (by decide) (by decide)
      (fun p _ s w hs hp => parameter_clips hs hp) hblock with hblock' | hclip
    · exact .inl (.inr ⟨hne, hblock'⟩)
    · exact .inr (hclip.mono fun x ⟨q, qs, hx⟩ => ⟨q :: qs, .inr ⟨List.cons_ne_nil q qs, hx⟩⟩)

/-- A text whose numerals may be of any size is one with numerals in range, or there is a
numeral out of range, before which nothing is wrong with it. -/
theorem derives_clips : ∀ (t : Term) {s w : List Char}, Fresh s → Derives AnySize t w →
    Derives InRange t w ∨ Clipped s (fun x => ∃ t', Derives InRange t' x) w
  | .literal _ _, _, _, hs, h => by
    cases h with
    | literal hn hvalue hw =>
      have hclips := numeral_clips (M := fun x => ∃ t', Derives InRange t' x) hs hn hvalue hw
        fun m v x hm hv hx => ⟨_, .literal hm hv hx⟩
      exact hclips.imp_left fun hvalue' => .literal hn hvalue' hw
  | .application _ _ ts, s, _, hs, h => by
    cases h with
    | @application f ps _ u v w x y hf hu hblock hopening hlist hclosing =>
    rcases block_clips (s ++ u) hblock with hblock' | hclip
    · have hoperands : Enclosed (Derives AnySize) '(' ')' ts (w ++ x ++ y) :=
        ⟨w, x, y, hopening, hlist, hclosing, rfl⟩
      rcases enclosed_clips (s ++ (u ++ v)) (by decide) (by decide) (by decide)
        (fun t _ s w hs ht => derives_clips t hs ht) hoperands with hoperands' | hclip
      · obtain ⟨w', x', y', hopening', hlist', hclosing', heq⟩ := hoperands'
        rw [heq]
        exact .inl (.application hf hu hblock' hopening' hlist' hclosing')
      · refine .inr (hclip.after ?_)
        rintro _ ⟨t, ts', w', x', y', hopening', hlist', hclosing', rfl⟩
        exact ⟨_, .application hf hu hblock' hopening' hlist' hclosing'⟩
    · have hhead : Clipped s (fun z => ∃ qs x, z = u ++ x ∧ DerivesBlock InRange qs x) (u ++ v) :=
        hclip.after fun x ⟨qs, hx⟩ => ⟨qs, x, rfl, hx⟩
      have hends : EndsAt Char.isDigit (w ++ x ++ y).head? := by
        rw [List.append_assoc]
        exact hopening.endsAt (by decide) _
      refine .inr (hhead.before hends ?_)
      rintro _ ⟨qs, x, rfl, hx⟩
      exact ⟨['('] ++ [] ++ [')'], _, .application hf hu hx (.refl _) .none (.refl _)⟩
  | .name _, _, _, _, h => by
    cases h with
    | name hx hw => exact .inl (.name hx hw)
termination_by t => sizeOf t

end Clipped

end Grammar

namespace Reading
open Text (byteLength)
open Grammar (AnySize InRange Derives IsText derives_clips)

/-- Of the numerals out of range in a text, the first. -/
structure FirstOverflow (text u n v : List Char) : Prop where
  split : text = u ++ n ++ v
  overflow : Overflow u n v
  first : ∀ p m w, text = p ++ m ++ w → Overflow p m w → u <+: p

section
variable {text u v z p m w n : List Char} {c : Char}

/-- What fits goes no further than to the numeral. -/
theorem FirstOverflow.of_fits (hsplit : text = u ++ n ++ v) (hover : Overflow u n v) (hu : Fits u) :
    FirstOverflow text u n v := by
  refine ⟨hsplit, hover, fun p m w hsplit' hover' => ?_⟩
  rw [hsplit, List.append_assoc, List.append_assoc] at hsplit'
  rcases List.append_eq_append_iff.mp hsplit' with ⟨x, rfl, -⟩ | ⟨x, rfl, hx⟩
  · exact List.prefix_append u x
  · rcases List.append_eq_append_iff.mp hx with ⟨y, rfl, rfl⟩ | ⟨y, rfl, -⟩
    · exact absurd hover'.left (hu p m y (List.append_assoc p m y).symm)
    · by_cases hne : x = []
      · simp [hne]
      · exact absurd hover.fresh (not_fresh hover'.numeral hne p)

/-- What fits, and is not broken off inside a numeral, does not reach into one out of range. -/
theorem Fits.not_prefix (hu : Fits u) (hunbroken : Unbroken u z) (hover : Overflow p (c :: m) w)
    (hsplit : u ++ z = p ++ c :: m ++ w) : ¬ p ++ [c] <+: u := by
  rintro ⟨x, rfl⟩
  rw [List.append_assoc, List.append_assoc, List.append_assoc, List.append_cancel_left_eq,
    List.singleton_append, List.cons_append, List.cons_inj_right] at hsplit
  rcases List.append_eq_append_iff.mp hsplit with ⟨y, rfl, rfl⟩ | ⟨y, rfl, rfl⟩
  · by_cases hy : y = []
    · subst hy
      rw [List.append_nil] at hover
      exact hu p (c :: x) [] (by simp) (Overflow.left (v := []) hover)
    · have hsplit' : p ++ [c] ++ x = p ++ c :: x := by simp
      rw [hsplit'] at hunbroken
      exact not_unbroken hover.numeral (List.cons_ne_nil c x) hy p w hunbroken
  · exact hu p (c :: m) y (by simp) hover.left

end

/-- What is refused divides a text into what is right, what is complained of, and the rest. -/
theorem wholeText_refused_divides {text : List Char} (h : ¬ IsText text) :
    ∃ f u x z, wholeText text = .refused f ∧ text = u ++ x ++ z ∧
      f.span = ⟨byteLength u, byteLength (u ++ x)⟩ ∧ Fits u ∧ f.complaint.About u x z ∧
      ∀ w, (x = [] → w = []) → ¬ IsText (u ++ x ++ w) := by
  obtain ⟨f, u, x, z, hf, hsplit, hstart, hstop, -, -, hdead⟩ := wholeText_refused h
  obtain ⟨u', x', z', hsplit', hspan, hfits, habout⟩ := wholeText_refused_about hf
  -- Either division is the one by the span.
  rw [hspan] at hstart hstop
  have hux : u' ++ x' = u ++ x := eq_of_byteLength_eq (hsplit'.symm.trans hsplit) hstop
  obtain rfl : u' = u := by
    have hparts : u' ++ (x' ++ z') = u ++ (x ++ z) := by
      rw [← List.append_assoc, ← List.append_assoc, ← hsplit, ← hsplit']
    exact eq_of_byteLength_eq hparts hstart
  obtain rfl := List.append_cancel_left hux
  exact ⟨f, u', x', z', hf, hsplit', hspan, hfits, habout, hdead⟩

/-- A text that is one but for its numerals is refused for the first that is out of range. -/
theorem wholeText_outOfRange {t : Term} {text : List Char} (h : Derives AnySize t text)
    (hnot : ¬ IsText text) :
    ∃ f u n v, wholeText text = .refused f ∧ FirstOverflow text u n v ∧
      f.span = ⟨byteLength u, byteLength (u ++ n)⟩ ∧
      f.complaint = .outOfRange (String.ofList n) := by
  obtain ⟨p, c, m, w, r, htext, hover, t', hviable⟩ :=
    (derives_clips t fresh_nil h).resolve_left fun h => hnot ⟨t, h⟩
  rw [List.nil_append] at hover
  obtain ⟨f, u, x, z, hf, hsplit, hspan, hfits, habout, hdead⟩ := wholeText_refused_divides hnot
  have hbegins : p ++ [c] <+: text := ⟨m ++ w, by simp [htext]⟩
  generalize hcomplaint : f.complaint = k at habout
  -- Nothing is wrong up to the first character of that numeral. So a single character, or the end
  -- of the text, would be complained of inside the numeral or behind it, where no reading gets.
  cases habout with
  | atEnd =>
    rw [List.append_nil, List.append_nil] at hsplit
    rw [hsplit] at hbegins htext
    have hend : Unbroken u [] := unbroken_of_endsAt endsAt_nil u
    exact absurd hbegins (hfits.not_prefix hend hover ((List.append_nil u).trans htext))
  | @character _ _ d _ hunbroken =>
    have hright : ¬ u ++ [d] <+: p ++ [c] := by
      rintro ⟨y, hy⟩
      refine hdead (y ++ r) (fun hd => absurd hd (List.cons_ne_nil d [])) ⟨t', ?_⟩
      rw [← List.append_assoc, hy, List.append_assoc]
      exact hviable
    have hreaches : p ++ [c] <+: u ++ [d] :=
      (List.prefix_or_prefix_of_prefix hbegins ⟨z, hsplit.symm⟩).resolve_right hright
    rcases List.prefix_concat_iff.mp hreaches with heq | hprefix
    · rw [heq] at hright
      exact absurd (List.prefix_refl _) hright
    · have hparts : u ++ d :: z = p ++ c :: m ++ w := by
        rw [← htext, hsplit, List.append_assoc]
        rfl
      exact absurd hprefix (hfits.not_prefix hunbroken hover hparts)
  | numeral hfresh hx hvalue hz =>
    exact ⟨f, u, x, z, hf,
      .of_fits hsplit ⟨hfresh, hx, int64?_eq_none_iff.mp hvalue, hz⟩ hfits, hspan, hcomplaint⟩

end Reading

namespace Term
open Text (byteLength)
open Text.Decimal (IsNumeral int64? int64?_eq_some_iff)
open Grammar (AnySize InRange DerivesBlock Derives isWord_letter overnested_derives derives_clips)
open Reading (Overflow FirstOverflow Fits wholeText wholeText_outOfRange fits_of_wholeText_read
  fresh_nil fresh_concat)

theorem parse_of_refused {s : String} {f : Reading.Failure}
    (hnesting : overnested nestingLimit 0 0 s.toList = none) (h : wholeText s.toList = .refused f) :
    parse s = .error (.locate s.toList (.grammar f.complaint) f.span) := by
  rw [parse, hnesting, h]

/-- **A numeral out of range is reported where it stands.** A text may be one of a term except
that its numerals are of any size. If they are all in range it is parsed as that term. If not,
the error spans the first that is out of range, and says so. -/
theorem parse_outOfRange {s : String} {t : Term} (h : Derives AnySize t s.toList)
    (hnesting : t.nesting ≤ nestingLimit) :
    (Fits s.toList → parse s = .ok t) ∧
      ∀ p m w, s.toList = p ++ m ++ w → Overflow p m w →
        ∃ u n v e, FirstOverflow s.toList u n v ∧ parse s = .error e ∧
          e.span = ⟨byteLength u, byteLength (u ++ n)⟩ ∧
          e.reason = "integer literal '" ++ String.ofList n ++ "' is out of range" := by
  constructor
  · intro hfits
    refine parse_ok_iff.mpr ⟨?_, hnesting⟩
    refine (derives_clips t fresh_nil h).resolve_right ?_
    rintro ⟨u, c, n, v, r, hsplit, hover, -⟩
    exact hfits u (c :: n) v hsplit hover
  · intro p m w hsplit hover
    have hnot : ¬ Grammar.IsText s.toList := by
      rintro ⟨t', ht'⟩
      obtain ⟨state, hread⟩ := Reading.wholeText_read_iff.mpr ht'
      exact fits_of_wholeText_read hread p m w hsplit hover
    obtain ⟨f, u, n, v, hf, hfirst, hspan, hcomplaint⟩ := wholeText_outOfRange h hnot
    refine ⟨u, n, v, _, hfirst, parse_of_refused ((overnested_derives h).mpr hnesting) hf, hspan, ?_⟩
    show f.complaint.text = _
    rw [hcomplaint]
    rfl

/-- The first numeral out of range is a parameter, another one an operand. -/
theorem parse_outOfRange_parameter :
    let t := application "f" [.integer 0] [.name "x", .literal "-9223372036854775809" 0]
    let s := "f\x7b9223372036854775808\x7d(x, -9223372036854775809)"
    Derives AnySize t s.toList ∧ t.nesting ≤ nestingLimit ∧
      ∃ u n v e, FirstOverflow s.toList u n v ∧ parse s = .error e ∧ e.span = ⟨2, 21⟩ ∧
        byteLength u = 2 ∧ byteLength (u ++ n) = 21 ∧
        e.reason = "integer literal '9223372036854775808' is out of range" := by
  have hany : ∀ {n : List Char}, int64? n = none → AnySize n 0 := by
    intro n hn v hv
    rw [int64?_eq_some_iff.mpr hv] at hn
    cases hn
  have hparameter : IsNumeral "9223372036854775808".toList :=
    ⟨_, by decide, List.all_eq_true.mp (by decide), .inl rfl⟩
  have hoperand : IsNumeral "-9223372036854775809".toList :=
    ⟨"9223372036854775809".toList, by decide, List.all_eq_true.mp (by decide), .inr rfl⟩
  have hblock : DerivesBlock AnySize [.integer 0] "\x7b9223372036854775808\x7d".toList :=
    .inr ⟨List.cons_ne_nil _ _, ['\x7b'], _, ['\x7d'], .refl _,
      .some (.integer hparameter (hany (by decide +kernel)) (.refl _)) .nil, .refl _, rfl⟩
  have hname : Derives AnySize (.name "x") "x".toList :=
    .name (isWord_letter (c := 'x') (by decide)) (.refl _)
  have hliteral : Derives AnySize (.literal "-9223372036854775809" 0) "-9223372036854775809".toList :=
    .literal hoperand (hany (by decide +kernel)) (.refl _)
  have hcomma : Grammar.Spaced [','] [',', ' '] :=
    (Grammar.Spaced.refl [',']).after (List.forall_mem_singleton.mpr (by decide))
  have hderives : Derives AnySize
      (application "f" [.integer 0] [.name "x", .literal "-9223372036854775809" 0])
      "f\x7b9223372036854775808\x7d(x, -9223372036854775809)".toList :=
    .application (isWord_letter (c := 'f') (by decide)) (.refl _) hblock (.refl ['('])
      (.some hname (.cons hcomma hliteral .nil)) (.refl [')'])
  have hover : Overflow "f\x7b".toList "9223372036854775808".toList
      "\x7d(x, -9223372036854775809)".toList := by
    refine ⟨fresh_concat (by decide) (by decide) "f".toList, hparameter, by decide +kernel, ?_⟩
    rintro d ⟨⟩
    rfl
  have herror : parse "f\x7b9223372036854775808\x7d(x, -9223372036854775809)" =
      .error ⟨.grammar (.outOfRange "9223372036854775808"), ⟨2, 21⟩, 1, 3⟩ := by decide +kernel
  obtain ⟨u, n, v, e, hfirst, herror', hspan, hreason⟩ :=
    (parse_outOfRange hderives (by decide)).2 _ _ _ rfl hover
  obtain rfl := Except.error.inj (herror.symm.trans herror')
  exact ⟨hderives, by decide, u, n, v, _, hfirst, herror, rfl, (congrArg Text.Span.start hspan).symm,
    (congrArg Text.Span.stop hspan).symm, rfl⟩

end Term

end ConstraintNet
