import ConstraintNet.Proofs.Reading.Numerals
import ConstraintNet.Reading.Parse

/-! What a failure points at.

A failure that is reported has come a long way: it was left by some reader, stayed
pending through others, and was put together with failures of the same place. Its span
is still that of a part of the text (`Failure.In`): of nothing at the end of the text, of
one character, or of a numeral out of range, the whole of it (`Points`). And what it
complains of has not come apart from it (`Complaint.About`): a numeral is complained of as
out of range, and no single character for going on with a numeral.

For every failure is left with such a span, and every reader hands on what it is given
(`Located`). A numeral is read as a whole because it is only looked for where no word and
no numeral has just been begun (`Fresh`), so a reader also tells where it may start and
where it ends up. None stops inside a numeral (`Unbroken`) or gets past one that is out of
range (`Fits`). -/
namespace ConstraintNet.Reading
open Text (byteLength byteLength_append isBlank)
open Text.Decimal (IsNumeral int64?)
open Grammar (Blanks)

/-! ### Parts of a text -/

/-- What a failure points at, between what is before and after it. -/
inductive Points : List Char → List Char → List Char → Prop where
  | atEnd (u : List Char) : Points u [] []
  | character (u : List Char) (c : Char) (z : List Char) : Points u [c] z
  /-- A numeral out of range, from its first character to its last. -/
  | numeral {u n z : List Char} : Fresh u → IsNumeral n → int64? n = none →
      EndsAt Char.isDigit z.head? → Points u n z

/-- The failure points at a part of the text. -/
def Failure.In (f : Failure) (text : List Char) : Prop :=
  ∃ u x z, text = u ++ x ++ z ∧ f.span = ⟨byteLength u, byteLength (u ++ x)⟩ ∧ Points u x z

/-- What a complaint is about, between what is before and after it. -/
inductive Complaint.About : Complaint → List Char → List Char → List Char → Prop where
  | atEnd (k : Complaint) (u : List Char) : About k u [] []
  | character (k : Complaint) {u : List Char} {c : Char} {z : List Char} :
      Unbroken u (c :: z) → About k u [c] z
  | numeral {u n z : List Char} : Fresh u → IsNumeral n → int64? n = none →
      EndsAt Char.isDigit z.head? → About (.outOfRange (String.ofList n)) u n z

/-- The failure points at what it complains of, and no numeral before that is out of range. -/
def Failure.About (f : Failure) (text : List Char) : Prop :=
  ∃ u x z, text = u ++ x ++ z ∧ f.span = ⟨byteLength u, byteLength (u ++ x)⟩ ∧ Fits u ∧
    f.complaint.About u x z

/-- The text has been read as far as `u`, and what is pending is about a part of it. -/
structure State.In (s : State) (text u : List Char) : Prop where
  split : text = u ++ s.rest
  offset : s.offset = byteLength u
  unbroken : Unbroken u s.rest
  fits : Fits u
  pending : ∀ f, s.pending = some f → f.About text

/-- From where a text has been read as far as a `P`, the reader gets as far as a `Q`, or is
refused with a failure that is about a part of the text. -/
def Located {α : Type} (text : List Char) (P Q : List Char → Prop) (p : Reader α) : Prop :=
  ∀ ⦃s u⦄, s.In text u → P u →
    (∃ a t u', p s = .read a t ∧ t.In text u' ∧ Q u') ∨ ∃ f, p s = .refused f ∧ f.About text

section
variable {text u v x : List Char} {s : State} {f g : Failure}

/-! ### Failures -/

theorem Complaint.About.points {k : Complaint} {z : List Char} (h : k.About u x z) :
    Points u x z := by
  cases h with
  | atEnd => exact .atEnd u
  | character => exact .character u _ z
  | numeral hu hx hvalue hz => exact .numeral hu hx hvalue hz

/-- Complaints that are put together are about what the older was about. -/
theorem Complaint.About.join {k : Complaint} {z : List Char} (h : k.About u x z) (k' : Complaint) :
    (k.join k').About u x z := by
  cases h with
  | atEnd => exact .atEnd _ u
  | character _ hc => exact .character _ hc
  | numeral hu hx hvalue hz => exact .numeral hu hx hvalue hz

theorem Failure.About.in (h : f.About text) : f.In text := by
  obtain ⟨u, x, z, hsplit, hspan, -, habout⟩ := h
  exact ⟨u, x, z, hsplit, hspan, habout.points⟩

/-- Putting failures together leaves the span of one of them. -/
theorem Failure.About.furthest {pending : Option Failure}
    (hp : ∀ p, pending = some p → p.About text) (h : f.About text) :
    (Failure.furthest pending f).About text := by
  unfold Failure.furthest
  split
  · exact h
  · next p =>
    split
    · exact h
    · split
      · exact hp p rfl
      · obtain ⟨u, x, z, hsplit, hspan, hfits, habout⟩ := hp p rfl
        exact ⟨u, x, z, hsplit, hspan, hfits, habout.join f.complaint⟩

theorem State.In.next (h : s.In text u) {place : Nat} {c : Complaint} :
    Failure.About ⟨place, s.next, c⟩ text := by
  refine ⟨u, s.rest.head?.toList, s.rest.tail, ?_, ?_, h.fits, ?_⟩
  · rw [h.split, List.append_assoc]
    cases s.rest <;> rfl
  · rw [byteLength_append, ← h.offset]
    rfl
  · have hunbroken := h.unbroken
    cases hrest : s.rest with
    | nil => exact .atEnd _ u
    | cons c r =>
      rw [hrest] at hunbroken
      exact .character _ hunbroken

theorem State.In.refuse (h : s.In text u) (e : Expectation) : (s.refuse e).About text :=
  .furthest h.pending h.next

theorem State.In.refuseClass (h : s.In text u) (e : Expectation) :
    (s.refuseClass e).About text := by
  unfold State.refuseClass
  split
  · exact h.next
  · exact h.refuse e

theorem State.In.at (h : s.In text u) (hf : f.At s) : f.About text := by
  have hnext : Failure.About ⟨f.place, s.next, f.complaint⟩ text := h.next
  rwa [← hf.span] at hnext

theorem State.In.pend (h : s.In text u) (hf : f.About text) :
    State.In {s with pending := some f} text u :=
  ⟨h.split, h.offset, h.unbroken, h.fits, fun _ hg => Option.some.inj hg ▸ hf⟩

theorem State.In.past (h : s.In text u) (hrest : s.rest = x ++ v) (hx : Fits x)
    (hv : Unbroken (u ++ x) v) : State.In (s.past x v) text (u ++ x) := by
  have hunbroken := h.unbroken
  rw [hrest] at hunbroken
  refine ⟨?_, ?_, hv, h.fits.append hx hunbroken.left, h.pending⟩
  · rw [h.split, hrest, ← List.append_assoc]
    rfl
  · rw [byteLength_append, ← h.offset]
    rfl

end

/-! ### Readers -/

section Readers
variable {α β : Type} {text : List Char} {P P' Q R : List Char → Prop}

theorem Located.weaken {p : Reader α} (h : Located text P Q p) (hP : ∀ u, P' u → P u)
    (hQ : ∀ u, Q u → R u) : Located text P' R p := by
  intro s u hs hu
  rcases h hs (hP u hu) with ⟨a, t, u', hread, ht, hu'⟩ | hrefused
  · exact .inl ⟨a, t, u', hread, ht, hQ u' hu'⟩
  · exact .inr hrefused

theorem located_pure (a : α) : Located text P P (pure a : Reader α) :=
  fun s u hs hu => .inl ⟨a, s, u, rfl, hs, hu⟩

theorem Located.bind {p : Reader α} {k : α → Reader β} (h : Located text P Q p)
    (hk : ∀ a, Located text Q R (k a)) : Located text P R (p >>= k) := by
  intro s u hs hu
  rcases h hs hu with ⟨a, t, u', hread, ht, hu'⟩ | ⟨f, hrefused, hf⟩
  · rw [bind_read hread]
    exact hk a ht hu'
  · exact .inr ⟨f, bind_refused hrefused k, hf⟩

theorem Located.map {p : Reader α} (h : Located text P Q p) (k : α → β) :
    Located text P Q (k <$> p) :=
  h.bind fun a => located_pure (k a)

theorem Located.orElse {p q : Reader α} (h : Located text P Q p) (hq : Located text P Q q) :
    Located text P Q (.orElse p q) := by
  intro s u hs hu
  rcases h hs hu with ⟨a, t, u', hread, ht, hu'⟩ | ⟨f, hrefused, hf⟩
  · exact .inl ⟨a, t, u', orElse_read hread q, ht, hu'⟩
  · rw [orElse_refused hrefused]
    exact hq (hs.pend hf) hu

theorem Located.optional {p : Reader α} (h : Located text P Q p) (hPQ : ∀ u, P u → Q u) :
    Located text P Q p.optional :=
  (h.map some).orElse ((located_pure none).weaken (fun _ hu => hu) hPQ)

theorem Located.repeated {p : Reader α} (h : Located text P P p) {s : State} {u : List Char}
    (hs : s.In text u) (hu : P u) : ∃ u', (Reader.repeated p s).2.In text u' ∧ P u' := by
  rw [Reader.repeated]
  rcases h hs hu with ⟨a, t, u', hread, ht, hu'⟩ | ⟨f, hrefused, hf⟩
  · simp only [hread]
    split
    · exact Located.repeated h ht hu'
    · exact ⟨u', ht, hu'⟩
  · simp only [hrefused]
    exact ⟨u, hs.pend hf, hu⟩
termination_by s.rest.length

theorem Located.many {p : Reader α} (h : Located text P P p) : Located text P P p.many := by
  intro s u hs hu
  obtain ⟨u', ht, hu'⟩ := h.repeated hs hu
  exact .inl ⟨_, _, u', rfl, ht, hu'⟩

/-! ### Characters -/

/-- After a character that is none of a word or a numeral a token may begin. -/
theorem located_character {c : Char} (hword : isWordChar c = false) (hsign : c ≠ '-') :
    Located text P Fresh (Reader.character c) := by
  intro s u hs _
  unfold Reader.character
  split
  · next d r hrest =>
    split
    · next heq =>
      subst heq
      have hfresh := fresh_concat hword hsign u
      have hfits := fits_of_isDigit (List.forall_mem_singleton.mpr (isDigit_of_isWordChar hword))
      exact .inl ⟨_, _, _, rfl, hs.past (x := [d]) hrest hfits (hfresh.unbroken r), hfresh⟩
    · exact .inr ⟨_, rfl, hs.refuse _⟩
  · exact .inr ⟨_, rfl, hs.refuse _⟩

theorem located_endOfInput : Located text P (fun u => u = text) Reader.endOfInput := by
  intro s u hs _
  unfold Reader.endOfInput
  split
  · next hrest =>
    refine .inl ⟨_, _, u, rfl, hs, ?_⟩
    rw [hs.split, hrest, List.append_nil]
  · exact .inr ⟨_, rfl, hs.refuse _⟩

/-! ### Blanks around, commas between -/

/-- Blanks may be read besides. -/
def AddsBlanks (P : List Char → Prop) : Prop :=
  ∀ u b, P u → Blanks b → P (u ++ b)

theorem addsBlanks_fresh : AddsBlanks Fresh :=
  fun _ _ hu hb => hu.blanks hb

theorem addsBlanks_true : AddsBlanks fun _ => True :=
  fun _ _ _ _ => trivial

theorem located_blanks (hP : AddsBlanks P) : Located text P P Reader.blanks := by
  intro s u hs hu
  have hblanks : Blanks (s.rest.takeWhile isBlank) :=
    fun c hc => List.all_eq_true.mp List.all_takeWhile c hc
  have hrest : s.rest = s.rest.takeWhile isBlank ++ s.rest.dropWhile isBlank :=
    List.takeWhile_append_dropWhile.symm
  have hunbroken := hs.unbroken
  rw [hrest] at hunbroken
  have ht := hs.past hrest (fits_blanks hblanks) (hunbroken.blanks hblanks)
  exact .inl ⟨_, _, _, rfl, ht, hP u _ hu hblanks⟩

theorem Located.padded {p : Reader α} (h : Located text P Q p) (hP : AddsBlanks P)
    (hQ : AddsBlanks Q) : Located text P Q p.padded :=
  (located_blanks hP).bind fun _ => h.bind fun a => (located_blanks hQ).bind fun _ => located_pure a

theorem located_delimiter {c : Char} (hword : isWordChar c = false) (hsign : c ≠ '-') :
    Located text (fun _ => True) Fresh (Reader.delimiter c) :=
  (located_character hword hsign).padded addsBlanks_true addsBlanks_fresh

theorem Located.listed {p : Reader α} (h : Located text Fresh (fun _ => True) p) :
    Located text Fresh (fun _ => True) p.listed := by
  have hnext : Located text (fun _ => True) (fun _ => True) (do Reader.delimiter ','; p) :=
    (located_delimiter (by decide) (by decide)).bind fun _ => h
  exact h.bind fun a => hnext.many.bind fun as => located_pure (a :: as)

/-! ### Words and literals -/

theorem located_word : Located text P (fun _ => True) word := by
  intro s u hs _
  by_cases hnone : EndsAt isInitial s.rest.head?
  · exact .inr ⟨_, word_refused hnone, hs.refuseClass _⟩
  · obtain ⟨c, hc, hinitial⟩ := exists_of_not_endsAt hnone
    obtain ⟨r, hrest⟩ := List.head?_eq_some_iff.mp hc
    obtain ⟨x, v, hsplit, hx, hv⟩ := exists_word hinitial r
    have ht := hs.past (hrest.trans hsplit) (fits_word hx) (unbroken_of_endsAt hv.digits _)
    exact .inl ⟨_, _, _, word_read (hrest.trans hsplit) hx hv, ht.pend (ht.refuseClass .identifier),
      trivial⟩

/-- A numeral that is read where one may begin is the whole of it. -/
theorem located_numeral {s : State} {u n v : List Char} (hs : s.In text u) (hu : Fresh u)
    (hrest : s.rest = n ++ v) (hn : IsNumeral n) (hv : EndsAt Char.isDigit v.head?) :
    (∃ a t u', literal s = .read a t ∧ t.In text u') ∨
      ∃ f, literal s = .refused f ∧ f.About text := by
  cases hvalue : int64? n with
  | some value =>
    obtain ⟨f, hf, hread⟩ := literal_inRange hrest hn hvalue hv
    have hpast := hs.past hrest (fits_numeral hn hvalue) (unbroken_of_endsAt hv _)
    have hended : f.About text := hpast.at hf
    have hfiled : (Failure.furthest s.pending {f with place := s.offset}).About text :=
      .furthest hs.pending hended
    exact .inl ⟨_, _, _, hread, hpast.pend hfiled⟩
  | none =>
    refine .inr ⟨_, literal_outOfRange hrest hn hvalue hv,
      .furthest hs.pending ⟨u, n, v, ?_, ?_, hs.fits, .numeral hu hn hvalue hv⟩⟩
    · rw [hs.split, hrest, List.append_assoc]
    · rw [byteLength_append, hs.offset]

theorem located_literal : Located text Fresh (fun _ => True) literal := by
  intro s u hs hu
  by_cases hfirst : ∃ c r, s.rest = c :: r ∧ (c = '-' ∨ c.isDigit = true)
  · obtain ⟨c, r, hrest, hc⟩ := hfirst
    rcases numeral_cases hc r with ⟨n, v, hsplit, hn, hv⟩ | ⟨rfl, hr⟩
    · rcases located_numeral hs hu (hrest.trans hsplit) hn hv with
        ⟨a, t, u', hread, ht⟩ | hrefused
      · exact .inl ⟨a, t, u', hread, ht, trivial⟩
      · exact .inr hrefused
    · obtain ⟨f, hrefused, hf⟩ := literal_refused_sign hrest hr
      have hfits := fits_of_isDigit (List.forall_mem_singleton.mpr (by decide : '-'.isDigit = false))
      have hpast := hs.past hrest hfits (unbroken_of_endsAt hr _)
      exact .inr ⟨f, hrefused, hpast.at hf⟩
  · have hnone : ∀ c, s.rest.head? = some c → c ≠ '-' ∧ c.isDigit = false := by
      intro c hc
      obtain ⟨r, hrest⟩ := List.head?_eq_some_iff.mp hc
      refine ⟨fun heq => hfirst ⟨c, r, hrest, .inl heq⟩, ?_⟩
      exact Bool.eq_false_iff.mpr fun hdigit => hfirst ⟨c, r, hrest, .inr hdigit⟩
    obtain ⟨f, hrefused, hf⟩ :=
      literal_refused (fun hc => (hnone '-' hc).1 rfl) fun c hc => (hnone c hc).2
    exact .inr ⟨f, hrefused, hs.at hf⟩

/-! ### Terms -/

theorem located_parameters : Located text (fun _ => True) (fun _ => True) parameters := by
  have hparameter : Located text Fresh (fun _ => True) parameter :=
    ((located_literal.map _).orElse (located_word.map _)).padded addsBlanks_fresh addsBlanks_true
  exact (located_delimiter (by decide) (by decide)).bind fun _ => hparameter.listed.bind fun ps =>
    ((located_delimiter (by decide) (by decide)).weaken (fun _ hu => hu) fun _ _ => trivial).bind
      fun _ => located_pure ps

theorem Located.operands {operand : Reader Term} (h : Located text Fresh (fun _ => True) operand) :
    Located text (fun _ => True) (fun _ => True) (operands operand) := by
  have hlist : Located text Fresh (fun _ => True) (.orElse operand.listed (pure [])) :=
    h.listed.orElse ((located_pure []).weaken (fun _ hu => hu) fun _ _ => trivial)
  exact (located_delimiter (by decide) (by decide)).bind fun _ => hlist.bind fun ts =>
    ((located_delimiter (by decide) (by decide)).weaken (fun _ hu => hu) fun _ _ => trivial).bind
      fun _ => located_pure ts

theorem Located.application {operand : Reader Term}
    (h : Located text Fresh (fun _ => True) operand) :
    Located text Fresh (fun _ => True) (application operand) :=
  located_word.bind fun _ => (located_parameters.optional fun _ hu => hu).bind fun _ =>
    h.operands.bind fun _ => located_pure _

theorem Located.term {below : Reader Term} (h : Located text Fresh (fun _ => True) below)
    (levels : Nat) : Located text Fresh (fun _ => True) (term below levels) := by
  induction levels with
  | zero => exact h
  | succ levels ih =>
    have hrest := ih.application.orElse (located_word.map Term.name)
    exact ((located_literal.map _).orElse hrest).padded addsBlanks_fresh addsBlanks_true

theorem located_whole (text : List Char) :
    (∃ t s, wholeText text = .read t s ∧ Fits text) ∨
      ∃ f, wholeText text = .refused f ∧ f.About text := by
  have hbelow : Located text Fresh (fun _ => True) noTerm :=
    fun s u hs _ => .inr ⟨_, rfl, hs.refuse _⟩
  have hwhole : Located text Fresh (fun u => u = text) (whole noTerm (text.length + 1)) :=
    (hbelow.term _).bind fun t => located_endOfInput.bind fun _ => located_pure t
  have hstart : (State.start text).In text [] :=
    ⟨rfl, rfl, fresh_nil.unbroken text, fits_nil, fun _ hf => nomatch hf⟩
  rcases hwhole hstart fresh_nil with ⟨t, s, u, hread, hs, rfl⟩ | hrefused
  · exact .inl ⟨t, s, hread, hs.fits⟩
  · exact .inr hrefused

/-- A text is read only if its numerals are in range. -/
theorem fits_of_wholeText_read {t : Term} {s : State} (h : wholeText text = .read t s) : Fits text := by
  rcases located_whole text with ⟨_, _, -, hfits⟩ | ⟨f, hrefused, -⟩
  · exact hfits
  · rw [hrefused] at h
    cases h

/-- What a text is refused for is a part of it. -/
theorem wholeText_refused_about {f : Failure} (h : wholeText text = .refused f) :
    f.About text := by
  rcases located_whole text with ⟨_, _, hread, -⟩ | ⟨g, hrefused, hg⟩
  · rw [hread] at h
    cases h
  · rw [hrefused] at h
    cases h
    exact hg

theorem wholeText_refused_in {f : Failure} (h : wholeText text = .refused f) : f.In text :=
  (wholeText_refused_about h).in

end Readers

end ConstraintNet.Reading
