import ConstraintNet.Proofs.Reading.Parse
import Mathlib.Data.List.Nodup

/-! What an error offers instead.

An error that found one thing names others that were expected there. Each of them is open:
the text up to the error goes on with it to a text of a term (`Term.parse_error_alternatives`).

No reader makes the list that is reported. Every reader that is refused at a place adds what it
expected itself, which is what its own texts begin with or go on with. So the list is right if
each reader is only asked to read where its texts may follow. That is what `Truthful` assumes of
the place where a reader starts, and a combination of readers finds it so wherever it starts
one of its parts, as what has been read before is a text of the parts before.

One failure is not filed where it happened. What ended a numeral is filed under the start of
the numeral, and it expects a digit more even if there is no room for one in 64 bits. It is never
reported, for whatever follows a numeral is refused further on. So nothing is asked of what is
pending behind the place of a reading (`State.Truthful`). -/
namespace ConstraintNet

namespace Reading
open Text (byteLength byteLength_append isBlank)
open Text.Decimal (IsNumeral int64? int64?_eq_some_iff)
open Grammar (Blanks Spaced IsWord InRange DerivesBlock IsText blanks_nil isWord_letter)

/-! ### Alternatives -/

/-- Some text of a term goes on after `u` with what is expected. -/
def Expectation.Continues (u : List Char) : Expectation → Prop
  | .character c => Viable (u ++ [c])
  | .digit => ∃ d, d.isDigit = true ∧ Viable (u ++ [d])
  -- the first character of a word, or a further one
  | .identifier => ∃ c, (c.isAlphanum = true ∨ c = '_') ∧ Viable (u ++ [c])
  | .any => ∃ c, Viable (u ++ [c])
  | .endOfInput => IsText u

/-- What was found between `u` and `v`, and what was expected there. -/
structure Alternatives (u v : List Char) (found : Option Char) (expected : List Expectation) :
    Prop where
  found_eq : found = v.head?
  ne_nil : expected ≠ []
  nodup : expected.Nodup
  continues : ∀ e ∈ expected, e.Continues u

/-- What was found and expected is so at the place of the failure. -/
def Failure.Truthful (f : Failure) (text : List Char) : Prop :=
  ∀ ⦃found expected⦄, f.complaint = .unexpected found expected → ∃ u v, text = u ++ v ∧
    f.place = byteLength u ∧ f.span.start = byteLength u ∧ Alternatives u v found expected

/-- The text has been read as far as `u`, and what is pending is truthful unless it is behind. -/
structure State.Truthful (s : State) (text u : List Char) : Prop where
  split : text = u ++ s.rest
  offset : s.offset = byteLength u
  pending : ∀ f, s.pending = some f → f.place < s.offset ∨ f.Truthful text

/-- Where all texts in `L` may follow, the reader reads one of them or is refused truthfully. -/
def Truthful {α : Type} (text : List Char) (L : α → List Char → Prop) (p : Reader α) : Prop :=
  ∀ ⦃s u⦄, s.Truthful text u → (∀ a w, L a w → Viable (u ++ w)) →
    (∃ a t w, p s = .read a t ∧ L a w ∧ t.Truthful text (u ++ w)) ∨
      ∃ f, p s = .refused f ∧ f.Truthful text

section
variable {text u v x : List Char} {s : State} {f g : Failure} {e : Expectation}

/-! ### What is expected -/

theorem Expectation.toList_text_character (c : Char) :
    (Expectation.character c).text.toList = ['\'', c, '\''] := by
  simp [text]

/-- No two alternatives are written alike. -/
theorem Expectation.text_injective : Function.Injective Expectation.text := by
  intro e e' h
  have hchars := congrArg String.toList h
  cases e with
  | character c =>
    rw [toList_text_character] at hchars
    cases e' with
    | character d =>
      rw [toList_text_character] at hchars
      cases hchars
      rfl
    | _ => cases hchars
  | _ =>
    cases e' with
    | character d =>
      rw [toList_text_character] at hchars
      cases hchars
    | _ => first | rfl | cases hchars

/-- Where something is expected besides the end, some character may follow. -/
theorem Expectation.Continues.any (h : e.Continues u) (hend : e ≠ .endOfInput) :
    Expectation.any.Continues u := by
  cases e with
  | character c => exact ⟨c, h⟩
  | digit => exact h.imp fun _ hd => hd.2
  | identifier => exact h.imp fun _ hc => hc.2
  | any => exact h
  | endOfInput => exact absurd rfl hend

theorem Alternatives.join {v' : List Char} {found found' : Option Char}
    {expected others : List Expectation} (h : Alternatives u v found expected)
    (h' : Alternatives u v' found' others) :
    Alternatives u v found (expected ++ others.filter (· ∉ expected)) := by
  refine ⟨h.found_eq, List.append_ne_nil_of_left_ne_nil h.ne_nil _, ?_, ?_⟩
  · refine List.nodup_append.mpr ⟨h.nodup, h'.nodup.filter _, ?_⟩
    rintro e he _ he' rfl
    exact of_decide_eq_true (List.mem_filter.mp he').2 he
  · intro e he
    rcases List.mem_append.mp he with he | he
    · exact h.continues e he
    · exact h'.continues e (List.mem_of_mem_filter he)

/-! ### Failures -/

/-- Failures of one place have the same text before them. -/
theorem Failure.Truthful.join (hf : f.Truthful text) (hg : g.Truthful text)
    (hplace : f.place = g.place) :
    Failure.Truthful {f with complaint := f.complaint.join g.complaint} text := by
  intro found expected hjoin
  change f.complaint.join g.complaint = _ at hjoin
  cases hfc : f.complaint with
  | outOfRange numeral =>
    rw [hfc] at hjoin
    cases hjoin
  | unexpected found' older =>
    cases hgc : g.complaint with
    | outOfRange numeral =>
      rw [hfc, hgc] at hjoin
      cases hjoin
    | unexpected found'' newer =>
      rw [hfc, hgc] at hjoin
      cases hjoin
      obtain ⟨u, v, htext, hu, hstart, hopen⟩ := hf hfc
      obtain ⟨u', v', htext', hu', -, hopen'⟩ := hg hgc
      obtain rfl : u' = u :=
        eq_of_byteLength_eq (htext'.symm.trans htext) (by rw [← hu', ← hplace, hu])
      exact ⟨u', v, htext, hu, hstart, hopen.join hopen'⟩

/-- What is behind gives way. -/
theorem Failure.Truthful.furthest {pending : Option Failure}
    (hp : ∀ p, pending = some p → p.place < f.place ∨ p.Truthful text) (hf : f.Truthful text) :
    (Failure.furthest pending f).Truthful text := by
  cases pending with
  | none => exact hf
  | some p =>
    rcases Nat.lt_trichotomy p.place f.place with hlt | heq | hlt
    · rwa [Failure.furthest_of_lt hlt]
    · rw [Failure.furthest_of_eq heq]
      exact ((hp p rfl).resolve_left (Nat.not_lt.mpr (Nat.le_of_eq heq.symm))).join hf heq
    · rw [Failure.furthest_of_gt hlt]
      exact (hp p rfl).resolve_left (Nat.lt_asymm hlt)

/-- A failure that is behind is put together with none that is not. -/
theorem Failure.furthest_behind {pending : Option Failure} {place : Nat}
    (hp : ∀ p, pending = some p → p.place < place ∨ p.Truthful text) (hf : f.place < place) :
    (Failure.furthest pending f).place < place ∨ (Failure.furthest pending f).Truthful text := by
  cases pending with
  | none => exact .inl hf
  | some p =>
    rcases Nat.lt_trichotomy p.place f.place with hlt | heq | hlt
    · rw [Failure.furthest_of_lt hlt]
      exact .inl hf
    · rw [Failure.furthest_of_eq heq]
      exact .inl (heq ▸ hf)
    · rw [Failure.furthest_of_gt hlt]
      exact hp p rfl

/-! ### States -/

theorem State.Truthful.here (h : s.Truthful text u) (he : e.Continues u) :
    Failure.Truthful ⟨s.offset, s.next, .unexpected s.rest.head? [e]⟩ text := by
  rintro _ _ ⟨⟩
  exact ⟨u, s.rest, h.split, h.offset, h.offset, rfl, List.cons_ne_nil e [],
    List.nodup_singleton e, List.forall_mem_singleton.mpr he⟩

theorem State.Truthful.refuse (h : s.Truthful text u) (he : e.Continues u) :
    (s.refuse e).Truthful text :=
  .furthest h.pending (h.here he)

theorem State.Truthful.refuseClass (h : s.Truthful text u) (he : e.Continues u)
    (hend : e ≠ .endOfInput) : (s.refuseClass e).Truthful text := by
  unfold State.refuseClass
  split
  · next hrest =>
    have hhere := h.here (he.any hend)
    rw [hrest] at hhere
    exact hhere
  · exact h.refuse he

theorem State.Truthful.pend (h : s.Truthful text u) (hf : f.Truthful text) :
    State.Truthful {s with pending := some f} text u :=
  ⟨h.split, h.offset, fun _ hg => .inr (Option.some.inj hg ▸ hf)⟩

theorem State.Truthful.past (h : s.Truthful text u) (hrest : s.rest = x ++ v) :
    (s.past x v).Truthful text (u ++ x) := by
  refine ⟨?_, ?_, fun f hf => ?_⟩
  · rw [h.split, hrest, List.append_assoc]
    rfl
  · rw [byteLength_append, ← h.offset]
    rfl
  · exact (h.pending f hf).imp_left fun hlt => Nat.lt_of_lt_of_le hlt (Nat.le_add_right ..)

theorem State.Truthful.skip (h : s.Truthful text u) :
    ∃ b, Blanks b ∧ s.skip.Truthful text (u ++ b) :=
  ⟨s.rest.takeWhile isBlank, List.all_eq_true.mp List.all_takeWhile,
    h.past List.takeWhile_append_dropWhile.symm⟩

end

/-! ### Readers -/

section Readers
variable {α β : Type} {text : List Char} {L N : α → List Char → Prop} {p q : Reader α}

theorem Truthful.weaken (h : Truthful text L p) (hN : ∀ a w, L a w → N a w) :
    Truthful text N p := by
  intro s u hs hu
  rcases h hs fun a w hw => hu a w (hN a w hw) with ⟨a, t, w, hread, hw, ht⟩ | hrefused
  · exact .inl ⟨a, t, w, hread, hN a w hw, ht⟩
  · exact .inr hrefused

theorem truthful_pure {a : α} (h : L a []) : Truthful text L (pure a) :=
  fun s u hs _ => .inl ⟨a, s, [], rfl, h, by rwa [List.append_nil]⟩

/-- What is read first may follow if there is something to be read after it. -/
theorem Truthful.bind {M : α → β → List Char → Prop} {N : β → List Char → Prop}
    {k : α → Reader β} (h : Truthful text L p) (hk : ∀ a, Truthful text (M a) (k a))
    (hM : ∀ a, ∃ b w, M a b w) (hN : ∀ a b v w, L a v → M a b w → N b (v ++ w)) :
    Truthful text N (p >>= k) := by
  intro s u hs hu
  have hboth : ∀ a b v w, L a v → M a b w → Viable (u ++ v ++ w) := by
    intro a b v w hv hw
    rw [List.append_assoc]
    exact hu b _ (hN a b v w hv hw)
  have hfirst : ∀ a v, L a v → Viable (u ++ v) := by
    intro a v hv
    obtain ⟨b, w, hw⟩ := hM a
    exact (hboth a b v w hv hw).left
  rcases h hs hfirst with ⟨a, t, v, hread, hv, ht⟩ | ⟨f, hrefused, hf⟩
  · rw [bind_read hread]
    rcases hk a ht fun b w hw => hboth a b v w hv hw with ⟨b, t', w, hread', hw, ht'⟩ | hrefused
    · exact .inl ⟨b, t', v ++ w, hread', hN a b v w hv hw, by rwa [← List.append_assoc]⟩
    · exact .inr hrefused
  · exact .inr ⟨f, bind_refused hrefused k, hf⟩

theorem Truthful.map {N : β → List Char → Prop} (h : Truthful text L p) (k : α → β)
    (hN : ∀ a w, L a w → N (k a) w) : Truthful text N (k <$> p) := by
  refine h.bind (M := fun a b w => b = k a ∧ w = []) (fun a => truthful_pure ⟨rfl, rfl⟩)
    (fun a => ⟨_, _, rfl, rfl⟩) ?_
  rintro a _ v _ hv ⟨rfl, rfl⟩
  rw [List.append_nil]
  exact hN a v hv

theorem Truthful.orElse (h : Truthful text L p) (hq : Truthful text L q) :
    Truthful text L (.orElse p q) := by
  intro s u hs hu
  rcases h hs hu with ⟨a, t, w, hread, ht⟩ | ⟨f, hrefused, hf⟩
  · exact .inl ⟨a, t, w, orElse_read hread q, ht⟩
  · rw [orElse_refused hrefused]
    exact hq (hs.pend hf) hu

theorem Truthful.optional {N : Option α → List Char → Prop} (h : Truthful text L p)
    (hsome : ∀ a w, L a w → N (some a) w) (hnone : N none []) : Truthful text N p.optional :=
  (h.map some hsome).orElse (truthful_pure hnone)

/-- With any blanks around it the text is in `L`. -/
def Padded (L : α → List Char → Prop) (a : α) (v : List Char) : Prop :=
  ∀ b c, Blanks b → Blanks c → L a (b ++ v ++ c)

theorem Truthful.padded (h : Truthful text (Padded L) p) : Truthful text L p.padded := by
  intro s u hs hu
  obtain ⟨b, hb, hskip⟩ := hs.skip
  have hinner : ∀ a v, Padded L a v → Viable (u ++ b ++ v) := by
    intro a v hv
    have hw := hu a _ (hv b [] hb blanks_nil)
    rwa [List.append_nil, ← List.append_assoc] at hw
  rcases h hskip hinner with ⟨a, t, v, hread, hv, ht⟩ | ⟨f, hrefused, hf⟩
  · obtain ⟨c, hc, ht'⟩ := ht.skip
    refine .inl ⟨a, t.skip, b ++ v ++ c, padded_read hread, hv b c hb hc, ?_⟩
    simpa only [List.append_assoc] using ht'
  · exact .inr ⟨f, padded_refused hrefused, hf⟩

/-! ### Lists in brackets -/

theorem truthful_character (c : Char) :
    Truthful text (fun _ w => w = [c]) (Reader.character c) := by
  intro s u hs hu
  by_cases h : s.rest.head? = some c
  · obtain ⟨r, hrest⟩ := List.head?_eq_some_iff.mp h
    exact .inl ⟨(), _, [c], character_read hrest, rfl, hs.past hrest⟩
  · exact .inr ⟨_, character_refused h, hs.refuse (hu () [c] rfl)⟩

theorem truthful_delimiter (c : Char) :
    Truthful text (Phrase.delimiter c).Text (Reader.delimiter c) := by
  refine ((truthful_character c).weaken ?_).padded
  rintro _ _ rfl b a hb ha
  exact ⟨b, a, hb, ha, rfl⟩

section Items
variable {L : Phrase α}

theorem Truthful.commaThen (h : Truthful text L.Text p) (hL : ∃ a w, L.Text a w) :
    Truthful text L.next.Text (commaThen p) :=
  (truthful_delimiter ',').bind (fun _ => h) (fun _ => hL) fun _ _ v w hv hw => ⟨v, w, hv, hw, rfl⟩

/-- Where items may follow, one of them may, and the others after it. -/
theorem Truthful.repeated (h : Truthful text L.next.Text p) {s : State} {u : List Char}
    (hs : s.Truthful text u) (hu : ∀ as w, L.following.Text as w → Viable (u ++ w)) :
    ∃ w, L.following.Text (Reader.repeated p s).1 w ∧
      (Reader.repeated p s).2.Truthful text (u ++ w) := by
  have hone : ∀ {a w}, L.next.Text a w → L.following.Text [a] w := by
    intro a w hw
    have hcons := Phrase.following_cons hw (.nil : L.following.Text [] [])
    rwa [List.append_nil] at hcons
  rw [Reader.repeated]
  rcases h hs fun a w hw => hu [a] w (hone hw) with ⟨a, t, w, hread, hw, ht⟩ | ⟨f, hrefused, hf⟩
  · simp only [hread]
    split
    · have hrest : ∀ as x, L.following.Text as x → Viable (u ++ w ++ x) := by
        intro as x hx
        rw [List.append_assoc]
        exact hu _ _ (Phrase.following_cons hw hx)
      obtain ⟨x, hx, ht'⟩ := Truthful.repeated h ht hrest
      exact ⟨w ++ x, Phrase.following_cons hw hx, by rwa [← List.append_assoc]⟩
    · exact ⟨w, hone hw, ht⟩
  · simp only [hrefused]
    exact ⟨[], .nil, by simpa only [List.append_nil] using hs.pend hf⟩
termination_by s.rest.length

theorem Truthful.many (h : Truthful text L.next.Text p) :
    Truthful text L.following.Text p.many := by
  intro s u hs hu
  obtain ⟨w, hw, ht⟩ := h.repeated hs hu
  exact .inl ⟨_, _, w, rfl, hw, ht⟩

theorem Truthful.listed (h : Truthful text L.Text p) (hL : ∃ a w, L.Text a w) :
    Truthful text L.listed.Text p.listed := by
  refine h.bind (M := fun a as w => ∃ bs, as = a :: bs ∧ L.following.Text bs w)
    (fun a => (h.commaThen hL).many.map (a :: ·) fun bs w hw => ⟨bs, rfl, hw⟩)
    (fun a => ⟨_, _, [], rfl, .nil⟩) ?_
  rintro a _ v w hv ⟨bs, rfl, hw⟩
  exact ⟨List.cons_ne_nil a bs, .some hv hw⟩

theorem Truthful.enclosed {M : Phrase β} {q : Reader β} (h : Truthful text M.Text q)
    (hM : ∃ b w, M.Text b w) (opening closing : Char) :
    Truthful text (M.enclosed opening closing).Text (enclosed opening closing q) := by
  have hclosing : ∀ b : β, Truthful text (fun b' x => b' = b ∧ Spaced [closing] x)
      (Reader.delimiter closing >>= fun _ => pure b) :=
    fun b => (truthful_delimiter closing).map (fun _ => b) fun _ _ hx => ⟨rfl, hx⟩
  have hinside : Truthful text
      (fun b w => ∃ v x, M.Text b v ∧ Spaced [closing] x ∧ w = v ++ x)
      (q >>= fun b => Reader.delimiter closing >>= fun _ => pure b) := by
    refine h.bind hclosing (fun b => ⟨b, _, rfl, .refl _⟩) ?_
    rintro b _ v x hv ⟨rfl, hx⟩
    exact ⟨v, x, hv, hx, rfl⟩
  refine (truthful_delimiter opening).bind (fun _ => hinside) (fun _ => ?_) ?_
  · obtain ⟨b, v, hv⟩ := hM
    exact ⟨b, _, v, _, hv, .refl _, rfl⟩
  · rintro _ b u _ hu ⟨v, x, hv, hx, rfl⟩
    exact ⟨u, v, x, hu, hv, hx, (List.append_assoc ..).symm⟩

end Items

end Readers

/-! ### Words and literals -/

section Tokens
variable {text u : List Char} {s : State}

theorem isWord_concat {x : List Char} {c : Char} (h : IsWord x)
    (hc : c.isAlphanum = true ∨ c = '_') : IsWord (x ++ [c]) := by
  obtain ⟨d, ds, rfl, hd, hds⟩ := h
  refine ⟨d, ds ++ [c], rfl, hd, fun b hb => ?_⟩
  rcases List.mem_append.mp hb with hb | hb
  · exact hds b hb
  · exact List.mem_singleton.mp hb ▸ hc

theorem Viable.identifier (h : Viable (u ++ ['a'])) : Expectation.identifier.Continues u :=
  ⟨'a', .inl rfl, h⟩

theorem Viable.digit (h : Viable (u ++ ['0'])) : Expectation.digit.Continues u :=
  ⟨'0', rfl, h⟩

/-- Where a word may follow, a longer one may. -/
theorem truthful_word : Truthful text (fun x w => x = String.ofList w ∧ IsWord w) word := by
  intro s u hs hu
  by_cases hnone : EndsAt isInitial s.rest.head?
  · have hletter : Viable (u ++ ['a']) := hu _ _ ⟨rfl, isWord_letter rfl⟩
    exact .inr ⟨_, word_refused hnone, hs.refuseClass hletter.identifier nofun⟩
  · obtain ⟨c, hc, hinitial⟩ := exists_of_not_endsAt hnone
    obtain ⟨r, hrest⟩ := List.head?_eq_some_iff.mp hc
    obtain ⟨x, v, hsplit, hx, hv⟩ := exists_word hinitial r
    have hlonger : Viable (u ++ x ++ ['a']) := by
      rw [List.append_assoc]
      exact hu _ _ ⟨rfl, isWord_concat hx (.inl rfl)⟩
    have hpast := hs.past (hrest.trans hsplit)
    exact .inl ⟨_, _, x, word_read (hrest.trans hsplit) hx hv, ⟨rfl, hx⟩,
      hpast.pend (hpast.refuseClass hlonger.identifier nofun)⟩

/-- What is pending after a numeral was pending before it, or is behind. -/
theorem State.Truthful.numeral {n v : List Char} (h : s.Truthful text u) (hrest : s.rest = n ++ v)
    (hn : IsNumeral n) (hv : EndsAt Char.isDigit v.head?) :
    (∃ value t, InRange n value ∧ literal s = .read (String.ofList n, value) t ∧
      t.Truthful text (u ++ n)) ∨ ∃ f, literal s = .refused f ∧ f.Truthful text := by
  cases hvalue : int64? n with
  | some value =>
    obtain ⟨f, -, hread⟩ := literal_inRange hrest hn hvalue hv
    obtain ⟨hsplit, hoffset, hpending⟩ := h.past hrest
    refine .inl ⟨value, _, int64?_eq_some_iff.mp hvalue, hread, hsplit, hoffset, ?_⟩
    rintro _ ⟨⟩
    have hpos := byteLength_pos (numeral_ne_nil hn)
    exact Failure.furthest_behind hpending (Nat.lt_add_of_pos_right hpos)
  | none => exact .inr ⟨_, literal_outOfRange hrest hn hvalue hv, .furthest h.pending nofun⟩

/-- Where a literal may follow, a sign and a zero may. -/
theorem truthful_literal :
    Truthful text (fun l w => l.1 = String.ofList w ∧ IsNumeral w ∧ InRange w l.2) literal := by
  intro s u hs hu
  have hzero : Viable (u ++ ['0']) := hu (_, 0) _ ⟨rfl, zero_inRange (.inl rfl)⟩
  have hsigned : Viable (u ++ ['-'] ++ ['0']) := by
    rw [List.append_assoc]
    exact hu (_, 0) _ ⟨rfl, zero_inRange (.inr rfl)⟩
  have hapart : State.Truthful {s with pending := none} text u := ⟨hs.split, hs.offset, nofun⟩
  by_cases hnone : NotNumeral s.rest.head?
  · have hsign := hapart.pend (hapart.refuse (e := .character '-') hsigned.left)
    exact .inr ⟨_, literal_none hnone.1 hnone.2, hsign.refuseClass hzero.digit nofun⟩
  · obtain ⟨c, hc, hnumeral⟩ := exists_of_not_notNumeral hnone
    obtain ⟨r, hrest⟩ := List.head?_eq_some_iff.mp hc
    rcases numeral_cases hnumeral r with ⟨n, v, hsplit, hn, hv⟩ | ⟨rfl, hr⟩
    · rcases hs.numeral (hrest.trans hsplit) hn hv with ⟨value, t, hvalue, hread, ht⟩ | hrefused
      · exact .inl ⟨_, t, n, hread, ⟨rfl, hn, hvalue⟩, ht⟩
      · exact .inr hrefused
    · have hpast := hapart.past (x := ['-']) hrest
      exact .inr ⟨_, literal_sign hrest hr, hpast.refuseClass hsigned.digit nofun⟩

end Tokens

/-! ### Terms -/

section Terms
variable {text : List Char} {operand : Reader Term}

theorem truthful_parameters : Truthful text Phrase.parameters.Text parameters := by
  have hparameter : Truthful text Phrase.parameter.Text parameter := by
    refine ((truthful_literal.map _ ?_).orElse (truthful_word.map _ ?_)).padded
    · rintro ⟨_, value⟩ w ⟨-, hw, hvalue⟩ b a hb ha
      exact .integer hw hvalue ⟨b, a, hb, ha, rfl⟩
    · rintro _ w ⟨rfl, hw⟩ b a hb ha
      exact .symbol hw ⟨b, a, hb, ha, rfl⟩
  exact (hparameter.listed ⟨_, _, parameter_text⟩).enclosed
    ⟨_, _, List.cons_ne_nil _ [], .some parameter_text .nil⟩ '{' '}'

theorem Truthful.operands (h : Truthful text Phrase.term.Text operand) :
    Truthful text Phrase.operands.Text (operands operand) := by
  have hterm : ∃ t w, Phrase.term.Text t w :=
    ⟨_, _, .name (isWord_letter (c := 'a') rfl) (.refl _)⟩
  have hlist : Truthful text (Phrase.term.items ')').Text (.orElse operand.listed (pure [])) :=
    ((h.listed hterm).weaken fun _ _ hw => hw.2).orElse (truthful_pure .none)
  exact hlist.enclosed ⟨[], [], .none⟩ '(' ')'

theorem Truthful.applied (h : Truthful text Phrase.term.Text operand) (operator : String) :
    Truthful text (Phrase.applied operator).Text (applied operand operator) := by
  have hparameters : Truthful text (fun ps w => DerivesBlock InRange (ps.getD []) w)
      parameters.optional :=
    truthful_parameters.optional (fun _ _ hw => block_of_parameters hw) (.inl ⟨rfl, rfl⟩)
  refine hparameters.bind
    (M := fun ps t w => ∃ ts, t = .application operator (ps.getD []) ts ∧ Phrase.operands.Text ts w)
    (fun ps => h.operands.map _ fun ts w hw => ⟨ts, rfl, hw⟩)
    (fun ps => ⟨_, _, [], rfl, operands_text⟩) ?_
  rintro ps _ v w hv ⟨ts, rfl, hw⟩
  exact ⟨_, ts, v, w, rfl, hv, hw, rfl⟩

theorem Truthful.term {below : Reader Term} (h : Truthful text Phrase.term.Text below)
    (levels : Nat) : Truthful text Phrase.term.Text (term below levels) := by
  induction levels with
  | zero => exact h
  | succ levels ih =>
    have happlication := truthful_word.bind (N := Padded Phrase.term.Text) (fun x => ih.applied x)
      (fun x => ⟨_, _, [], [], [], _, rfl, .inl ⟨rfl, rfl⟩, operands_text, rfl⟩) ?application
    refine ((truthful_literal.map _ ?literal).orElse
      (happlication.orElse (truthful_word.map _ ?name))).padded
    case literal =>
      rintro ⟨_, value⟩ w ⟨rfl, hw, hvalue⟩ b a hb ha
      exact .literal hw hvalue ⟨b, a, hb, ha, rfl⟩
    case application =>
      rintro _ t x w ⟨rfl, hx⟩ hw b a hb ha
      have hderives := (derives_applied hb hx hw).after ha
      rwa [List.append_assoc b] at hderives
    case name =>
      rintro _ w ⟨rfl, hw⟩ b a hb ha
      exact .name hw ⟨b, a, hb, ha, rfl⟩

/-- What is left in the end is truthful. -/
theorem wholeText_refused_truthful {f : Failure} (h : wholeText text = .refused f) :
    f.Truthful text := by
  have hbelow : Truthful text Phrase.term.Text noTerm := by
    intro s u hs hu
    have hletter : Viable (u ++ ['a']) := hu _ _ (.name (isWord_letter rfl) (.refl _))
    exact .inr ⟨_, rfl, hs.refuse hletter.identifier⟩
  have hstart : (State.start text).Truthful text [] := ⟨rfl, rfl, nofun⟩
  have hviable : ∀ t w, Phrase.term.Text t w → Viable ([] ++ w) :=
    fun t w hw => ⟨[], t, by rwa [List.append_nil]⟩
  rw [wholeText, whole] at h
  rcases hbelow.term (text.length + 1) hstart hviable with
    ⟨t, s, w, hread, hw, hs⟩ | ⟨g, hrefused, hg⟩
  · rw [bind_read hread] at h
    cases hnext : s.rest.head? with
    | none =>
      have hend : Reader.endOfInput s = .read () s := by
        rw [Reader.endOfInput, List.head?_eq_none_iff.mp hnext]
      rw [bind_read hend] at h
      cases h
    | some c =>
      rw [bind_refused (endOfInput_refused hnext)] at h
      cases h
      exact hs.refuse ⟨t, hw⟩
  · rw [bind_refused hrefused] at h
    cases h
    exact hg

end Terms

end Reading

/-! ### Errors -/

namespace Term
open Text (byteLength byteLength_append)
open Reading (Complaint Expectation wholeText wholeText_refused_truthful byteLength_pos
  eq_of_byteLength_eq)

/-- An error that is not for nesting complains of what the text as a whole was refused for. -/
theorem refused_of_parse {s : String} {e : ParseError} {complaint : Complaint}
    (h : parse s = .error e) (hcause : e.cause = .grammar complaint) :
    ∃ f, wholeText s.toList = .refused f ∧ f.complaint = complaint ∧ f.span = e.span := by
  unfold parse at h
  split at h
  · obtain rfl := Except.error.inj h
    cases hcause
  · split at h
    · cases h
    · next f hf =>
      obtain rfl := Except.error.inj h
      exact ⟨f, hf, ParseError.Cause.grammar.inj hcause, rfl⟩

end Term

end ConstraintNet
