import ConstraintNet.Proofs.Reading.Applications

/-! What the reader of terms makes of a text.

It takes every text of a term whose operands it may follow down (`term_reads`), and
every text begins with a term or fails (`term_decided`). Where a word comes first
the reading is that of what follows the word, and of the word alone if that is
refused (`term_of_word`): with a brace or a parenthesis after it the word is no term
by itself, so what was refused is what is left. -/
namespace ConstraintNet.Reading
open Text (byteLength byteLength_append isBlank)
open Grammar (Blanks Spaced IsWord InRange Derives DerivesBlock isWord_letter)

section Terms
variable (below : Reader Term) (n : Nat) {s : State} {x v : List Char}

theorem term_eq : term below (n + 1) = literalOr (fun l => .literal l.1 l.2)
    (.orElse (application (term below n)) (.name <$> word)) := rfl

theorem applied_skip (operand : Reader Term) (operator : String) (s : State) :
    applied operand operator s.skip = applied operand operator s := by
  have hparameters : parameters s.skip = parameters s := enclosed_skip '{' '}' _ s
  show (parameters.optional >>= _) s.skip = (parameters.optional >>= _) s
  cases h : parameters s with
  | read ps t => rw [bind_read (optional_read h), bind_read (optional_read (hparameters.trans h))]
  | refused f =>
    have hoperands :=
      enclosed_skip '(' ')' (.orElse operand.listed (pure [])) {s with pending := some f}
    rw [bind_read (optional_refused h), bind_read (optional_refused (hparameters.trans h)),
      Reader.bind_apply, Reader.bind_apply]
    rw [operands_eq, ← hoperands]
    rfl

/-- A word first: an operator if what is applied is read, and else a name. -/
theorem term_of_word (hskip : s.skip = s) (h : s.rest = x ++ v) (hx : IsWord x)
    (hv : EndsAt isWordChar v.head?) :
    ∃ t, t.Before v ∧ t.offset = (s.past x v).skip.offset ∧ t.total = s.total ∧ Calm t ∧
      (∀ a u, applied (term below n) (String.ofList x) t = .read a u →
        term below (n + 1) s = .read a u.skip) ∧
      ∀ f, applied (term below n) (String.ofList x) t = .refused f →
        term below (n + 1) s = Reader.padded (.name <$> word) {s with pending := some f} := by
  obtain ⟨s', hoffset, hrest, hskip', hcalm, hread⟩ := literalOr_other
    (q := Reader.orElse (application (term below n)) (Term.name <$> word))
    (k := fun l => Term.literal l.1 l.2) hskip (by rw [h]; exact notNumeral_word hx v)
  obtain ⟨t, hword, htoffset, ht, htcalm⟩ : ∃ t, word s' = .read (String.ofList x) t ∧
      t.offset = s'.offset + byteLength x ∧ t.rest = v ∧ Calm t := by
    have hclear := hcalm.past (afterBlanks_word hx).1 v
    exact ⟨_, word_read (hrest.trans h) hx hv, rfl, rfl,
      calm_pending (.inr (hclear.calm.refuseClass _))⟩
  have happlication : application (term below n) s' =
      applied (term below n) (String.ofList x) t.skip := by
    rw [application_eq, bind_read hword, applied_skip]
  refine ⟨t.skip, congrArg afterBlanks ht, ?_, ?_, htcalm.skip, ?_, ?_⟩
  · show t.offset + byteLength (t.rest.takeWhile isBlank) = s.offset + byteLength x + _
    rw [htoffset, hoffset, ht]
    rfl
  · rw [State.total_skip, State.total, State.total, htoffset, hoffset, ht, h, byteLength_append,
      Nat.add_assoc]
  · intro a u happlied
    rw [term_eq below n, hread]
    exact padded_read (by rw [hskip']; exact orElse_read (happlication.trans happlied) _)
  · intro f happlied
    have hsame : ({s' with pending := some f} : State) = {s with pending := some f} := by
      rw [State.mk.injEq]
      exact ⟨hoffset, hrest, rfl⟩
    rw [term_eq below n, hread]
    refine padded_congr ?_
    rw [hskip', State.skip_pending hskip, ← hsame]
    exact orElse_refused (happlication.trans happlied) _

/-- A word that is no operator. -/
theorem term_of_name (hskip : s.skip = s) (h : s.rest = x ++ v) (hx : IsWord x)
    (hv : EndsAt isWordChar v.head?) (hopens : ¬ Opens (ahead v).token) :
    ∃ t, term below (n + 1) s = .read (.name (String.ofList x)) t ∧ t.Before v ∧
      t.total = s.total ∧ Calm t := by
  obtain ⟨t, ht, hoffset, -, hcalm, -, hrefused⟩ := term_of_word below n hskip h hx hv
  obtain ⟨f, happlied, hat⟩ := applied_refused hcalm ht.skip_eq (by rwa [ht.head_eq])
  let u : State := {s with pending := some f}
  have hu : Calm (u.past x v).skip := by
    rintro g ⟨⟩
    exact .inr (hat.congr hoffset ht)
  obtain ⟨t', hname, ht', htotal, hcalm'⟩ := name_read (s := u) (k := Term.name)
    (State.skip_pending hskip _) h hx hv hu
  exact ⟨t', by rw [hrefused f happlied, hname], ht', htotal, hcalm'⟩

/-- A word with a brace or a parenthesis after it is a name of which no use can be
made: what was refused beyond it is what is left. -/
theorem name_stranded {f : Failure} (hskip : s.skip = s) (h : s.rest = x ++ v) (hx : IsWord x)
    (hv : EndsAt isWordChar v.head?) (hopens : Opens (ahead v).token)
    (hplace : (s.past x v).skip.offset ≤ f.place) :
    ∃ g : Failure, g.place = f.place ∧ g.span = f.span ∧
      Left Opens g (Reader.padded (Term.name <$> word) {s with pending := some f}) := by
  let u : State := {s with pending := some f}
  have hread := name_apply (s := u) (k := Term.name) (State.skip_pending hskip _) h hx hv
  have hclass : (u.past x v).refuseClass .identifier = (u.past x v).refuse .identifier := by
    cases v with
    | nil => rcases hopens with hopens | hopens <;> cases hopens
    | cons c v => exact State.refuseClass_of_head rfl _
  have hle : (u.past x v).offset ≤ f.place := Nat.le_trans (State.offset_le_skip _) hplace
  have hkeep : ((u.past x v).refuse .identifier).place = f.place ∧
      ((u.past x v).refuse .identifier).span = f.span := Failure.furthest_of_le hle
  refine ⟨(u.past x v).refuse .identifier, hkeep.1, hkeep.2, ?_⟩
  rw [hread, hclass]
  exact .read ⟨rfl, by rw [hkeep.1]; exact hplace, afterBlanks_afterBlanks v, hopens⟩

/-- No term begins like this. -/
theorem term_refused (hskip : s.skip = s) (hnumeral : NotNumeral s.rest.head?)
    (hword : EndsAt isInitial s.rest.head?) : ∃ f, term below (n + 1) s = .refused f ∧ f.At s := by
  obtain ⟨s', hoffset, hrest, hskip', hcalm, hread⟩ := literalOr_other
    (q := Reader.orElse (application (term below n)) (Term.name <$> word))
    (k := fun l => Term.literal l.1 l.2) hskip hnumeral
  rw [← hrest] at hword
  have happlication : application (term below n) s' = .refused (s'.refuseClass .identifier) :=
    bind_refused (word_refused hword) _
  let u : State := {s' with pending := some (s'.refuseClass .identifier)}
  have hcalm' : Calm u := calm_pending (.inr (hcalm.refuseClass .identifier))
  have hname : (Term.name <$> word) u = .refused (u.refuseClass .identifier) :=
    map_refused (word_refused (s := u) hword) _
  refine ⟨_, ?_, (hcalm'.refuseClass .identifier).congr hoffset hrest⟩
  rw [term_eq below n, hread]
  refine padded_refused ?_
  rw [hskip', orElse_refused happlication, hname]

theorem term_closing : RefusesHere n ')' (term below n) := by
  intro s hn _ hskip hhead
  cases n with
  | zero => exact absurd hn (Nat.not_lt_zero _)
  | succ n =>
    refine term_refused below n hskip ?_ ?_
    · rw [hhead]
      refine ⟨by decide, ?_⟩
      rintro c ⟨⟩
      decide
    · rw [hhead]
      rintro c ⟨⟩
      decide

end Terms

/-! ### Texts of terms -/

theorem name_takes (n : Nat) {x w : List Char} {next : Ahead} (hx : IsWord x) (hw : Spaced x w)
    (hends : Phrase.term.Ends (.name (String.ofList x)) next) :
    Takes (n + 1) Clear Calm (term noTerm (n + 1)) (.name (String.ofList x)) w next := by
  rintro s v - hs rfl hbefore
  obtain ⟨a, ha, htext⟩ := afterBlanks_spacedWord hx hw
  have hrest : s.rest = x ++ (a ++ v) := hbefore.trans (htext v)
  have hv := endsAt_blanks (fun _ => isBlank_of_isWordChar) ha hends.1
  have hopens : ¬ Opens (ahead (a ++ v)).token := by
    rw [ahead, afterBlanks_append ha, Opens, not_or]
    exact hends.2
  obtain ⟨t, hread, ht, htotal, hcalm⟩ := term_of_name noTerm n hbefore.skip_eq hrest hx hv hopens
  exact ⟨t, hread, ht.trans (afterBlanks_append ha v), htotal, hcalm⟩

/-- An operator, and what is applied, which is read one level further down. -/
theorem application_takes {n : Nat} (hp : Reads n Clear Calm Phrase.term (term noTerm n))
    {x u w : List Char} {t : Term} {next : Ahead} (hx : IsWord x) (hu : Spaced x u)
    (hw : (Phrase.applied (String.ofList x)).Text t w) :
    Takes (n + 1) Clear Calm (term noTerm (n + 1)) t (u ++ w) next := by
  rintro s v hn hs rfl hbefore
  obtain ⟨a, ha, htext⟩ := afterBlanks_spacedWord hx hu
  rw [List.append_assoc] at hbefore
  have hrest := hbefore.trans (htext _)
  have hv := endsAt_blanks (fun _ => isBlank_of_isWordChar) ha (opens_applied hw v).endsAt
  obtain ⟨t₁, ht, -, htotal, hcalm, hread, -⟩ := term_of_word noTerm n hbefore.skip_eq hrest hx hv
  rw [State.Before, afterBlanks_append ha] at ht
  have hlt : t₁.rest.length < s.rest.length := by
    refine hbefore.length_lt ht ?_
    have hu' := htext []
    rw [List.append_nil] at hu'
    rw [hu']
    exact List.append_ne_nil_of_left_ne_nil (afterBlanks_word hx).1 _
  obtain ⟨t₂, happlied, ht', htotal', hclear⟩ :=
    applied_reads hp (term_closing noTerm n) hw trivial (by omega) hcalm rfl ht
  refine ⟨t₂.skip, hread _ _ happlied, ?_, ?_, hclear.skip.calm⟩
  · rw [State.Before, State.rest_skip, ht', afterBlanks_afterBlanks]
  · rw [State.total_skip, htotal', htotal]

/-- The reader of terms takes the texts of terms. -/
theorem term_reads (n : Nat) : Reads n Clear Calm Phrase.term (term noTerm n) := by
  induction n with
  | zero => exact fun _ _ _ _ _ s _ hn => absurd hn (Nat.not_lt_zero _)
  | succ n ih =>
    intro t w next hw hends
    cases hw with
    | literal hx hvalue hw => exact literalOr_takes hx hvalue hw hends
    | @application f ps ts u y w x z hf hu hblock hopening hlist hclosing =>
      rw [List.append_assoc u]
      exact application_takes ih hf hu
        ⟨ps, ts, y, _, rfl, hblock, ⟨w, x, z, hopening, hlist, hclosing, rfl⟩, rfl⟩
    | name hx hw => exact name_takes n hx hw hends

/-! ### Every text -/

theorem derives_applied {b x w : List Char} {t : Term} (hb : Blanks b) (hx : IsWord x)
    (h : (Phrase.applied (String.ofList x)).Text t w) : Derives InRange t (b ++ x ++ w) := by
  obtain ⟨ps, ts, u, _, rfl, hblock, ⟨y, y', z, hy, hlist, hz, rfl⟩, rfl⟩ := h
  rw [← List.append_assoc]
  exact .application hx (.front hb x) hblock hy hlist hz

theorem keeps_applicationOr {D : Option Char → Prop} (operand : Reader Term) :
    Keeps NotWord D (.orElse (application operand) (.name <$> word)) := by
  intro s f hs
  obtain ⟨g, hplace, hspan, hrefused⟩ := word_stranded hs
  have happlication : application operand s = .refused g := bind_refused hrefused _
  obtain ⟨g', hplace', hspan', hleft⟩ := keeps_word (D := D) Term.name
    (s := {s with pending := some g}) ⟨rfl, by rw [hplace]; exact hs.place, hs.rest, hs.barred⟩
  exact ⟨g', hplace'.trans hplace, hspan'.trans hspan, by rwa [orElse_refused happlication]⟩

/-- An operator whose parameters or operands fail. -/
theorem operator_fails {b x v : List Char} (hb : Blanks b) (hx : IsWord x)
    (hv : EndsAt isWordChar v.head?) (hopens : Opens (ahead v).token)
    (h : Fails Calm (fun _ => False) (Phrase.applied (String.ofList x)).Viable
      (fun n => applied (term noTerm n) (String.ofList x)) v) :
    Fails Clear Opens Phrase.term.Viable (term noTerm) (b ++ x ++ v) := by
  obtain ⟨hne, hsolid⟩ := afterBlanks_word hx
  obtain ⟨u, y, z, rfl, hedge, ⟨t, w, hw, hu⟩, hstuck⟩ := h
  refine ⟨b ++ x ++ u, y, z, by simp only [List.append_assoc], hedge.after (b ++ x),
    ⟨t, b ++ x ++ w, derives_applied hb hx hw, (List.prefix_append_right_inj _).mpr hu⟩, ?_⟩
  intro n s z' hn hs hedge' hbefore
  cases n with
  | zero => exact absurd hn (Nat.not_lt_zero _)
  | succ n =>
    have hedge'' : Edge u y z' := ⟨hedge.solid, hedge'.last⟩
    have hahead : ahead (u ++ y ++ z') = ahead (u ++ y ++ z) := hedge.ahead_eq hedge''
    have hbefore' : s.Before (b ++ x ++ (u ++ y ++ z')) := by
      simpa only [List.append_assoc] using hbefore
    have hrest : s.rest = x ++ (u ++ y ++ z') := by
      rw [hbefore', List.append_assoc, afterBlanks_append hb,
        afterBlanks_append_of_ne (by rwa [hsolid]), hsolid]
    have hv' : EndsAt isWordChar (ahead (u ++ y ++ z')).next := by
      rw [hahead]
      exact hv
    obtain ⟨t, ht, hoffset, htotal, hcalm, -, hrefused⟩ :=
      term_of_word noTerm n hbefore'.skip_eq hrest hx hv'
    have hlt : t.rest.length < s.rest.length := by
      refine hbefore'.length_lt ht ?_
      rwa [afterBlanks_append hb, hsolid]
    obtain ⟨f, hmarks, hleft⟩ : Stuck _ (applied (term noTerm n) (String.ofList x) t) t.total y z' :=
      hstuck n t z' (by omega) hcalm hedge'' ht
    rcases hleft.cases with happlied | ⟨_, _, -, hstranded⟩
    · have hplace : (s.past x (u ++ y ++ z')).skip.offset ≤ f.place := by
        rw [← hoffset]
        exact hmarks.offset_le ht hedge''
      obtain ⟨g, hgplace, hgspan, hname⟩ :=
        name_stranded hbefore'.skip_eq hrest hx hv' (by rwa [hahead]) hplace
      rw [htotal] at hmarks
      rw [hrefused f happlied]
      exact ⟨g, hmarks.congr hgplace hgspan, hname⟩
    · exact hstranded.barred.elim

/-- Every text begins with a term, or fails. -/
theorem term_decided (r : List Char) : Decided Clear Opens Phrase.term (term noTerm) r := by
  induction hlength : r.length using Nat.strongRecOn generalizing r with
  | ind m ih =>
    rcases token_cases (ahead r).token with ⟨c, hc, hnumeral⟩ | ⟨c, hc, hword⟩ | ⟨hnumeral, hword⟩
    · refine literalOr_decided (k := fun l => Term.literal l.1 l.2) hc hnumeral (fun n hn => ?_)
        .literal fun h => h
      obtain ⟨n, rfl⟩ := Nat.exists_eq_succ_of_ne_zero (Nat.ne_of_gt hn)
      exact ⟨_, keeps_applicationOr (term noTerm n), term_eq noTerm n⟩
    · obtain ⟨b, x, v, rfl, hb, hx, hv⟩ := exists_next_word hc hword
      by_cases hopens : Opens (ahead v).token
      · have hd : ∀ v', v'.length < v.length → Decided Clear Opens Phrase.term (term noTerm) v' := by
          intro v' hv'
          refine ih v'.length ?_ v' rfl
          simp only [List.length_append] at hlength
          omega
        rcases applied_decided (String.ofList x) term_reads (term_closing noTerm) hd with
          ⟨t, w, v, rfl, hw, -⟩ | hfails
        · have ht : Phrase.term.Ends t (ahead v) := by
            obtain ⟨ps, ts, -, -, rfl, -⟩ := hw
            trivial
          exact .inl ⟨t, b ++ x ++ w, v, (List.append_assoc ..).symm, derives_applied hb hx hw, ht⟩
        · exact .inr (operator_fails hb hx hv hopens hfails)
      · rw [Opens, not_or] at hopens
        exact .inl ⟨_, b ++ x, v, rfl, .name hx (.front hb x), hv, hopens⟩
    · refine .inr (Fails.here (fun b hb => ?_) fun n s hn _ hskip hhead => ?_)
      · exact ⟨_, _, .name (isWord_letter (c := 'a') rfl) (.front hb _), List.prefix_append b _⟩
      · obtain ⟨n, rfl⟩ := Nat.exists_eq_succ_of_ne_zero (Nat.ne_zero_of_lt hn)
        rw [← hhead] at hnumeral hword
        exact term_refused noTerm n hskip hnumeral hword

end ConstraintNet.Reading
