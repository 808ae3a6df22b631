import ConstraintNet.Proofs.Reading.Brackets

/-! What the readers of leaves make of a text.

A term and a parameter both begin by trying a literal. Where the text begins like a
numeral that settles it: what else is tried there refuses at once, and leaves what
the literal complained of. Otherwise the literal refuses on the spot and leaves a
calm state to the rest. -/
namespace ConstraintNet.Reading
open Text (byteLength byteLength_append isBlank)
open Text.Decimal (IsNumeral int64?)
open Grammar (Blanks Spaced IsWord InRange DerivesParameter isWord_letter)

/-! ### Tokens in a text -/

theorem endsAt_blanks {accept : Char → Bool} (haccept : ∀ c, accept c = true → isBlank c = false)
    {a v : List Char} (ha : Blanks a) (h : EndsAt accept v.head?) : EndsAt accept (a ++ v).head? := by
  cases a with
  | nil => exact h
  | cons c a =>
    rintro d ⟨⟩
    have hblank := ha c (List.mem_cons_self ..)
    rw [← Bool.not_eq_true]
    intro hc
    rw [haccept c hc] at hblank
    cases hblank

theorem afterBlanks_word {x : List Char} (h : IsWord x) : x ≠ [] ∧ afterBlanks x = x := by
  obtain ⟨c, cs, rfl, hc, -⟩ := h
  have hword := isWordChar_of_isInitial (isInitial_iff.mpr hc)
  exact ⟨List.cons_ne_nil c cs, afterBlanks_cons (isBlank_of_isWordChar hword) cs⟩

theorem afterBlanks_spacedWord {x w : List Char} (hx : IsWord x) (hw : Spaced x w) :
    ∃ a, Blanks a ∧ ∀ v, afterBlanks (w ++ v) = x ++ (a ++ v) :=
  afterBlanks_token (afterBlanks_word hx).1 (afterBlanks_word hx).2 hw

theorem head_numeral {x : List Char} (h : IsNumeral x) :
    ∃ c cs, x = c :: cs ∧ (c = '-' ∨ c.isDigit = true) := by
  obtain ⟨ds, hne, hds, rfl | rfl⟩ := h
  · obtain ⟨d, ds, rfl⟩ := List.exists_cons_of_ne_nil hne
    exact ⟨d, ds, rfl, .inr (hds d (List.mem_cons_self ..))⟩
  · exact ⟨'-', ds, rfl, .inl rfl⟩

theorem afterBlanks_numeral {x : List Char} (h : IsNumeral x) : x ≠ [] ∧ afterBlanks x = x := by
  obtain ⟨c, cs, rfl, rfl | hc⟩ := head_numeral h
  · exact ⟨List.cons_ne_nil _ _, afterBlanks_cons (by decide) cs⟩
  · have hblank := isBlank_of_isWordChar (isWordChar_of_isDigit hc)
    exact ⟨List.cons_ne_nil _ _, afterBlanks_cons hblank cs⟩

/-- The next character that is no blank has blanks before it. -/
theorem exists_token {r : List Char} {c : Char} (h : (ahead r).token = some c) :
    ∃ b z, Blanks b ∧ r = b ++ c :: z := by
  obtain ⟨b, z, hb, hr, -⟩ := exists_edge r
  rw [h, List.append_assoc] at hr
  exact ⟨b, z, hb, hr⟩

theorem exists_next_word {r : List Char} {c : Char} (h : (ahead r).token = some c)
    (hc : isInitial c = true) :
    ∃ b x v, r = b ++ x ++ v ∧ Blanks b ∧ IsWord x ∧ EndsAt isWordChar v.head? := by
  obtain ⟨b, z, hb, hr⟩ := exists_token h
  obtain ⟨x, v, hsplit, hx, hv⟩ := exists_word hc z
  exact ⟨b, x, v, by rw [hr, hsplit, List.append_assoc], hb, hx, hv⟩

/-! ### A literal first -/

section Literals
variable {α : Type} {k : String × Int64 → α} {q : Reader α} {n : Nat} {s : State}

/-- A literal, or else. -/
def literalOr (k : String × Int64 → α) (q : Reader α) : Reader α :=
  .padded (.orElse (k <$> literal) q)

theorem literalOr_takes {x w : List Char} {value : Int64} {next : Ahead} (hx : IsNumeral x)
    (hvalue : InRange x value) (hw : Spaced x w) (hnext : EndsAt Char.isDigit next.next) :
    Takes n Clear Calm (literalOr k q) (k (String.ofList x, value)) w next := by
  rintro s v - hs rfl hbefore
  obtain ⟨a, ha, htext⟩ := afterBlanks_token (afterBlanks_numeral hx).1 (afterBlanks_numeral hx).2 hw
  have hends : EndsAt Char.isDigit (a ++ v).head? :=
    endsAt_blanks (fun c hc => isBlank_of_isWordChar (isWordChar_of_isDigit hc)) ha hnext
  obtain ⟨t, hread, ht, htotal, hclear⟩ :=
    literal_read hs.calm (hbefore.trans (htext v)) hx hvalue hends
  refine ⟨t.skip, padded_read ?_, ?_, by rw [State.total_skip, htotal], hclear.skip.calm⟩
  · rw [hbefore.skip_eq]
    exact orElse_read (map_read hread k) q
  · rw [State.Before, State.rest_skip, ht, afterBlanks_append ha]

/-- The text does not begin like a numeral. -/
def NotNumeral (next : Option Char) : Prop :=
  next ≠ some '-' ∧ EndsAt Char.isDigit next

theorem exists_of_not_notNumeral {next : Option Char} (h : ¬ NotNumeral next) :
    ∃ c, next = some c ∧ (c = '-' ∨ c.isDigit = true) := by
  rcases Classical.not_and_iff_not_or_not.mp h with hminus | hdigit
  · exact ⟨'-', Decidable.not_not.mp hminus, .inl rfl⟩
  · obtain ⟨c, hc, hdigit⟩ := exists_of_not_endsAt hdigit
    exact ⟨c, hc, .inr hdigit⟩

theorem notNumeral_word {x : List Char} (h : IsWord x) (v : List Char) : NotNumeral (x ++ v).head? := by
  obtain ⟨c, cs, rfl, hc, -⟩ := h
  obtain ⟨hdigit, hminus⟩ := isDigit_of_isInitial (isInitial_iff.mpr hc)
  refine ⟨fun h => hminus (Option.some.inj h), ?_⟩
  rintro d ⟨⟩
  exact hdigit

/-- The literal refuses, and the rest goes on from the same place. -/
theorem literalOr_other (hskip : s.skip = s) (h : NotNumeral s.rest.head?) :
    ∃ t, t.offset = s.offset ∧ t.rest = s.rest ∧ t.skip = t ∧ Calm t ∧
      literalOr k q s = Reader.padded q t := by
  obtain ⟨f, hrefused, hat⟩ := literal_refused h.1 h.2
  have hsame := State.skip_pending hskip (some f)
  refine ⟨{s with pending := some f}, rfl, rfl, hsame, calm_pending (.inr hat), padded_congr ?_⟩
  rw [hskip, hsame]
  exact orElse_refused (map_refused hrefused k) q

/-! ### A literal that fails -/

/-- There is a character, and no word begins with it. -/
def NotWord (next : Option Char) : Prop :=
  ∃ c, next = some c ∧ isInitial c = false

theorem notWord_some {c : Char} (h : c = '-' ∨ c.isDigit = true) : NotWord (some c) := by
  refine ⟨c, rfl, ?_⟩
  rw [← Bool.not_eq_true]
  intro hc
  obtain ⟨hdigit, hminus⟩ := isDigit_of_isInitial hc
  rcases h with h | h
  · exact hminus h
  · rw [h] at hdigit
    cases hdigit

/-- What the literal complains of is what is left. -/
theorem literalOr_stuck {D : Option Char → Prop} {x z : List Char} {f : Failure}
    (hq : Keeps NotWord (fun _ => False) q) (hskip : s.skip = s) (hword : NotWord s.rest.head?)
    (hf : literal s = .refused f) (hplace : s.offset ≤ f.place) (hmarks : f.Marks s.total x z) :
    Stuck D (literalOr k q s) s.total x z := by
  have hrest := State.afterBlanks_rest hskip
  obtain ⟨g, hgplace, hgspan, hleft⟩ := hq (s := {s with pending := some f})
    ⟨rfl, hplace, hrest, hword⟩
  rcases hleft.cases with hg | ⟨a, t, -, hstranded⟩
  · refine ⟨g, hmarks.congr hgplace hgspan, ?_⟩
    have hrefused : literalOr k q s = .refused g := by
      refine padded_refused ?_
      rw [hskip, orElse_refused (map_refused hf k), hg]
    rw [hrefused]
    exact .refused
  · exact hstranded.barred.elim

/-- A literal is tried first at every level, and what else is tried is for words. -/
def LiteralFirst (k : String × Int64 → α) (p : Nat → Reader α) : Prop :=
  ∀ n, 0 < n → ∃ q, Keeps NotWord (fun _ => False) q ∧ p n = literalOr k q

variable {L : Phrase α} {p : Nat → Reader α} {D : Option Char → Prop}

/-- A numeral out of range is out of range however it goes on. -/
theorem outOfRange_fails {V : List Char → Prop} {b x v : List Char} (hb : Blanks b) (hx : IsNumeral x)
    (hnone : int64? x = none) (hV : V b) (hp : LiteralFirst k p) :
    Fails Clear D V p (b ++ x ++ v) := by
  obtain ⟨hne, hsolid⟩ := afterBlanks_numeral hx
  have hedge : Edge b x v := by
    refine ⟨?_, fun h => absurd h hne⟩
    rw [afterBlanks_append hb, afterBlanks_of_blanks hb, hsolid, List.nil_append]
  refine ⟨b, x, v, rfl, hedge, hV, ?_⟩
  intro n s z' hn hs hedge' hbefore
  have hrest : s.rest = x ++ z' := by
    rw [hbefore, hedge'.afterBlanks_eq, afterBlanks_of_blanks hb, List.nil_append]
  have hsplit : s.rest = x ++ z'.takeWhile Char.isDigit ++ z'.dropWhile Char.isDigit := by
    rw [hrest, List.append_assoc, List.takeWhile_append_dropWhile]
  have hdigits : ∀ d ∈ z'.takeWhile Char.isDigit, d.isDigit = true :=
    List.all_eq_true.mp List.all_takeWhile
  obtain ⟨hnumeral, hout⟩ := int64?_append hx hdigits hnone
  have hrefused := literal_outOfRange_clear hs hsplit hnumeral hout (endsAt_dropWhile _ _)
  obtain ⟨q, hq, hfirst⟩ := hp n (Nat.zero_lt_of_lt hn)
  rw [hfirst]
  refine literalOr_stuck hq hbefore.skip_eq ?_ hrefused (Nat.le_refl _)
    ⟨rfl, ?_, z'.takeWhile Char.isDigit, List.takeWhile_prefix _, rfl⟩
  · obtain ⟨c, cs, rfl, hc⟩ := head_numeral hx
    rw [hrest]
    exact notWord_some hc
  · show s.offset + _ = s.total
    rw [State.total, hrest]

/-- A sign without digits fails after the sign. -/
theorem sign_fails {V : List Char → Prop} {b r : List Char} (hb : Blanks b)
    (hr : EndsAt Char.isDigit r.head?) (hV : V (b ++ ['-'])) (hp : LiteralFirst k p) :
    Fails Clear D V p (b ++ '-' :: r) := by
  have hminus : afterBlanks (b ++ ['-']) = ['-'] := by
    rw [afterBlanks_append hb]
    exact afterBlanks_cons (by decide) []
  obtain ⟨x, z, rfl, hx, hlast⟩ : ∃ x z, r = x ++ z ∧ r.head?.toList = x ∧ (x = [] → z = []) :=
    ⟨r.head?.toList, r.tail, by cases r <;> rfl, rfl, by cases r <;> simp⟩
  have hedge : Edge (b ++ ['-']) x z := by
    refine ⟨afterBlanks_append_of_ne ?_ x, hlast⟩
    rw [hminus]
    exact List.cons_ne_nil _ _
  refine ⟨b ++ ['-'], x, z, by simp, hedge, hV, ?_⟩
  intro n s z' hn hs hedge' hbefore
  have hrest : s.rest = '-' :: (x ++ z') := by
    rw [hbefore, hedge'.afterBlanks_eq, hminus, List.append_assoc]
    rfl
  have hhead : (x ++ z').head? = (x ++ z).head? := by
    cases x with
    | nil => rw [hedge'.last rfl, hlast rfl]
    | cons c x => rfl
  obtain ⟨f, hrefused, hat⟩ := literal_refused_sign hrest (by rwa [hhead])
  have hmarks := hat.marks (x := x) (z := z') rfl (by show (x ++ z').head?.toList = x; rw [hhead, hx])
  rw [State.total_past hrest] at hmarks
  obtain ⟨q, hq, hfirst⟩ := hp n (Nat.zero_lt_of_lt hn)
  rw [hfirst]
  refine literalOr_stuck hq hbefore.skip_eq ?_ hrefused ?_ hmarks
  · rw [hrest]
    exact notWord_some (.inl rfl)
  · rw [hat.place]
    exact Nat.le_add_right _ _

/-- A text that begins like a numeral. -/
theorem literalOr_decided {r : List Char} {c : Char} (hc : (ahead r).token = some c)
    (hnumeral : c = '-' ∨ c.isDigit = true) (hp : LiteralFirst k p)
    (hText : ∀ {x value w}, IsNumeral x → InRange x value → Spaced x w →
      L.Text (k (String.ofList x, value)) w)
    (hEnds : ∀ {x value next}, EndsAt Char.isDigit next.next →
      L.Ends (k (String.ofList x, value)) next) :
    Decided Clear D L p r := by
  obtain ⟨b, z, hb, rfl⟩ := exists_token hc
  have hzero : ∀ sign : List Char, sign = [] ∨ sign = ['-'] → L.Viable (b ++ sign) := by
    intro sign hsign
    obtain ⟨hx, hvalue⟩ := zero_inRange hsign
    refine ⟨_, b ++ (sign ++ ['0']), hText hx hvalue (.front hb _), ?_⟩
    rw [← List.append_assoc]
    exact List.prefix_append _ _
  rcases numeral_cases hnumeral z with ⟨x, v, hsplit, hx, hv⟩ | ⟨rfl, hz⟩
  · rw [hsplit, ← List.append_assoc]
    cases hvalue : int64? x with
    | some value =>
      have hvalue' := Text.Decimal.int64?_eq_some_iff.mp hvalue
      exact .inl ⟨_, b ++ x, v, rfl, hText hx hvalue' (.front hb x), hEnds hv⟩
    | none =>
      refine .inr (outOfRange_fails hb hx hvalue ?_ hp)
      have hviable := hzero [] (.inl rfl)
      rwa [List.append_nil] at hviable
  · exact .inr (sign_fails hb hz (hzero ['-'] (.inr rfl)) hp)

end Literals

/-! ### Names -/

section Names
variable {α : Type} {k : String → α} {s : State} {x v : List Char}

theorem name_apply (hskip : s.skip = s) (h : s.rest = x ++ v) (hx : IsWord x)
    (hv : EndsAt isWordChar v.head?) :
    Reader.padded (k <$> word) s = .read (k (String.ofList x))
      {(s.past x v).skip with pending := some ((s.past x v).refuseClass .identifier)} :=
  padded_read (by rw [hskip]; exact map_read (word_read h hx hv) k)

/-- A word, if nothing that is pending lies ahead of what follows it. -/
theorem name_read (hskip : s.skip = s) (h : s.rest = x ++ v) (hx : IsWord x)
    (hv : EndsAt isWordChar v.head?) (hs : Calm (s.past x v).skip) :
    ∃ t, Reader.padded (k <$> word) s = .read (k (String.ofList x)) t ∧ t.Before v ∧
      t.total = s.total ∧ Calm t :=
  ⟨_, name_apply hskip h hx hv, rfl, (State.total_skip _).trans (State.total_past h),
    hs.refuseClass_skip .identifier⟩

/-- No word comes next, and what is pending is what is left. -/
theorem word_stranded {f : Failure} (hs : Stranded NotWord f s) :
    ∃ g : Failure, g.place = f.place ∧ g.span = f.span ∧ word s = .refused g := by
  obtain ⟨c, hc, hinitial⟩ := hs.barred
  have hrefused : word s = .refused (s.refuseClass .identifier) := by
    refine word_refused ?_
    rw [hc]
    rintro d ⟨⟩
    exact hinitial
  rw [State.refuseClass_of_head hc] at hrefused
  obtain ⟨hplace, hspan⟩ := hs.refuse .identifier
  exact ⟨_, hplace, hspan, hrefused⟩

theorem keeps_word {D : Option Char → Prop} (k : String → α) : Keeps NotWord D (k <$> word) := by
  intro s f hs
  obtain ⟨g, hplace, hspan, hrefused⟩ := word_stranded hs
  exact ⟨g, hplace, hspan, by rw [map_refused hrefused]; exact .refused⟩

end Names

/-! ### Parameters -/

section Parameters
variable {n : Nat}

def Phrase.parameter : Phrase Parameter where
  Text := DerivesParameter InRange
  Ends
    | .integer _, next => EndsAt Char.isDigit next.next
    | .symbol _, next => EndsAt isWordChar next.next

theorem parameter_eq : parameter = literalOr (fun l => .integer l.2) (.symbol <$> word) := rfl

theorem parameter_reads : Reads n Clear Calm Phrase.parameter parameter := by
  intro a w next hw hends
  cases hw with
  | integer hx hvalue hw => exact literalOr_takes hx hvalue hw hends
  | @symbol x _ hx hw =>
    rintro s v - hs rfl hbefore
    obtain ⟨a, ha, htext⟩ := afterBlanks_spacedWord hx hw
    have hrest : s.rest = x ++ (a ++ v) := hbefore.trans (htext v)
    have hv := endsAt_blanks (fun c hc => isBlank_of_isWordChar hc) ha hends
    have hnumeral : NotNumeral s.rest.head? := by
      rw [hrest]
      exact notNumeral_word hx _
    obtain ⟨t, hoffset, ht, hskip, hcalm, hread⟩ := literalOr_other (q := Parameter.symbol <$> word)
      (k := fun l => Parameter.integer l.2) hbefore.skip_eq hnumeral
    obtain ⟨t', hname, ht', htotal, hq⟩ := name_read (k := Parameter.symbol) hskip (ht.trans hrest)
      hx hv (hcalm.past (afterBlanks_word hx).1 _).skip.calm
    refine ⟨t', by rw [parameter_eq, hread, hname], ?_, ?_, hq⟩
    · exact ht'.trans (afterBlanks_append ha v)
    · exact htotal.trans (State.total_congr hoffset ht)

/-- What begins neither a literal nor a word is refused. -/
theorem literalOr_word_refused {α : Type} {l : String × Int64 → α} {k : String → α} {s : State}
    (hskip : s.skip = s) (hnumeral : NotNumeral s.rest.head?) (hword : EndsAt isInitial s.rest.head?) :
    ∃ f, literalOr l (k <$> word) s = .refused f ∧ f.At s := by
  obtain ⟨t, hoffset, ht, hskip', hcalm, hread⟩ :=
    literalOr_other (q := k <$> word) (k := l) hskip hnumeral
  rw [← ht] at hword
  refine ⟨_, ?_, (hcalm.refuseClass .identifier).congr hoffset ht⟩
  rw [hread]
  exact padded_refused (by rw [hskip']; exact map_refused (word_refused hword) k)

/-- The three ways in which a text goes on. -/
theorem token_cases (next : Option Char) :
    (∃ c, next = some c ∧ (c = '-' ∨ c.isDigit = true)) ∨ (∃ c, next = some c ∧ isInitial c = true) ∨
      NotNumeral next ∧ EndsAt isInitial next := by
  cases next with
  | none => exact .inr (.inr ⟨⟨nofun, nofun⟩, nofun⟩)
  | some c =>
    by_cases hnumeral : c = '-' ∨ c.isDigit = true
    · exact .inl ⟨c, rfl, hnumeral⟩
    · cases hword : isInitial c with
      | true => exact .inr (.inl ⟨c, rfl, hword⟩)
      | false =>
        rw [not_or, Bool.not_eq_true] at hnumeral
        refine .inr (.inr ⟨⟨fun h => hnumeral.1 (Option.some.inj h), ?_⟩, ?_⟩)
        · rintro d ⟨⟩
          exact hnumeral.2
        · rintro d ⟨⟩
          exact hword

theorem parameter_decided (r : List Char) {D : Option Char → Prop} :
    Decided Clear D Phrase.parameter (fun _ => parameter) r := by
  rcases token_cases (ahead r).token with ⟨c, hc, hnumeral⟩ | ⟨c, hc, hword⟩ | ⟨hnumeral, hword⟩
  · refine literalOr_decided (k := fun l => Parameter.integer l.2) hc hnumeral (fun _ _ => ?_)
      .integer fun h => h
    exact ⟨_, keeps_word Parameter.symbol, parameter_eq⟩
  · obtain ⟨b, x, v, hr, hb, hx, hv⟩ := exists_next_word hc hword
    exact .inl ⟨_, b ++ x, v, hr, .symbol hx (.front hb x), hv⟩
  · refine .inr (Fails.here (fun b hb => ?_) fun n s _ _ hskip hhead => ?_)
    · exact ⟨_, _, .symbol (isWord_letter (c := 'a') rfl) (.front hb _), List.prefix_append b _⟩
    · rw [← hhead] at hnumeral hword
      exact literalOr_word_refused hskip hnumeral hword

end Parameters

end ConstraintNet.Reading
