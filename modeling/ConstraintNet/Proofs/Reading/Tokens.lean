import ConstraintNet.Proofs.Reading.Place

/-! What the readers of tokens do.

Each is settled by what comes next. A delimiter is there or not; a word or a
numeral begins or not, and runs up to the first character that is none of its own.
What is refused is refused where the token had to begin, but for a sign without
digits, which is refused after the sign. -/
namespace ConstraintNet.Reading
open Text (byteLength byteLength_append isBlank isBlank_ascii)
open Text.Decimal (IsNumeral int64? magnitude value)
open Grammar (Blanks IsWord InRange)

/-! ### Characters -/

theorem isDigit_iff {c : Char} : c.isDigit = true ↔ 48 ≤ c.toNat ∧ c.toNat ≤ 57 := by
  simp [Char.isDigit, UInt32.le_iff_toNat_le, ← Char.toNat_val]

theorem isAlpha_iff {c : Char} :
    c.isAlpha = true ↔ 65 ≤ c.toNat ∧ c.toNat ≤ 90 ∨ 97 ≤ c.toNat ∧ c.toNat ≤ 122 := by
  change ((decide (65 ≤ c.val ∧ c.val ≤ 90)) || (decide (97 ≤ c.val) && decide (c.val ≤ 122))) = true ↔ _
  simp [UInt32.le_iff_toNat_le, ← Char.toNat_val]

theorem isInitial_iff {c : Char} : isInitial c = true ↔ c.isAlpha = true ∨ c = '_' := by
  rw [isInitial, Bool.or_eq_true, beq_iff_eq]

theorem isWordChar_iff {c : Char} : isWordChar c = true ↔ c.isAlphanum = true ∨ c = '_' := by
  rw [isWordChar, Bool.or_eq_true, beq_iff_eq]

theorem isWordChar_of_isDigit {c : Char} (h : c.isDigit = true) : isWordChar c = true :=
  isWordChar_iff.mpr (.inl (by rw [Char.isAlphanum, h, Bool.or_true]))

theorem isWordChar_of_isInitial {c : Char} (h : isInitial c = true) : isWordChar c = true := by
  rcases isInitial_iff.mp h with h | h
  · exact isWordChar_iff.mpr (.inl (by rw [Char.isAlphanum, h, Bool.true_or]))
  · exact isWordChar_iff.mpr (.inr h)

theorem isWordChar_of_isWord {x : List Char} (h : IsWord x) : ∀ c ∈ x, isWordChar c = true := by
  obtain ⟨c, cs, rfl, hc, hcs⟩ := h
  intro d hd
  rcases List.mem_cons.mp hd with rfl | hd
  · exact isWordChar_of_isInitial (isInitial_iff.mpr hc)
  · exact isWordChar_iff.mpr (hcs d hd)

/-- No blank ends up in a word or a numeral. -/
theorem isBlank_of_isWordChar {c : Char} (h : isWordChar c = true) : isBlank c = false := by
  rcases isWordChar_iff.mp h with h | rfl
  · rw [Char.isAlphanum, Bool.or_eq_true, isAlpha_iff, isDigit_iff] at h
    rw [← Bool.not_eq_true, isBlank_ascii c (by omega)]
    omega
  · decide

/-- No word begins like a numeral. -/
theorem isDigit_of_isInitial {c : Char} (h : isInitial c = true) : c.isDigit = false ∧ c ≠ '-' := by
  rcases isInitial_iff.mp h with h | rfl
  · rw [isAlpha_iff] at h
    constructor
    · rw [← Bool.not_eq_true, isDigit_iff]
      omega
    · rintro rfl
      revert h
      decide
  · decide

/-! ### Classes of characters

The characters of a class at the front of a text are followed by one of another
class, or by nothing. -/

/-- The text does not go on with a character of the class. -/
def EndsAt (accept : Char → Bool) (next : Option Char) : Prop :=
  ∀ c, next = some c → accept c = false

/-- What ends a word ends a numeral. -/
theorem EndsAt.digits {next : Option Char} (h : EndsAt isWordChar next) :
    EndsAt Char.isDigit next := by
  intro c hc
  rw [← Bool.not_eq_true]
  intro hdigit
  have hword := h c hc
  rw [isWordChar_of_isDigit hdigit] at hword
  cases hword

theorem exists_of_not_endsAt {accept : Char → Bool} {next : Option Char} (h : ¬ EndsAt accept next) :
    ∃ c, next = some c ∧ accept c = true := by
  simpa [EndsAt] using h

theorem endsAt_dropWhile (accept : Char → Bool) (cs : List Char) :
    EndsAt accept (cs.dropWhile accept).head? := by
  intro c hc
  have hnot := List.head?_dropWhile_not accept cs
  simpa [hc] using hnot

theorem takeWhile_of_endsAt {accept : Char → Bool} {x v : List Char}
    (hx : ∀ c ∈ x, accept c = true) (hv : EndsAt accept v.head?) :
    (x ++ v).takeWhile accept = x ∧ (x ++ v).dropWhile accept = v := by
  rw [List.takeWhile_append_of_pos hx, List.dropWhile_append_of_pos hx]
  cases v with
  | nil => exact ⟨List.append_nil x, rfl⟩
  | cons c v =>
    have hc : ¬ accept c = true := by
      rw [hv c rfl]
      decide
    rw [List.takeWhile_cons_of_neg hc, List.dropWhile_cons_of_neg hc, List.append_nil]
    exact ⟨rfl, rfl⟩

/-! ### Numerals -/

theorem numeral_ne_nil {n : List Char} (h : IsNumeral n) : n ≠ [] := by
  obtain ⟨ds, hne, -, rfl | rfl⟩ := h
  · exact hne
  · exact List.cons_ne_nil _ _

theorem exists_digits {d : Char} (ds : List Char) (hd : d.isDigit = true) :
    ∃ n v, d :: ds = n ++ v ∧ n ≠ [] ∧ (∀ c ∈ n, c.isDigit = true) ∧ EndsAt Char.isDigit v.head? := by
  refine ⟨d :: ds.takeWhile Char.isDigit, ds.dropWhile Char.isDigit, ?_, List.cons_ne_nil _ _, ?_,
    endsAt_dropWhile _ _⟩
  · rw [List.cons_append, List.takeWhile_append_dropWhile]
  · intro c hc
    rcases List.mem_cons.mp hc with rfl | hc
    · exact hd
    · exact List.all_eq_true.mp List.all_takeWhile c hc

/-- A text that begins like a numeral begins with one, or with a sign and no digit. -/
theorem numeral_cases {c : Char} (hc : c = '-' ∨ c.isDigit = true) (cs : List Char) :
    (∃ n v, c :: cs = n ++ v ∧ IsNumeral n ∧ EndsAt Char.isDigit v.head?) ∨
      c = '-' ∧ EndsAt Char.isDigit cs.head? := by
  rcases hc with rfl | hc
  · cases cs with
    | nil => exact .inr ⟨rfl, fun d hd => nomatch hd⟩
    | cons d ds =>
      cases hd : d.isDigit with
      | true =>
        obtain ⟨n, v, hsplit, hne, hdigits, hv⟩ := exists_digits ds hd
        exact .inl ⟨'-' :: n, v, by rw [hsplit]; rfl, ⟨n, hne, hdigits, .inr rfl⟩, hv⟩
      | false =>
        refine .inr ⟨rfl, ?_⟩
        rintro e ⟨⟩
        exact hd
  · obtain ⟨n, v, hsplit, hne, hdigits, hv⟩ := exists_digits cs hc
    exact .inl ⟨n, v, hsplit, ⟨n, hne, hdigits, .inl rfl⟩, hv⟩

theorem magnitude_le_append (ds es : List Char) : magnitude ds ≤ magnitude (ds ++ es) := by
  have happend : magnitude (ds ++ es) = Nat.ofDigitChars 10 es (magnitude ds) :=
    Nat.ofDigitChars_append 0
  rw [happend, Nat.ofDigitChars_eq_ofDigitChars_zero]
  have hpos : 0 < 10 ^ es.length := Nat.pow_pos (by decide)
  have hle := Nat.le_mul_of_pos_left (magnitude ds) hpos
  omega

theorem int64?_eq_none_iff {cs : List Char} :
    int64? cs = none ↔ value cs < Int64.minValue.toInt ∨ Int64.maxValue.toInt < value cs := by
  unfold int64?
  split
  · simp only [reduceCtorEq, false_iff]
    omega
  · simp only [true_iff]
    omega

/-- More digits do not bring a numeral back into range. -/
theorem int64?_append {n ds : List Char} (hn : IsNumeral n) (hds : ∀ d ∈ ds, d.isDigit = true)
    (h : int64? n = none) : IsNumeral (n ++ ds) ∧ int64? (n ++ ds) = none := by
  obtain ⟨ms, hne, hms, hn⟩ := hn
  have hall : ∀ d ∈ ms ++ ds, d.isDigit = true := by
    intro d hd
    exact (List.mem_append.mp hd).elim (hms d) (hds d)
  have hle := magnitude_le_append ms ds
  have hmin : Int64.minValue.toInt ≤ 0 := by decide
  have hmax : 0 ≤ Int64.maxValue.toInt := by decide
  rw [int64?_eq_none_iff] at h ⊢
  rcases hn with rfl | rfl
  · refine ⟨⟨_, List.append_ne_nil_of_left_ne_nil hne ds, hall, .inl rfl⟩, ?_⟩
    rw [Text.Decimal.value_of_isDigit hms] at h
    rw [Text.Decimal.value_of_isDigit hall]
    omega
  · refine ⟨⟨_, List.append_ne_nil_of_left_ne_nil hne ds, hall, .inr rfl⟩, ?_⟩
    rw [value] at h
    rw [List.cons_append, value]
    omega

/-- A zero is a numeral in range, with a sign or without. -/
theorem zero_inRange {sign : List Char} (h : sign = [] ∨ sign = ['-']) :
    IsNumeral (sign ++ ['0']) ∧ InRange (sign ++ ['0']) 0 := by
  have hdigit : ∀ d ∈ ['0'], d.isDigit = true := List.forall_mem_singleton.mpr rfl
  rcases h with rfl | rfl
  · exact ⟨⟨['0'], List.cons_ne_nil _ _, hdigit, .inl rfl⟩, by decide⟩
  · exact ⟨⟨['0'], List.cons_ne_nil _ _, hdigit, .inr rfl⟩, by decide⟩

/-! ### Combinations of readers -/

section Combinations
variable {α β : Type} {p q : Reader α} {s t : State} {a : α} {f : Failure}

theorem bind_read (h : p s = .read a t) (k : α → Reader β) : (p >>= k) s = k a t := by
  rw [Reader.bind_apply, h]

theorem bind_refused (h : p s = .refused f) (k : α → Reader β) : (p >>= k) s = .refused f := by
  rw [Reader.bind_apply, h]

theorem map_read (h : p s = .read a t) (k : α → β) : (k <$> p) s = .read (k a) t :=
  bind_read h _

theorem map_refused (h : p s = .refused f) (k : α → β) : (k <$> p) s = .refused f :=
  bind_refused h _

theorem orElse_read (h : p s = .read a t) (q : Reader α) : Reader.orElse p q s = .read a t := by
  rw [Reader.orElse, h]

theorem orElse_refused (h : p s = .refused f) (q : Reader α) :
    Reader.orElse p q s = q {s with pending := some f} := by
  rw [Reader.orElse, h]

theorem optional_read (h : p s = .read a t) : p.optional s = .read (some a) t :=
  orElse_read (map_read h some) _

theorem optional_refused (h : p s = .refused f) :
    p.optional s = .read none {s with pending := some f} :=
  orElse_refused (map_refused h some) _

theorem padded_read (h : p s.skip = .read a t) : Reader.padded p s = .read a t.skip := by
  show (p >>= fun a => Reader.blanks >>= fun _ => pure a) s.skip = _
  rw [bind_read h]
  rfl

theorem padded_refused (h : p s.skip = .refused f) : Reader.padded p s = .refused f :=
  bind_refused (p := p) (s := s.skip) h _

theorem padded_congr {s' : State} (h : p s.skip = q s'.skip) :
    Reader.padded p s = Reader.padded q s' := by
  cases hq : q s'.skip with
  | read a t => rw [padded_read (h.trans hq), padded_read hq]
  | refused f => rw [padded_refused (h.trans hq), padded_refused hq]

/-- Blanks in front of what is padded make no difference. -/
theorem padded_skip (p : Reader α) (s : State) : Reader.padded p s.skip = Reader.padded p s :=
  padded_congr (by rw [State.skip_skip])

end Combinations

/-! ### Delimiters -/

section Delimiters
variable {s : State} {c : Char}

theorem character_read {r : List Char} (h : s.rest = c :: r) :
    Reader.character c s = .read () (s.past [c] r) := by
  rw [Reader.character, h]
  exact if_pos rfl

theorem character_refused (h : s.rest.head? ≠ some c) :
    Reader.character c s = .refused (s.refuse (.character c)) := by
  unfold Reader.character
  split
  next d left hrest => exact if_neg fun hd => h (by rw [hrest, hd]; rfl)
  next => rfl

theorem oneOf_read {accept : Char → Bool} {r : List Char} (h : s.rest = c :: r) (hc : accept c = true)
    (e : Expectation) : Reader.oneOf accept e s = .read c (s.past [c] r) := by
  rw [Reader.oneOf, h]
  exact if_pos hc

theorem oneOf_refused {accept : Char → Bool} (h : EndsAt accept s.rest.head?) (e : Expectation) :
    Reader.oneOf accept e s = .refused (s.refuseClass e) := by
  unfold Reader.oneOf
  split
  next d left hrest => exact if_neg (by rw [h d (by rw [hrest]; rfl)]; decide)
  next => rfl

theorem delimiter_read (hs : Calm s) {r : List Char} (h : afterBlanks s.rest = c :: r) :
    ∃ t, Reader.delimiter c s = .read () t ∧ t.rest = afterBlanks r ∧ t.total = s.total ∧ Clear t := by
  have hread := padded_read (character_read (s := s.skip) h)
  refine ⟨_, hread, rfl, ?_, (hs.skip.past (List.cons_ne_nil c []) r).skip⟩
  rw [State.total_skip, State.total_past h, State.total_skip]

theorem delimiter_refused (hs : Calm s) (hskip : s.skip = s) (h : s.rest.head? ≠ some c) :
    ∃ f, Reader.delimiter c s = .refused f ∧ f.At s := by
  refine ⟨_, padded_refused ?_, hs.refuse (.character c)⟩
  rw [hskip]
  exact character_refused h

end Delimiters

/-! ### Words -/

section Words
variable {s : State} {x v : List Char}

/-- A class of characters as far as it goes. What it did not go on for is pending. -/
theorem run_read {accept : Char → Bool} (h : s.rest = x ++ v) (hx : ∀ c ∈ x, accept c = true)
    (hv : EndsAt accept v.head?) (e : Expectation) :
    Reader.run accept e s = .read x {s.past x v with pending := some ((s.past x v).refuseClass e)} := by
  obtain ⟨htake, hdrop⟩ := takeWhile_of_endsAt hx hv
  rw [Reader.run, h, htake, hdrop]

theorem word_read (h : s.rest = x ++ v) (hx : IsWord x) (hv : EndsAt isWordChar v.head?) :
    word s = .read (String.ofList x)
      {s.past x v with pending := some ((s.past x v).refuseClass .identifier)} := by
  obtain ⟨c, cs, rfl, hc, hcs⟩ := hx
  have hword : ∀ d ∈ cs, isWordChar d = true := fun d hd => isWordChar_iff.mpr (hcs d hd)
  have hrun := run_read (s := s.past [c] (cs ++ v)) rfl hword hv .identifier
  rw [State.past_past] at hrun
  rw [word, bind_read (oneOf_read (r := cs ++ v) h (isInitial_iff.mpr hc) _), bind_read hrun]
  rfl

theorem word_refused (h : EndsAt isInitial s.rest.head?) :
    word s = .refused (s.refuseClass .identifier) :=
  bind_refused (oneOf_refused h _) _

/-- A text that begins like a word begins with one. -/
theorem exists_word {c : Char} (hc : isInitial c = true) (cs : List Char) :
    ∃ x v, c :: cs = x ++ v ∧ IsWord x ∧ EndsAt isWordChar v.head? := by
  refine ⟨c :: cs.takeWhile isWordChar, cs.dropWhile isWordChar, ?_,
    ⟨c, _, rfl, isInitial_iff.mp hc, ?_⟩, endsAt_dropWhile _ _⟩
  · rw [List.cons_append, List.takeWhile_append_dropWhile]
  · exact fun d hd => isWordChar_iff.mp (List.all_eq_true.mp List.all_takeWhile d hd)

end Words

/-! ### Literals -/

section Literals
variable {s : State} {n v : List Char}

/-- A numeral as far as it goes. What it did not go on for is pending. -/
theorem numeral_read (hs : Calm s) (h : s.rest = n ++ v) (hn : IsNumeral n)
    (hv : EndsAt Char.isDigit v.head?) :
    ∃ f : Failure, f.At (s.past n v) ∧ numeral s = .read n {s.past n v with pending := some f} := by
  obtain ⟨ds, hne, hds, hn⟩ := hn
  obtain ⟨d, ds, rfl⟩ := List.exists_cons_of_ne_nil hne
  have hd := hds d (List.mem_cons_self ..)
  have hrest : ∀ c ∈ ds, c.isDigit = true := fun c hc => hds c (List.mem_cons_of_mem _ hc)
  rcases hn with rfl | rfl
  · have hsign : s.rest.head? ≠ some '-' := by
      rw [h]
      rintro ⟨⟩
      revert hd
      decide
    let t : State := {s with pending := some (s.refuse (.character '-'))}
    have hcalm : Calm t := calm_pending (.inr (hs.refuse (.character '-')))
    have hat := (hcalm.past (List.cons_ne_nil d ds) v).calm.refuseClass .digit
    have hrun := run_read (s := t.past [d] (ds ++ v)) rfl hrest hv .digit
    rw [State.past_past] at hrun
    refine ⟨_, hat.congr rfl rfl, ?_⟩
    rw [numeral, bind_read (optional_refused (character_refused hsign)),
      bind_read (oneOf_read (s := t) (r := ds ++ v) h hd .digit), bind_read hrun]
    rfl
  · let t : State := s.past ['-'] (d :: ds ++ v)
    have hat := (hs.past (List.cons_ne_nil '-' (d :: ds)) v).calm.refuseClass .digit
    have hrun := run_read (s := t.past [d] (ds ++ v)) rfl hrest hv .digit
    have hstate : (t.past [d] (ds ++ v)).past ds v = s.past ('-' :: d :: ds) v := by
      rw [State.past_past, State.past_past]
      rfl
    rw [hstate] at hrun
    refine ⟨_, hat, ?_⟩
    rw [numeral, bind_read (optional_read (character_read (r := d :: ds ++ v) h)),
      bind_read (oneOf_read (s := t) (r := ds ++ v) rfl hd .digit), bind_read hrun]
    rfl

theorem literal_of_numeral_refused {f : Failure} (h : numeral {s with pending := none} = .refused f) :
    literal s = .refused f := by
  rw [literal, h]

theorem calm_none (s : State) : Calm {s with pending := none} :=
  fun _ h => nomatch h

/-- A numeral in range. What ended it is filed under its start. -/
theorem literal_inRange (h : s.rest = n ++ v) (hn : IsNumeral n) {value : Int64}
    (hvalue : int64? n = some value) (hv : EndsAt Char.isDigit v.head?) :
    ∃ f : Failure, f.At (s.past n v) ∧ literal s = .read (String.ofList n, value)
      {s.past n v with pending := some (.furthest s.pending {f with place := s.offset})} := by
  obtain ⟨f, hf, hread⟩ := numeral_read (calm_none s) h hn hv
  refine ⟨f, hf.congr rfl rfl, ?_⟩
  rw [literal, hread]
  simp only [hvalue]
  rfl

/-- A numeral out of range. -/
theorem literal_outOfRange (h : s.rest = n ++ v) (hn : IsNumeral n) (hvalue : int64? n = none)
    (hv : EndsAt Char.isDigit v.head?) :
    literal s = .refused (.furthest s.pending
      ⟨s.offset, ⟨s.offset, s.offset + byteLength n⟩, .outOfRange (String.ofList n)⟩) := by
  obtain ⟨f, -, hread⟩ := numeral_read (calm_none s) h hn hv
  rw [literal, hread]
  simp only [hvalue]
  rfl

/-- A numeral in range. What is pending is a matter of its start. -/
theorem literal_read (hs : Calm s) (h : s.rest = n ++ v) (hn : IsNumeral n) {value : Int64}
    (hvalue : InRange n value) (hv : EndsAt Char.isDigit v.head?) :
    ∃ t, literal s = .read (String.ofList n, value) t ∧ t.rest = v ∧ t.total = s.total ∧ Clear t := by
  obtain ⟨f, -, hliteral⟩ := literal_inRange h hn (Text.Decimal.int64?_eq_some_iff.mpr hvalue) hv
  refine ⟨_, hliteral, rfl, State.total_past h, ?_⟩
  have hlt : s.offset < s.offset + byteLength n := by
    have hpos := byteLength_pos (numeral_ne_nil hn)
    omega
  intro g hg
  obtain rfl := Option.some.inj hg
  cases hp : s.pending with
  | none => exact hlt
  | some p =>
    have hle := hs.place_le hp
    show (Failure.furthest _ _).place < _
    rw [Failure.place_furthest]
    exact Nat.lt_of_le_of_lt (Nat.max_le.mpr ⟨hle, Nat.le_refl _⟩) hlt

/-- A numeral out of range, where nothing of this place is pending. -/
theorem literal_outOfRange_clear (hs : Clear s) (h : s.rest = n ++ v) (hn : IsNumeral n)
    (hvalue : int64? n = none) (hv : EndsAt Char.isDigit v.head?) :
    literal s =
      .refused ⟨s.offset, ⟨s.offset, s.offset + byteLength n⟩, .outOfRange (String.ofList n)⟩ := by
  rw [literal_outOfRange h hn hvalue hv]
  cases hp : s.pending with
  | none => rfl
  | some p => rw [Failure.furthest_of_lt (hs p hp)]

/-- A sign without digits is refused after the sign, whatever was pending. -/
theorem literal_sign {r : List Char} (h : s.rest = '-' :: r) (hr : EndsAt Char.isDigit r.head?) :
    literal s = .refused ((({s with pending := none} : State).past ['-'] r).refuseClass .digit) := by
  let t : State := {s with pending := none}
  refine literal_of_numeral_refused ?_
  rw [numeral, bind_read (optional_read (character_read (s := t) h))]
  exact bind_refused (oneOf_refused (s := t.past ['-'] r) hr _) _

/-- Where no numeral begins a sign was expected and then a digit, whatever was pending. -/
theorem literal_none (hminus : s.rest.head? ≠ some '-') (h : EndsAt Char.isDigit s.rest.head?) :
    literal s = .refused (State.refuseClass
      {s with pending := some (State.refuse {s with pending := none} (.character '-'))} .digit) := by
  let t : State := {s with pending := none}
  let u : State := {t with pending := some (t.refuse (.character '-'))}
  refine literal_of_numeral_refused ?_
  rw [numeral, bind_read (optional_refused (character_refused (s := t) hminus))]
  exact bind_refused (oneOf_refused (s := u) h _) _

/-- A sign without digits. -/
theorem literal_refused_sign {r : List Char} (h : s.rest = '-' :: r)
    (hr : EndsAt Char.isDigit r.head?) : ∃ f, literal s = .refused f ∧ f.At (s.past ['-'] r) := by
  have hcalm : Calm (({s with pending := none} : State).past ['-'] r) := calm_none (s.past ['-'] r)
  exact ⟨_, literal_sign h hr, (hcalm.refuseClass .digit).congr rfl rfl⟩

/-- No numeral at all. -/
theorem literal_refused (hminus : s.rest.head? ≠ some '-') (h : EndsAt Char.isDigit s.rest.head?) :
    ∃ f, literal s = .refused f ∧ f.At s := by
  let t : State := {s with pending := none}
  have hcalm : Calm {t with pending := some (t.refuse (.character '-'))} :=
    calm_pending (.inr ⟨rfl, rfl, _, _, rfl⟩)
  exact ⟨_, literal_none hminus h, (hcalm.refuseClass .digit).congr rfl rfl⟩

end Literals

end ConstraintNet.Reading
