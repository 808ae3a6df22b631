import ConstraintNet.Proofs.Grammar.Nesting
import ConstraintNet.Proofs.Reading.Tokens

/-! How many levels a reading takes.

A reader of terms is told how many levels it may go down and what to read below them. It
goes down behind an opening parenthesis only, and back up behind the closing one. So the
levels in use are never more than the parentheses that the count finds open there
(`Room`), whatever else the text holds and however often the reader turns back: where there
are levels for all of these, it makes no difference how many more there are, nor what would
be read below them (`term_agree`).

A text has no more parentheses than characters, so `wholeText` is what any reading with
that many levels comes to. A text that passes the check before reading takes one level more
than parentheses may nest, and no other (`wholeText_levels`). -/
namespace ConstraintNet.Reading
open Text (byteLength isBlank)
open Grammar (Flat flat_of_class overnested_flat)

/-! ### Parentheses ahead -/

theorem overnested_add (limit depth offset k : Nat) (cs : List Char) :
    overnested limit depth (offset + k) cs = (overnested limit depth offset cs).map (· + k) := by
  induction cs generalizing depth offset with
  | nil => rfl
  | cons c cs ih =>
    have hplace : offset + k + c.utf8Size = offset + c.utf8Size + k := Nat.add_right_comm ..
    simp only [overnested, hplace, ih]
    split
    · split <;> rfl
    · split <;> rfl

/-- With `depth` levels open, no parenthesis of the text opens one below `limit`. -/
structure Room (limit depth : Nat) (cs : List Char) : Prop where
  depth_le : depth ≤ limit
  none : overnested limit depth 0 cs = none

section Room
variable {limit depth : Nat} {w v : List Char}

theorem Room.of_offset {offset : Nat} (hdepth : depth ≤ limit)
    (h : overnested limit depth offset v = .none) : Room limit depth v := by
  have hzero := overnested_add limit depth 0 offset v
  rw [Nat.zero_add, h] at hzero
  exact ⟨hdepth, Option.map_eq_none_iff.mp hzero.symm⟩

theorem Room.flat (hw : Flat w) (h : Room limit depth (w ++ v)) : Room limit depth v :=
  .of_offset h.depth_le ((overnested_flat hw 0 v).symm.trans h.none)

theorem Room.opening (h : Room limit depth ('(' :: v)) : Room limit (depth + 1) v := by
  have hnone := h.none
  rw [overnested, if_pos rfl] at hnone
  split at hnone
  · next hlt => exact .of_offset hlt hnone
  · cases hnone

theorem Room.closing (h : Room limit (depth + 1) (')' :: v)) : Room limit depth v := by
  have hnone := h.none
  rw [overnested, if_neg (by decide), if_pos rfl] at hnone
  exact .of_offset (Nat.le_of_succ_le h.depth_le) hnone

/-- No text opens more levels than it has characters. -/
theorem overnested_length (depth offset : Nat) (cs : List Char) (h : depth + cs.length ≤ limit) :
    overnested limit depth offset cs = .none := by
  induction cs generalizing depth offset with
  | nil => rfl
  | cons c cs ih =>
    rw [List.length_cons] at h
    rw [overnested]
    split
    · rw [if_pos (by omega)]
      exact ih _ _ (by omega)
    · split
      · exact ih _ _ (by omega)
      · exact ih _ _ (by omega)

end Room

/-! ### Readers that do the same -/

/-- Where the rest of the text is a `P`, the readers do the same, and leave a `Q` of it. -/
def Agree {α : Type} (P Q : List Char → Prop) (p q : Reader α) : Prop :=
  ∀ ⦃s : State⦄, P s.rest → p s = q s ∧ ∀ a t, q s = .read a t → Q t.rest

section Agree
variable {α β : Type} {P Q R : List Char → Prop} {p q p' q' : Reader α}

theorem agree_pure (a : α) : Agree P P (pure a : Reader α) (pure a) := by
  intro s hs
  refine ⟨rfl, ?_⟩
  rintro _ _ ⟨⟩
  exact hs

theorem Agree.bind {k k' : α → Reader β} (h : Agree P Q p q) (hk : ∀ a, Agree Q R (k a) (k' a)) :
    Agree P R (p >>= k) (q >>= k') := by
  intro s hs
  obtain ⟨heq, hread⟩ := h hs
  rw [Reader.bind_apply, Reader.bind_apply, heq]
  cases hq : q s with
  | read a t => exact hk a (hread a t hq)
  | refused f => exact ⟨rfl, fun _ _ hread => nomatch hread⟩

theorem Agree.map (h : Agree P Q p q) (k : α → β) : Agree P Q (k <$> p) (k <$> q) :=
  h.bind fun a => agree_pure (k a)

theorem Agree.orElse (h : Agree P Q p q) (h' : Agree P Q p' q') :
    Agree P Q (.orElse p p') (.orElse q q') := by
  intro s hs
  obtain ⟨heq, hread⟩ := h hs
  rw [Reader.orElse, Reader.orElse, heq]
  cases hq : q s with
  | read a t =>
    refine ⟨rfl, ?_⟩
    rintro _ _ ⟨⟩
    exact hread a t hq
  | refused f => exact h' (s := {s with pending := some f}) hs

theorem Agree.optional (h : Agree P P p q) : Agree P P p.optional q.optional :=
  (h.map some).orElse (agree_pure none)

theorem Agree.repeated (h : Agree P P p q) {s : State} (hs : P s.rest) :
    Reader.repeated p s = Reader.repeated q s ∧ P (Reader.repeated q s).2.rest := by
  obtain ⟨heq, hread⟩ := h hs
  rw [Reader.repeated, Reader.repeated, heq]
  cases hq : q s with
  | read a t =>
    have ht := hread a t hq
    by_cases hlt : t.rest.length < s.rest.length
    · obtain ⟨hrest, hP⟩ := Agree.repeated h ht
      simp only [if_pos hlt, hrest]
      exact ⟨trivial, hP⟩
    · simp only [if_neg hlt]
      exact ⟨trivial, ht⟩
  | refused f => exact ⟨rfl, hs⟩
termination_by s.rest.length

theorem Agree.many (h : Agree P P p q) : Agree P P p.many q.many := by
  intro s hs
  obtain ⟨heq, hP⟩ := h.repeated hs
  rw [Reader.many, Reader.many, heq]
  refine ⟨rfl, ?_⟩
  rintro _ _ ⟨⟩
  exact hP

end Agree

/-! ### Text without parentheses

Tokens other than parentheses are passed over, with as much room after them as before. -/

section Flat
variable {limit depth : Nat} {accept : Char → Bool}

theorem Agree.padded {α : Type} {P Q : List Char → Prop} {p q : Reader α} (h : Agree P Q p q)
    (hP : Agree P P Reader.blanks Reader.blanks) (hQ : Agree Q Q Reader.blanks Reader.blanks) :
    Agree P Q p.padded q.padded :=
  hP.bind fun _ => h.bind fun a => hQ.bind fun _ => agree_pure a

/-- The characters of a class at the front of a text take no room. -/
theorem Room.dropWhile {cs : List Char} (h : Room limit depth cs) (hopening : accept '(' = false)
    (hclosing : accept ')' = false) : Room limit depth (cs.dropWhile accept) := by
  rw [← List.takeWhile_append_dropWhile (p := accept) (l := cs)] at h
  exact h.flat (flat_of_class accept hopening hclosing (List.all_eq_true.mp List.all_takeWhile))

theorem blanks_agree : Agree (Room limit depth) (Room limit depth) Reader.blanks Reader.blanks := by
  intro s hs
  refine ⟨rfl, ?_⟩
  rintro _ _ ⟨⟩
  exact hs.dropWhile (by decide) (by decide)

theorem run_agree (hopening : accept '(' = false) (hclosing : accept ')' = false) (e : Expectation) :
    Agree (Room limit depth) (Room limit depth) (Reader.run accept e) (Reader.run accept e) := by
  intro s hs
  refine ⟨rfl, ?_⟩
  rintro _ _ ⟨⟩
  exact hs.dropWhile hopening hclosing

theorem oneOf_agree (hopening : accept '(' = false) (hclosing : accept ')' = false)
    (e : Expectation) :
    Agree (Room limit depth) (Room limit depth) (Reader.oneOf accept e) (Reader.oneOf accept e) := by
  intro s hs
  refine ⟨rfl, fun c t hread => ?_⟩
  unfold Reader.oneOf at hread
  split at hread
  · next d r hrest =>
    split at hread
    · next hd =>
      cases hread
      rw [hrest] at hs
      exact hs.flat (w := [c]) (flat_of_class accept hopening hclosing (List.forall_mem_singleton.mpr hd))
    · cases hread
  · cases hread

theorem eq_of_character_read {c : Char} {s t : State} (h : Reader.character c s = .read () t) :
    s.rest = c :: t.rest := by
  unfold Reader.character at h
  split at h
  · next d r hrest =>
    split at h
    · next hd =>
      cases h
      rw [hrest, hd]
      rfl
    · cases h
  · cases h

theorem character_agree {c : Char} (hc : Flat [c]) :
    Agree (Room limit depth) (Room limit depth) (Reader.character c) (Reader.character c) := by
  refine fun s hs => ⟨rfl, fun _ t hread => ?_⟩
  rw [eq_of_character_read hread] at hs
  exact hs.flat (w := [c]) hc

theorem delimiter_agree {c : Char} (hc : Flat [c]) :
    Agree (Room limit depth) (Room limit depth) (Reader.delimiter c) (Reader.delimiter c) :=
  (character_agree hc).padded blanks_agree blanks_agree

theorem word_agree : Agree (Room limit depth) (Room limit depth) word word :=
  (oneOf_agree (by decide) (by decide) _).bind fun _ =>
    (run_agree (by decide) (by decide) _).bind fun _ => agree_pure _

theorem literal_agree : Agree (Room limit depth) (Room limit depth) literal literal := by
  have hnumeral : Agree (Room limit depth) (Room limit depth) numeral numeral :=
    (character_agree (by decide)).optional.bind fun _ =>
      (oneOf_agree (by decide) (by decide) _).bind fun _ =>
        (run_agree (by decide) (by decide) _).bind fun _ => agree_pure _
  intro s hs
  refine ⟨rfl, fun a t hread => ?_⟩
  unfold literal at hread
  split at hread
  · cases hread
  · next cs u hu =>
    have hrest := (hnumeral (s := {s with pending := none}) hs).2 cs u hu
    split at hread
    · cases hread
      exact hrest
    · cases hread

/-- Items with commas between take as much room as the items do. -/
theorem Agree.listed {α : Type} {p q : Reader α} (h : Agree (Room limit depth) (Room limit depth) p q) :
    Agree (Room limit depth) (Room limit depth) p.listed q.listed := by
  have hnext : Agree (Room limit depth) (Room limit depth) (do Reader.delimiter ','; p)
      (do Reader.delimiter ','; q) :=
    (delimiter_agree (by decide)).bind fun _ => h
  exact h.bind fun a => hnext.many.bind fun as => agree_pure (a :: as)

theorem parameters_agree : Agree (Room limit depth) (Room limit depth) parameters parameters := by
  have hparameter : Agree (Room limit depth) (Room limit depth) parameter parameter :=
    ((literal_agree.map _).orElse (word_agree.map _)).padded blanks_agree blanks_agree
  exact (delimiter_agree (by decide)).bind fun _ => hparameter.listed.bind fun ps =>
    (delimiter_agree (by decide)).bind fun _ => agree_pure ps

end Flat

/-! ### Terms -/

section Terms
variable {limit depth : Nat} {below below' : Reader Term}

/-- An opening parenthesis leads one level down. -/
theorem opening_agree :
    Agree (Room limit depth) (Room limit (depth + 1)) (Reader.delimiter '(') (Reader.delimiter '(') := by
  refine Agree.padded (fun s hs => ⟨rfl, fun _ t hread => ?_⟩) blanks_agree blanks_agree
  rw [eq_of_character_read hread] at hs
  exact hs.opening

/-- A closing one leads back up. -/
theorem closing_agree :
    Agree (Room limit (depth + 1)) (Room limit depth) (Reader.delimiter ')') (Reader.delimiter ')') := by
  refine Agree.padded (fun s hs => ⟨rfl, fun _ t hread => ?_⟩) blanks_agree blanks_agree
  rw [eq_of_character_read hread] at hs
  exact hs.closing

theorem Agree.operands {operand operand' : Reader Term}
    (h : Agree (Room limit (depth + 1)) (Room limit (depth + 1)) operand operand') :
    Agree (Room limit depth) (Room limit depth) (operands operand) (operands operand') :=
  opening_agree.bind fun _ => (h.listed.orElse (agree_pure [])).bind fun ts =>
    closing_agree.bind fun _ => agree_pure ts

theorem Agree.application {operand operand' : Reader Term}
    (h : Agree (Room limit (depth + 1)) (Room limit (depth + 1)) operand operand') :
    Agree (Room limit depth) (Room limit depth) (application operand) (application operand') :=
  word_agree.bind fun _ => parameters_agree.optional.bind fun _ =>
    h.operands.bind fun _ => agree_pure _

/-- With levels for all parentheses that may open one, it does not matter how many more
there are, nor what is read below them. -/
theorem term_agree (n n' : Nat) (h : limit < n + depth) (h' : limit < n' + depth) :
    Agree (Room limit depth) (Room limit depth) (term below n) (term below' n') := by
  induction n generalizing n' depth with
  | zero => exact fun s hs => absurd hs.depth_le (by omega)
  | succ n ih =>
    cases n' with
    | zero => exact fun s hs => absurd hs.depth_le (by omega)
    | succ n' =>
      have hoperand : Agree (Room limit (depth + 1)) (Room limit (depth + 1)) (term below n)
          (term below' n') := ih n' (by omega) (by omega)
      have hrest := hoperand.application.orElse (word_agree.map Term.name)
      exact ((literal_agree.map _).orElse hrest).padded blanks_agree blanks_agree

theorem whole_agree {n n' : Nat} {text : List Char} (hnone : overnested limit 0 0 text = none)
    (h : limit < n) (h' : limit < n') :
    whole below n (.start text) = whole below' n' (.start text) := by
  have hend : Agree (Room limit 0) (fun _ => True) Reader.endOfInput Reader.endOfInput :=
    fun _ _ => ⟨rfl, fun _ _ _ => trivial⟩
  have hwhole : Agree (Room limit 0) (fun _ => True) (whole below n) (whole below' n') :=
    (term_agree n n' h h').bind fun t => hend.bind fun _ => agree_pure t
  exact (hwhole (s := .start text) ⟨Nat.zero_le limit, hnone⟩).1

/-- **What is below makes no difference.** However many levels a reading may take beyond the
characters of its text, and whatever would be read below them, it comes to the same. If the
parentheses of the text are not nested too deep then the levels beyond `nestingLimit` are
enough: the reading never goes down further, be the text that of a term or not. -/
theorem wholeText_levels (text : List Char) :
    (∀ (below : Reader Term) (n : Nat), text.length < n →
        whole below n (.start text) = wholeText text) ∧
      (overnested nestingLimit 0 0 text = none → ∀ (below : Reader Term) (n : Nat), nestingLimit < n →
        whole below n (.start text) = wholeText text) := by
  have hlength : ∀ (below : Reader Term) (n : Nat), text.length < n →
      whole below n (.start text) = wholeText text := fun below n hn =>
    whole_agree (overnested_length 0 0 text (Nat.le_of_eq (Nat.zero_add _))) hn
      (Nat.lt_succ_self text.length)
  refine ⟨hlength, fun hnone below n hn => ?_⟩
  -- A reading with levels enough for both ends of the comparison.
  have hmany := hlength noTerm (max nestingLimit text.length + 1) (by omega)
  rw [← hmany]
  exact whole_agree hnone hn (by omega)

/-- Parentheses that close nothing leave no more room for those that open, and a reader that
would take anything below the last level is never asked. -/
theorem wholeText_levels_stray :
    overnested nestingLimit 0 0 "f)(g(x,(2".toList = none ∧
      whole (pure (.name "below")) (nestingLimit + 1) (.start "f)(g(x,(2".toList) =
        wholeText "f)(g(x,(2".toList ∧
      wholeText "f)(g(x,(2".toList =
        .refused ⟨1, ⟨1, 2⟩, .unexpected (some ')')
          [.identifier, .character '\x7b', .character '(', .endOfInput]⟩ := by
  have hnone : overnested nestingLimit 0 0 "f)(g(x,(2".toList = none := by decide +kernel
  exact ⟨hnone, (wholeText_levels _).2 hnone _ _ (Nat.lt_succ_self _), by decide +kernel⟩

end Terms

end ConstraintNet.Reading
