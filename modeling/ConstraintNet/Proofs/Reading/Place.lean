import ConstraintNet.Proofs.Grammar.Basic
import ConstraintNet.Reading.Parse

/-! Where a reading stands, and what is pending there.

Blanks matter to no reader but as the end of a word, so a reading is followed from
one token to the next: what is left is a text past its blanks (`afterBlanks`).

Most of the time nothing that is pending lies ahead. A state is clear if all of it
is behind, and calm if there may be something at the place itself that was merely
not expected. What a calm state refuses, it refuses at its own place
(`Calm.refuse`), whatever was pending. -/
namespace ConstraintNet.Reading
open Text (byteLength byteLength_append before_byteLength isBlank)
open Grammar (Blanks Spaced)

/-! ### Texts past their blanks -/

/-- What is left of a text past the blanks in front. -/
def afterBlanks (cs : List Char) : List Char :=
  cs.dropWhile isBlank

theorem afterBlanks_append {b : List Char} (hb : Blanks b) (cs : List Char) :
    afterBlanks (b ++ cs) = afterBlanks cs :=
  List.dropWhile_append_of_pos hb

theorem afterBlanks_cons {c : Char} (hc : isBlank c = false) (cs : List Char) :
    afterBlanks (c :: cs) = c :: cs :=
  List.dropWhile_cons_of_neg (by simp [hc])

theorem exists_blanks (cs : List Char) : ∃ b, Blanks b ∧ cs = b ++ afterBlanks cs :=
  ⟨cs.takeWhile isBlank, List.all_eq_true.mp List.all_takeWhile, List.takeWhile_append_dropWhile.symm⟩

theorem isBlank_head_afterBlanks {w : List Char} {c : Char} (h : (afterBlanks w).head? = some c) :
    isBlank c = false := by
  have hne := List.head?_dropWhile_not isBlank w
  rw [afterBlanks] at h
  simpa [h] using hne

@[simp] theorem afterBlanks_afterBlanks (cs : List Char) :
    afterBlanks (afterBlanks cs) = afterBlanks cs := by
  cases h : afterBlanks cs with
  | nil => rfl
  | cons c ds => exact afterBlanks_cons (isBlank_head_afterBlanks (by rw [h]; rfl)) ds

@[simp] theorem afterBlanks_of_blanks {b : List Char} (hb : Blanks b) : afterBlanks b = [] := by
  have h := afterBlanks_append hb []
  rwa [List.append_nil] at h

theorem blanks_of_afterBlanks {cs : List Char} (h : afterBlanks cs = []) : Blanks cs := by
  obtain ⟨b, hb, hcs⟩ := exists_blanks cs
  rwa [hcs, h, List.append_nil]

/-- After a character that is no blank nothing is skipped. -/
theorem afterBlanks_append_of_ne {cs : List Char} (h : afterBlanks cs ≠ []) (ds : List Char) :
    afterBlanks (cs ++ ds) = afterBlanks cs ++ ds := by
  obtain ⟨b, hb, hcs⟩ := exists_blanks cs
  obtain ⟨c, es, hc⟩ := List.exists_cons_of_ne_nil h
  have hsolid : isBlank c = false := isBlank_head_afterBlanks (w := cs) (by rw [hc]; rfl)
  have hparts : afterBlanks (cs ++ ds) = afterBlanks (b ++ (afterBlanks cs ++ ds)) := by
    rw [← List.append_assoc, ← hcs]
  rw [hparts, afterBlanks_append hb, hc, List.cons_append, afterBlanks_cons hsolid]

/-- A token that does not begin with a blank, in a text. -/
theorem afterBlanks_token {x w : List Char} (hne : x ≠ []) (hx : afterBlanks x = x) (h : Spaced x w) :
    ∃ a, Blanks a ∧ ∀ v, afterBlanks (w ++ v) = x ++ (a ++ v) := by
  obtain ⟨b, a, hb, ha, rfl⟩ := h
  refine ⟨a, ha, fun v => ?_⟩
  rw [List.append_assoc, List.append_assoc, afterBlanks_append hb,
    afterBlanks_append_of_ne (by rwa [hx]), hx]

/-- Past the blanks of a text is what is past those of its end. -/
theorem afterBlanks_suffix (cs ds : List Char) : afterBlanks ds <:+ afterBlanks (cs ++ ds) := by
  by_cases h : afterBlanks cs = []
  · exact afterBlanks_append (blanks_of_afterBlanks h) ds ▸ List.suffix_refl _
  · rw [afterBlanks_append_of_ne h]
    exact (List.dropWhile_suffix isBlank).trans (List.suffix_append (afterBlanks cs) ds)

/-! ### Moving on -/

theorem byteLength_pos {cs : List Char} (h : cs ≠ []) : 0 < byteLength cs := by
  obtain ⟨c, ds, rfl⟩ := List.exists_cons_of_ne_nil h
  have hc := c.utf8Size_pos
  rw [byteLength]
  omega

/-- A part at the front of a text is told by its bytes. -/
theorem eq_of_byteLength_eq {u v p w : List Char} (h : u ++ v = p ++ w)
    (hlength : byteLength u = byteLength p) : u = p := by
  rw [← before_byteLength u v, h, hlength, before_byteLength]

namespace State

/-- The bytes of the whole text. -/
def total (s : State) : Nat :=
  s.offset + byteLength s.rest

/-- The state past the blanks. -/
def skip (s : State) : State :=
  s.past (s.rest.takeWhile isBlank) (afterBlanks s.rest)

theorem total_past {s : State} {taken left : List Char} (h : s.rest = taken ++ left) :
    (s.past taken left).total = s.total := by
  rw [total, total, past, h, byteLength_append, Nat.add_assoc]

theorem total_congr {s t : State} (hoffset : t.offset = s.offset) (hrest : t.rest = s.rest) :
    t.total = s.total := by
  rw [total, total, hoffset, hrest]

theorem past_past (s : State) (x y u v : List Char) : (s.past x u).past y v = s.past (x ++ y) v := by
  rw [past, past, past, byteLength_append, Nat.add_assoc]

@[simp] theorem rest_skip (s : State) : s.skip.rest = afterBlanks s.rest := rfl

@[simp] theorem total_skip (s : State) : s.skip.total = s.total :=
  total_past List.takeWhile_append_dropWhile.symm

theorem skip_pending {s : State} (h : s.skip = s) (pending : Option Failure) :
    ({s with pending := pending} : State).skip = {s with pending := pending} :=
  congrArg (fun t : State => {t with pending := pending}) h

theorem offset_le_skip (s : State) : s.offset ≤ s.skip.offset :=
  Nat.le_add_right ..

theorem skip_eq_self {s : State} (h : afterBlanks s.rest = s.rest) : s.skip = s := by
  have htake : s.rest.takeWhile isBlank = [] := by
    have hsplit := List.takeWhile_append_dropWhile (p := isBlank) (l := s.rest)
    rw [afterBlanks] at h
    rw [h] at hsplit
    exact List.append_left_eq_self.mp hsplit
  rw [skip, htake, h]
  rfl

/-- With no blanks to skip the text is past them. -/
theorem afterBlanks_rest {s : State} (h : s.skip = s) : afterBlanks s.rest = s.rest := by
  rw [← rest_skip, h]

@[simp] theorem skip_skip (s : State) : s.skip.skip = s.skip :=
  skip_eq_self (afterBlanks_afterBlanks s.rest)

end State

/-! ### What is pending -/

/-- Where the text goes on, a class of characters refuses like anything else. -/
theorem State.refuseClass_of_head {s : State} {c : Char} (h : s.rest.head? = some c) (e : Expectation) :
    s.refuseClass e = s.refuse e := by
  unfold State.refuseClass
  split
  next hnil =>
    rw [hnil] at h
    cases h
  next => rfl

/-- A failure of this place: what comes next was not expected. -/
structure Failure.At (f : Failure) (s : State) : Prop where
  place : f.place = s.offset
  span : f.span = s.next
  unexpected : ∃ found expected, f.complaint = .unexpected found expected

/-- What is pending does not matter for where a failure is. -/
theorem Failure.At.congr {f : Failure} {s t : State} (h : f.At t) (hoffset : t.offset = s.offset)
    (hrest : t.rest = s.rest) : f.At s := by
  refine ⟨by rw [h.place, hoffset], ?_, h.unexpected⟩
  rw [h.span, State.next, State.next, hoffset, hrest]

/-- Nothing that is pending lies ahead or here. -/
def Clear (s : State) : Prop :=
  ∀ f, s.pending = some f → f.place < s.offset

/-- Nothing that is pending lies ahead, and here only what was not expected. -/
def Calm (s : State) : Prop :=
  ∀ f, s.pending = some f → f.place < s.offset ∨ f.At s

theorem Clear.calm {s : State} (h : Clear s) : Calm s :=
  fun f hf => .inl (h f hf)

theorem calm_pending {s : State} {f : Failure} (h : f.place < s.offset ∨ f.At s) :
    Calm {s with pending := some f} := by
  intro g hg
  obtain rfl := Option.some.inj hg
  rcases h with h | ⟨hplace, hspan, hunexpected⟩
  · exact .inl h
  · exact .inr ⟨hplace, hspan, hunexpected⟩

theorem Calm.furthest {s : State} (h : Calm s) {g : Failure} (hg : g.At s) :
    (Failure.furthest s.pending g).At s := by
  cases hp : s.pending with
  | none => exact hg
  | some p =>
    rcases h p hp with hlt | hat
    · rw [Failure.furthest_of_lt (by rw [hg.place]; exact hlt)]
      exact hg
    · obtain ⟨found, expected, hp'⟩ := hat.unexpected
      obtain ⟨found', expected', hg'⟩ := hg.unexpected
      rw [Failure.furthest_of_eq (by rw [hat.place, hg.place])]
      exact ⟨hat.place, hat.span, found, _, by rw [hp', hg', Complaint.join]⟩

theorem Calm.place_le {s : State} (h : Calm s) {f : Failure} (hf : s.pending = some f) :
    f.place ≤ s.offset := by
  rcases h f hf with hlt | hat
  · exact Nat.le_of_lt hlt
  · exact Nat.le_of_eq hat.place

theorem Calm.past {s : State} (h : Calm s) {x : List Char} (hx : x ≠ []) (v : List Char) :
    Clear (s.past x v) := by
  intro f hf
  have hle := h.place_le hf
  have hpos := byteLength_pos hx
  show f.place < s.offset + byteLength x
  omega

theorem Clear.skip {s : State} (h : Clear s) : Clear s.skip :=
  fun f hf => Nat.lt_of_lt_of_le (h f hf) s.offset_le_skip

theorem State.skip_cases (s : State) : s.skip = s ∨ s.offset < s.skip.offset := by
  by_cases hblanks : s.rest.takeWhile isBlank = []
  · have hrest : afterBlanks s.rest = s.rest := by
      have hsplit := List.takeWhile_append_dropWhile (p := isBlank) (l := s.rest)
      rwa [hblanks] at hsplit
    exact .inl (State.skip_eq_self hrest)
  · exact .inr (Nat.lt_add_of_pos_right (byteLength_pos hblanks))

theorem Calm.skip {s : State} (h : Calm s) : Calm s.skip := by
  rcases s.skip_cases with heq | hlt
  · rwa [heq]
  · exact fun f hf => .inl (Nat.lt_of_le_of_lt (h.place_le hf) hlt)

/-- A state stays calm if something is added that is behind, or was not expected here. -/
theorem Calm.join {s : State} (h : Calm s) {g : Failure} (hg : g.place < s.offset ∨ g.At s) :
    Calm {s with pending := some (.furthest s.pending g)} := by
  refine calm_pending ?_
  rcases hg with hlt | hat
  · cases hp : s.pending with
    | none => exact .inl hlt
    | some p =>
      rcases h p hp with hbehind | hhere
      · refine .inl ?_
        rw [Failure.place_furthest]
        exact Nat.max_lt.mpr ⟨hbehind, hlt⟩
      · refine .inr ?_
        rwa [Failure.furthest_of_gt (by rw [hhere.place]; exact hlt)]
  · exact .inr (h.furthest hat)

/-- What ended a class of characters is behind, or here, when the blanks are read. -/
theorem Calm.refuseClass_skip {s : State} (h : Calm s.skip) (e : Expectation) :
    Calm {s.skip with pending := some (s.refuseClass e)} := by
  have hplace : ∀ g : Failure, g.At s → g.place < s.skip.offset ∨ g.At s.skip := by
    intro g hg
    rcases s.skip_cases with heq | hlt
    · exact .inr (by rwa [heq])
    · exact .inl (by rwa [hg.place])
  unfold State.refuseClass
  split
  · exact calm_pending (hplace _ ⟨rfl, rfl, _, _, rfl⟩)
  · exact h.join (hplace _ ⟨rfl, rfl, _, _, rfl⟩)

/-- What a calm state refuses, it refuses here. -/
theorem Calm.refuse {s : State} (h : Calm s) (e : Expectation) : (s.refuse e).At s :=
  h.furthest ⟨rfl, rfl, _, _, rfl⟩

theorem Calm.refuseClass {s : State} (h : Calm s) (e : Expectation) : (s.refuseClass e).At s := by
  unfold State.refuseClass
  split
  · exact ⟨rfl, rfl, _, _, rfl⟩
  · exact h.refuse e

/-- A failure that is not behind stays where it is, whatever is refused after it. -/
theorem Failure.furthest_of_le {f g : Failure} (h : g.place ≤ f.place) :
    (Failure.furthest (some f) g).place = f.place ∧ (Failure.furthest (some f) g).span = f.span := by
  rcases Nat.lt_or_eq_of_le h with hlt | heq
  · rw [furthest_of_gt hlt]
    exact ⟨rfl, rfl⟩
  · rw [furthest_of_eq heq.symm]
    exact ⟨rfl, rfl⟩

end ConstraintNet.Reading
