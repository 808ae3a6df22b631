import ConstraintNet.Proofs.Reading.Tokens

/-! What a reader makes of a text.

A `Phrase` is what a reader is for: the texts of each value, and how the text must
go on for the reader to stop there. A reader takes such a text (`Takes`, `Reads`).

Of a text that does not begin with one (`Fails`) there is a part that some text of
the phrase begins with, and after it something that was not expected: with that
much of the text every reading gets stuck, however the text goes on. To be stuck is
to be refused, or to go on where nothing can be read any more; either way the
failure that is left marks the place (`Stuck`).

Both are put together from the parts of a reader, from left to right. -/
namespace ConstraintNet.Reading
open Text (byteLength byteLength_append isBlank)
open Grammar (Blanks Spaced)

/-! ### How a text goes on -/

/-- The next character, and the next that is no blank. -/
structure Ahead where
  next : Option Char
  token : Option Char

def ahead (cs : List Char) : Ahead :=
  ⟨cs.head?, (afterBlanks cs).head?⟩

theorem ahead_append {w : List Char} (h : afterBlanks w ≠ []) (v : List Char) :
    ahead (w ++ v) = ahead w := by
  obtain ⟨c, cs, hc⟩ := List.exists_cons_of_ne_nil h
  cases w with
  | nil => exact absurd rfl h
  | cons d ds => rw [ahead, ahead, afterBlanks_append_of_ne h, hc]; rfl

/-- What was not expected, between what is before it and the rest of the text: it
does not begin with blanks that would be skipped, and is nothing only at the end. -/
structure Edge (u x z : List Char) : Prop where
  solid : afterBlanks (u ++ x) = afterBlanks u ++ x
  last : x = [] → z = []

theorem Edge.after {u x z : List Char} (h : Edge u x z) (w : List Char) : Edge (w ++ u) x z := by
  refine ⟨?_, h.last⟩
  by_cases hw : afterBlanks w = []
  · have hblanks := blanks_of_afterBlanks hw
    rw [List.append_assoc, afterBlanks_append hblanks, afterBlanks_append hblanks, h.solid]
  · rw [List.append_assoc, afterBlanks_append_of_ne hw, afterBlanks_append_of_ne hw, List.append_assoc]

theorem Edge.afterBlanks_eq {u x z : List Char} (h : Edge u x z) :
    afterBlanks (u ++ x ++ z) = afterBlanks u ++ x ++ z := by
  by_cases hx : x = []
  · rw [hx, h.last hx]
    simp only [List.append_nil]
  · have hne : afterBlanks (u ++ x) ≠ [] := by
      rw [h.solid]
      exact List.append_ne_nil_of_right_ne_nil _ hx
    rw [afterBlanks_append_of_ne hne, h.solid]

/-- How a text goes on is settled no later than by what was not expected. -/
theorem Edge.ahead_eq {u x z z' : List Char} (h : Edge u x z) (h' : Edge u x z') :
    ahead (u ++ x ++ z') = ahead (u ++ x ++ z) := by
  by_cases hx : x = []
  · rw [h.last hx, h'.last hx]
  · have hne : afterBlanks (u ++ x) ≠ [] := by
      rw [h.solid]
      exact List.append_ne_nil_of_right_ne_nil _ hx
    rw [ahead_append hne, ahead_append hne]

/-- The next character that is no blank, if there is one, between what is before and
after it. -/
theorem exists_edge (v : List Char) :
    ∃ b z, Blanks b ∧ v = b ++ (ahead v).token.toList ++ z ∧ Edge b (ahead v).token.toList z := by
  obtain ⟨b, hb, hv⟩ := exists_blanks v
  refine ⟨b, (afterBlanks v).tail, hb, ?_, ?_⟩
  · have hparts : (ahead v).token.toList ++ (afterBlanks v).tail = afterBlanks v := by
      rw [ahead]
      cases afterBlanks v <;> rfl
    rw [List.append_assoc, hparts, ← hv]
  · rw [ahead]
    cases hr : afterBlanks v with
    | nil => exact ⟨by simp [afterBlanks_of_blanks hb], fun _ => rfl⟩
    | cons c r =>
      have hc : isBlank c = false := isBlank_head_afterBlanks (w := v) (by rw [hr]; rfl)
      refine ⟨?_, fun hx => nomatch hx⟩
      rw [afterBlanks_append hb, afterBlanks_of_blanks hb]
      exact afterBlanks_cons hc []

/-- The rest of the text is this one past its blanks. -/
def State.Before (s : State) (text : List Char) : Prop :=
  s.rest = afterBlanks text

theorem State.Before.head_eq {s : State} {v : List Char} (hs : s.Before v) :
    s.rest.head? = (ahead v).token := by
  rw [hs]
  rfl

theorem State.Before.length_le {s t : State} {w v : List Char} (hs : s.Before (w ++ v))
    (ht : t.Before v) : t.rest.length ≤ s.rest.length := by
  rw [hs, ht]
  exact (afterBlanks_suffix w v).length_le

/-- A text that holds more than blanks is worth a character. -/
theorem State.Before.length_lt {s t : State} {w v : List Char} (hs : s.Before (w ++ v))
    (ht : t.Before v) (hw : afterBlanks w ≠ []) : t.rest.length < s.rest.length := by
  have hpos := List.length_pos_iff.mpr hw
  have hle := (List.dropWhile_suffix (l := v) isBlank).length_le
  rw [hs, ht, afterBlanks_append_of_ne hw, List.length_append, afterBlanks]
  omega

/-- What was not expected is not behind. -/
theorem State.Before.offset_le {s : State} {u x z : List Char} (hs : s.Before (u ++ x ++ z))
    (hedge : Edge u x z) : s.offset + byteLength (x ++ z) ≤ s.total := by
  rw [total, hs, hedge.afterBlanks_eq, List.append_assoc, byteLength_append (afterBlanks u)]
  omega

theorem State.Before.skip_eq {s : State} {v : List Char} (hs : s.Before v) : s.skip = s :=
  skip_eq_self (by rw [hs, afterBlanks_afterBlanks])

/-! ### Phrases -/

/-- What a reader is for. -/
structure Phrase (α : Type) where
  /-- The texts of a value. -/
  Text : α → List Char → Prop
  /-- The value ends where the text goes on like this. -/
  Ends : α → Ahead → Prop

/-- Some text of the phrase begins like this. -/
def Phrase.Viable {α : Type} (L : Phrase α) (u : List Char) : Prop :=
  ∃ a w, L.Text a w ∧ u <+: w

section Verdicts
variable {α β : Type} {n : Nat} {Q Q' Q'' : State → Prop}

/-! ### Taking a text -/

/-- In texts of less than `n` characters, the reader takes the text `w` of `a` where
the text goes on like `next`. -/
def Takes (n : Nat) (Q Q' : State → Prop) (p : Reader α) (a : α) (w : List Char) (next : Ahead) :
    Prop :=
  ∀ ⦃s v⦄, s.rest.length < n → Q s → ahead v = next → s.Before (w ++ v) →
    ∃ t, p s = .read a t ∧ t.Before v ∧ t.total = s.total ∧ Q' t

/-- The reader takes all texts of its phrase. -/
def Reads (n : Nat) (Q Q' : State → Prop) (L : Phrase α) (p : Reader α) : Prop :=
  ∀ ⦃a w next⦄, L.Text a w → L.Ends a next → Takes n Q Q' p a w next

theorem Takes.bind {p : Reader α} {k : α → Reader β} {a : α} {b : β} {w w' : List Char} {next : Ahead}
    (h : ∀ v, ahead v = next → Takes n Q Q' p a w (ahead (w' ++ v)))
    (h' : Takes n Q' Q'' (k a) b w' next) : Takes n Q Q'' (p >>= k) b (w ++ w') next := by
  intro s v hn hs hnext hbefore
  rw [List.append_assoc] at hbefore
  obtain ⟨t, hread, ht, htotal, hq⟩ := h v hnext hn hs rfl hbefore
  have hlt := Nat.lt_of_le_of_lt (hbefore.length_le ht) hn
  obtain ⟨u, hread', hu, htotal', hq'⟩ := h' hlt hq hnext ht
  exact ⟨u, (bind_read hread k).trans hread', hu, htotal'.trans htotal, hq'⟩

theorem Takes.map {p : Reader α} {a : α} {w : List Char} {next : Ahead} (h : Takes n Q Q' p a w next)
    (k : α → β) : Takes n Q Q' (k <$> p) (k a) w next := by
  intro s v hn hs hnext hbefore
  obtain ⟨t, hread, ht⟩ := h hn hs hnext hbefore
  exact ⟨t, map_read hread k, ht⟩

theorem Takes.optional {p : Reader α} {a : α} {w : List Char} {next : Ahead}
    (h : Takes n Q Q' p a w next) : Takes n Q Q' p.optional (some a) w next := by
  intro s v hn hs hnext hbefore
  obtain ⟨t, hread, ht⟩ := h hn hs hnext hbefore
  exact ⟨t, optional_read hread, ht⟩

theorem Takes.mono {p : Reader α} {a : α} {w : List Char} {next : Ahead} (h : Takes n Q Q' p a w next)
    (hq : ∀ s, Q' s → Q'' s) : Takes n Q Q'' p a w next := by
  intro s v hn hs hnext hbefore
  obtain ⟨t, hread, ht, htotal, hq'⟩ := h hn hs hnext hbefore
  exact ⟨t, hread, ht, htotal, hq t hq'⟩

/-! ### Getting stuck -/

/-- In a text of `total` bytes the failure is of the place where the text goes on with
`x ++ z`, and spans no less than `x`. -/
structure Failure.Marks (f : Failure) (total : Nat) (x z : List Char) : Prop where
  place : f.place = f.span.start
  start : f.span.start + byteLength (x ++ z) = total
  stop : ∃ y, y <+: z ∧ f.span.stop = f.span.start + byteLength (x ++ y)

theorem Failure.At.marks {f : Failure} {s : State} {x z : List Char} (h : f.At s)
    (hrest : s.rest = x ++ z) (hx : s.rest.head?.toList = x) : f.Marks s.total x z := by
  have hspan : f.span = ⟨s.offset, s.offset + byteLength x⟩ := by
    rw [h.span, State.next, hx]
  refine ⟨?_, ?_, [], List.nil_prefix, ?_⟩
  · rw [h.place, hspan]
  · rw [hspan, State.total, hrest]
  · rw [hspan, List.append_nil]

theorem Failure.Marks.offset_le {f : Failure} {s : State} {u x z : List Char} (h : f.Marks s.total x z)
    (hs : s.Before (u ++ x ++ z)) (hedge : Edge u x z) : s.offset ≤ f.place := by
  have hle := hs.offset_le hedge
  have hstart := h.start
  rw [h.place]
  omega

/-- The failure marks what another marks. -/
theorem Failure.Marks.congr {f g : Failure} {total : Nat} {x z : List Char} (h : f.Marks total x z)
    (hplace : g.place = f.place) (hspan : g.span = f.span) : g.Marks total x z := by
  refine ⟨?_, ?_, ?_⟩
  · rw [hplace, hspan, h.place]
  · rw [hspan, h.start]
  · rw [hspan]
    exact h.stop

/-- A failure is pending that nothing to be read before `D` will replace. -/
structure Stranded (D : Option Char → Prop) (f : Failure) (s : State) : Prop where
  pending : s.pending = some f
  place : s.offset ≤ f.place
  rest : afterBlanks s.rest = s.rest
  barred : D s.rest.head?

theorem Stranded.refuse {D : Option Char → Prop} {f : Failure} {s : State} (h : Stranded D f s)
    (e : Expectation) : (s.refuse e).place = f.place ∧ (s.refuse e).span = f.span := by
  rw [State.refuse, h.pending]
  exact Failure.furthest_of_le h.place

/-- The failure is all that is left. -/
inductive Left (D : Option Char → Prop) (f : Failure) : Outcome α → Prop where
  | refused : Left D f (.refused f)
  | read {a : α} {s : State} (h : Stranded D f s) : Left D f (.read a s)

theorem Left.cases {D : Option Char → Prop} {f : Failure} {o : Outcome α} (h : Left D f o) :
    o = .refused f ∨ ∃ a s, o = .read a s ∧ Stranded D f s := by
  cases h with
  | refused => exact .inl rfl
  | read h => exact .inr ⟨_, _, rfl, h⟩

def Stuck (D : Option Char → Prop) (o : Outcome α) (total : Nat) (x z : List Char) : Prop :=
  ∃ f : Failure, f.Marks total x z ∧ Left D f o

/-- The text does not begin with one of the phrase, and every reading of it, or of
one that differs only after what was not expected, gets stuck. -/
def Fails (Q : State → Prop) (D : Option Char → Prop) (V : List Char → Prop) (p : Nat → Reader α)
    (text : List Char) : Prop :=
  ∃ u x z, text = u ++ x ++ z ∧ Edge u x z ∧ V u ∧
    ∀ n s z', s.rest.length < n → Q s → Edge u x z' → s.Before (u ++ x ++ z') →
      Stuck D (p n s) s.total x z'

/-- The text begins with one of the phrase, or fails. -/
def Decided (Q : State → Prop) (D : Option Char → Prop) (L : Phrase α) (p : Nat → Reader α)
    (text : List Char) : Prop :=
  (∃ a w v, text = w ++ v ∧ L.Text a w ∧ L.Ends a (ahead v)) ∨ Fails Q D L.Viable p text

/-- What is pending stays, where nothing to be read comes next. -/
def Keeps (D D' : Option Char → Prop) (p : Reader α) : Prop :=
  ∀ ⦃s f⦄, Stranded D f s → ∃ g : Failure, g.place = f.place ∧ g.span = f.span ∧ Left D' g (p s)

theorem keeps_pure {D : Option Char → Prop} (a : α) : Keeps D D (pure a : Reader α) :=
  fun _ f hs => ⟨f, rfl, rfl, .read hs⟩

theorem keeps_of_false {D : Option Char → Prop} (p : Reader α) : Keeps (fun _ => False) D p :=
  fun _ _ hs => hs.barred.elim

/-! ### Failing, part by part -/

section Fails
variable {D D' : Option Char → Prop} {V V' : List Char → Prop} {p : Nat → Reader α}
  {k : Nat → α → Reader β}

theorem Fails.mono {v : List Char} (h : Fails Q D V' p v) (hV : ∀ u, V' u → V u) :
    Fails Q D V p v := by
  obtain ⟨u, x, z, hv, hedge, hu, hstuck⟩ := h
  exact ⟨u, x, z, hv, hedge, hV u hu, hstuck⟩

/-- A part is read, and what remains fails. -/
theorem Fails.step {q : Nat → Reader β} {k : Nat → Reader β} {w v : List Char}
    (hread : ∀ ⦃n s v'⦄, s.rest.length < n → Q s → ahead v' = ahead v → s.Before (w ++ v') →
      ∃ t, q n s = k n t ∧ t.Before v' ∧ t.total = s.total ∧ Q' t)
    (h : Fails Q' D V' k v) (hV : ∀ u, V' u → V (w ++ u)) :
    Fails Q D V q (w ++ v) := by
  obtain ⟨u, x, z, rfl, hedge, hu, hstuck⟩ := h
  refine ⟨w ++ u, x, z, by simp only [List.append_assoc], hedge.after w, hV u hu, ?_⟩
  intro n s z' hn hs hedge' hbefore
  have hbefore' : s.Before (w ++ (u ++ x ++ z')) := by
    rwa [List.append_assoc w, List.append_assoc w] at hbefore
  have hrestEdge : Edge u x z' := ⟨hedge.solid, hedge'.last⟩
  obtain ⟨t, ht, hrest, htotal, hq⟩ := hread hn hs (hedge.ahead_eq hrestEdge) hbefore'
  have hlt := Nat.lt_of_le_of_lt (hbefore'.length_le hrest) hn
  rw [ht, ← htotal]
  exact hstuck n t z' hlt hq hrestEdge hrest

theorem Fails.after {a : α} {w v : List Char} (hread : ∀ n, Takes n Q Q' (p n) a w (ahead v))
    (h : Fails Q' D V' (fun n => k n a) v) (hV : ∀ u, V' u → V (w ++ u)) :
    Fails Q D V (fun n => p n >>= k n) (w ++ v) := by
  refine Fails.step (fun n s v' hn hs hahead hbefore => ?_) h hV
  obtain ⟨t, ht, hrest⟩ := hread n hn hs hahead hbefore
  exact ⟨t, bind_read ht (k n), hrest⟩

/-- A part fails, and what was to follow does not change that. -/
theorem Fails.bind {v : List Char} (h : Fails Q D V' p v) (hV : ∀ u, V' u → V u)
    (hkeeps : ∀ n a, Keeps D D' (k n a)) : Fails Q D' V (fun n => p n >>= k n) v := by
  obtain ⟨u, x, z, rfl, hedge, hu, hstuck⟩ := h
  refine ⟨u, x, z, rfl, hedge, hV u hu, ?_⟩
  intro n s z' hn hs hedge' hbefore
  obtain ⟨f, hmarks, hleft⟩ := hstuck n s z' hn hs hedge' hbefore
  show Stuck D' ((p n >>= k n) s) s.total x z'
  rcases hleft.cases with hp | ⟨a, t, hp, hstranded⟩
  · rw [bind_refused hp]
    exact ⟨f, hmarks, .refused⟩
  · rw [bind_read hp]
    obtain ⟨g, hplace, hspan, hg⟩ := hkeeps n a hstranded
    exact ⟨g, hmarks.congr hplace hspan, hg⟩

theorem Fails.map {v : List Char} (h : Fails Q D V p v) (k : α → β) :
    Fails Q D V (fun n => k <$> p n) v :=
  h.bind (fun _ h => h) fun _ a => keeps_pure (k a)

/-- Nothing is read instead of what failed. -/
theorem Fails.orElse_pure {v : List Char} (h : Fails Q D V p v) (a : α) (hD : ∀ h, D h → D' h)
    (hD' : D' (ahead v).token) : Fails Q D' V (fun n => .orElse (p n) (pure a)) v := by
  obtain ⟨u, x, z, rfl, hedge, hu, hstuck⟩ := h
  refine ⟨u, x, z, rfl, hedge, hu, ?_⟩
  intro n s z' hn hs hedge' hbefore
  obtain ⟨f, hmarks, hleft⟩ := hstuck n s z' hn hs hedge' hbefore
  show Stuck D' (Reader.orElse (p n) (pure a) s) s.total x z'
  rcases hleft.cases with hp | ⟨b, t, hp, hpending, hplace, hrest, hbarred⟩
  · rw [orElse_refused hp]
    have hrest := State.afterBlanks_rest hbefore.skip_eq
    refine ⟨f, hmarks, .read ⟨rfl, hmarks.offset_le hbefore hedge', hrest, ?_⟩⟩
    show D' s.rest.head?
    rwa [hbefore.head_eq, hedge.ahead_eq hedge']
  · rw [orElse_read hp]
    exact ⟨f, hmarks, .read ⟨hpending, hplace, hrest, hD _ hbarred⟩⟩

/-- What comes next is not what was expected. -/
theorem Fails.here {v : List Char} (hV : ∀ b, Blanks b → V b)
    (h : ∀ ⦃n s⦄, s.rest.length < n → Q s → s.skip = s → s.rest.head? = (ahead v).token →
      ∃ f, p n s = .refused f ∧ f.At s) : Fails Q D V p v := by
  obtain ⟨b, z, hb, hv, hedge⟩ := exists_edge v
  refine ⟨b, _, z, hv, hedge, hV b hb, ?_⟩
  intro n s z' hn hs hedge' hbefore
  have hrest : s.rest = (ahead v).token.toList ++ z' := by
    rw [hbefore, hedge'.afterBlanks_eq, afterBlanks_of_blanks hb, List.nil_append]
  have hhead : s.rest.head? = (ahead v).token := by
    rw [hrest]
    cases htoken : (ahead v).token with
    | none =>
      rw [htoken] at hedge'
      rw [hedge'.last rfl]
      rfl
    | some c => rfl
  have hskip : s.skip = s := hbefore.skip_eq
  obtain ⟨f, hp, hat⟩ := h hn hs hskip hhead
  refine ⟨f, hat.marks hrest (by rw [hhead]), ?_⟩
  rw [hp]
  exact .refused

end Fails

end Verdicts

end ConstraintNet.Reading
