import ConstraintNet.Proofs.Reading.Verdict

/-! What the readers of delimiters and lists make of a text.

All of it is about any reader of items that reads the phrase `L` and decides the
texts it meets. The items of a list then may end where a comma follows or the
bracket that closes the list, and a reader that got stuck stands before neither. -/
namespace ConstraintNet.Reading
open Text (byteLength byteLength_append isBlank)
open Grammar (Blanks Spaced Following Listed)

/-! ### Delimiters -/

section Delimiters
variable {c : Char} {n : Nat} {D D' : Option Char → Prop}

def Phrase.delimiter (c : Char) : Phrase Unit where
  Text _ w := Spaced [c] w
  Ends _ _ := True

theorem afterBlanks_spaced {c : Char} (hc : isBlank c = false) {w : List Char} (h : Spaced [c] w) :
    ∃ a, Blanks a ∧ ∀ v, afterBlanks (w ++ v) = c :: (a ++ v) :=
  afterBlanks_token (List.cons_ne_nil c []) (afterBlanks_cons hc []) h

/-- A delimiter is worth a character. -/
theorem length_lt_delimiter {u : List Char} (h : Spaced [c] u) (v : List Char) :
    v.length < (u ++ v).length := by
  obtain ⟨b, a, -, -, rfl⟩ := h
  simp only [List.length_append, List.length_cons]
  omega

theorem delimiter_reads (hc : isBlank c = false) :
    Reads n Calm Clear (Phrase.delimiter c) (Reader.delimiter c) := by
  intro _ w next hw _ s v _ hs _ hbefore
  obtain ⟨a, ha, htext⟩ := afterBlanks_spaced hc hw
  have hrest : afterBlanks s.rest = c :: (a ++ v) := by
    rw [hbefore, afterBlanks_afterBlanks, htext]
  obtain ⟨t, hread, ht, htotal, hclear⟩ := delimiter_read hs hrest
  exact ⟨t, hread, ht.trans (afterBlanks_append ha v), htotal, hclear⟩

theorem delimiter_decided (c : Char) (r : List Char) :
    Decided Calm D (Phrase.delimiter c) (fun _ => Reader.delimiter c) r := by
  by_cases hc : (ahead r).token = some c
  · obtain ⟨b, z, hb, hr, -⟩ := exists_edge r
    rw [hc] at hr
    exact .inl ⟨(), b ++ [c], z, hr, .front hb [c], trivial⟩
  · refine .inr (Fails.here (fun b hb => ?_) fun n s _ hs hskip hhead => ?_)
    · exact ⟨(), b ++ [c], .front hb [c], List.prefix_append b [c]⟩
    · rw [← hhead] at hc
      exact delimiter_refused hs hskip hc

/-- Where the delimiter does not come next, what is pending is what is left. -/
theorem delimiter_stranded {s : State} {f : Failure} (hD : ∀ h, D h → h ≠ some c)
    (hs : Stranded D f s) : ∃ g : Failure, g.place = f.place ∧ g.span = f.span ∧
      Reader.delimiter c s = .refused g := by
  have hskip := State.skip_eq_self hs.rest
  have hrefused : Reader.delimiter c s = .refused (s.refuse (.character c)) := by
    refine padded_refused ?_
    rw [hskip]
    exact character_refused (hD _ hs.barred)
  obtain ⟨hplace, hspan⟩ := hs.refuse (.character c)
  exact ⟨_, hplace, hspan, hrefused⟩

theorem keeps_delimiter {β : Type} (k : Unit → Reader β) (hD : ∀ h, D h → h ≠ some c) :
    Keeps D D' (Reader.delimiter c >>= k) := by
  intro s f hs
  obtain ⟨g, hplace, hspan, hrefused⟩ := delimiter_stranded hD hs
  exact ⟨g, hplace, hspan, by rw [bind_refused hrefused]; exact .refused⟩

end Delimiters

/-! ### Items after commas -/

section Repeated
variable {α : Type} {p : Reader α} {s t : State} {a : α} {f : Failure}

theorem many_refused (h : p s = .refused f) : p.many s = .read [] {s with pending := some f} := by
  rw [Reader.many, Reader.repeated, h]

theorem many_read (h : p s = .read a t) (hlt : t.rest.length < s.rest.length) :
    p.many s = (p.many >>= fun as => pure (a :: as)) t := by
  rw [Reader.many, Reader.repeated, h]
  simp only [if_pos hlt]
  rfl

theorem many_last (h : p s = .read a t) (hge : ¬ t.rest.length < s.rest.length) :
    p.many s = .read [a] t := by
  rw [Reader.many, Reader.repeated, h]
  simp only [if_neg hge]

end Repeated

section Items
variable {α : Type} {L : Phrase α} {n : Nat} {D D' : Option Char → Prop}

/-- An item and the comma before it. -/
def Phrase.next (L : Phrase α) : Phrase α where
  Text a w := ∃ u v, Spaced [','] u ∧ L.Text a v ∧ w = u ++ v
  Ends := L.Ends

/-- Items after commas, up to where no comma follows. -/
def Phrase.following (L : Phrase α) : Phrase (List α) where
  Text := Following L.Text
  Ends as next := (∀ a ∈ as.getLast?, L.Ends a next) ∧ next.token ≠ some ','

/-- A comma and an item. -/
def commaThen (p : Reader α) : Reader α := do
  .delimiter ','
  p

theorem commaThen_reads {p : Reader α} (hp : Reads n Clear Calm L p) :
    Reads n Calm Calm L.next (commaThen p) := by
  rintro a _ next ⟨u, v, hu, hv, rfl⟩ hends
  exact Takes.bind (a := ()) (fun _ _ => delimiter_reads (by decide) hu trivial) (hp hv hends)

theorem commaThen_refused {p : Reader α} {s : State} (hs : Calm s) (hskip : s.skip = s)
    (h : s.rest.head? ≠ some ',') : ∃ f, commaThen p s = .refused f ∧ f.At s := by
  obtain ⟨f, hrefused, hat⟩ := delimiter_refused hs hskip h
  exact ⟨f, bind_refused hrefused _, hat⟩

/-- An item and its comma hold more than blanks. -/
theorem afterBlanks_next {a : α} {w : List Char} (h : L.next.Text a w) : afterBlanks w ≠ [] := by
  obtain ⟨u, v, hu, -, rfl⟩ := h
  obtain ⟨b, -, htext⟩ := afterBlanks_spaced (by decide) hu
  rw [htext v]
  exact List.cons_ne_nil _ _

/-- Whatever ends before a comma ends before the next item. -/
theorem token_spaced {c : Char} (hc : isBlank c = false) {u : List Char} (hu : Spaced [c] u)
    (v : List Char) : (ahead (u ++ v)).token = some c := by
  obtain ⟨b, -, htext⟩ := afterBlanks_spaced hc hu
  rw [ahead, htext v]
  rfl

/-- Of a list the last item alone may end at something else than a comma. -/
theorem Phrase.following_ends_cons {a : α} {as : List α} {next : Ahead} :
    L.following.Ends (a :: as) next ↔ L.following.Ends as next ∧ (as = [] → L.Ends a next) := by
  cases as with
  | nil =>
    show (∀ b ∈ [a].getLast?, _) ∧ _ ↔ ((∀ b ∈ [].getLast?, _) ∧ _) ∧ _
    simp [and_comm]
  | cons b bs => simp [following, List.getLast?_cons_cons]

/-- An item ends before the ones that follow it. -/
theorem Phrase.ends_of_following (hcomma : ∀ a v, (ahead v).token = some ',' → L.Ends a (ahead v))
    {a : α} {as : List α} {w v : List Char} (hw : L.following.Text as w)
    (hends : L.following.Ends (a :: as) (ahead v)) : L.Ends a (ahead (w ++ v)) := by
  cases hw with
  | nil => exact (following_ends_cons.mp hends).2 rfl
  | cons hu _ _ =>
    rw [List.append_assoc, List.append_assoc]
    exact hcomma a _ (token_spaced (by decide) hu _)

/-- With an item that ends before them the items after it end where they did. -/
theorem Phrase.following_ends {a : α} {as : List α} {w v : List Char} (hw : L.following.Text as w)
    (hends : L.Ends a (ahead (w ++ v))) (hlast : L.following.Ends as (ahead v)) :
    L.following.Ends (a :: as) (ahead v) := by
  refine following_ends_cons.mpr ⟨hlast, ?_⟩
  rintro rfl
  cases hw
  exact hends

theorem Phrase.following_cons {a : α} {as : List α} {w x : List Char} (hw : L.next.Text a w)
    (hx : L.following.Text as x) : L.following.Text (a :: as) (w ++ x) := by
  obtain ⟨u, v, hu, hv, rfl⟩ := hw
  exact .cons hu hv hx

theorem many_reads {p : Reader α} (hcomma : ∀ a v, (ahead v).token = some ',' → L.Ends a (ahead v))
    (hp : Reads n Clear Calm L p) : Reads n Calm Calm L.following (commaThen p).many := by
  intro as w _ hw hends s v hn hs rfl hbefore
  induction hw generalizing s with
  | nil =>
    have hhead : s.rest.head? ≠ some ',' := by
      rw [hbefore]
      exact hends.2
    obtain ⟨f, hrefused, hat⟩ := commaThen_refused (p := p) hs hbefore.skip_eq hhead
    exact ⟨_, many_refused hrefused, hbefore, rfl, calm_pending (.inr hat)⟩
  | @cons a as u x w hu hx hw ih =>
    have hitem : L.next.Text a (u ++ x) := ⟨u, x, hu, hx, rfl⟩
    have hitemEnds := Phrase.ends_of_following hcomma hw hends
    rw [List.append_assoc (u ++ x)] at hbefore
    obtain ⟨t, hread, ht, htotal, hcalm⟩ := commaThen_reads hp hitem hitemEnds hn hs rfl hbefore
    have hlt := hbefore.length_lt ht (afterBlanks_next hitem)
    obtain ⟨t', hread', ht', htotal', hcalm'⟩ := ih (Nat.lt_trans hlt hn) hcalm
      (Phrase.following_ends_cons.mp hends).1 ht
    exact ⟨t', by rw [many_read hread hlt, bind_read hread']; rfl, ht', htotal'.trans htotal, hcalm'⟩

/-- Where no comma comes next there are no more items, and what is pending stays. -/
theorem keeps_many {β : Type} (p : Reader α) (k : List α → β) (hD : ∀ h, D h → h ≠ some ',' ∧ D' h) :
    Keeps D D' ((commaThen p).many >>= fun as => pure (k as)) := by
  intro s f hs
  obtain ⟨g, hplace, hspan, hrefused⟩ := delimiter_stranded (fun h hh => (hD h hh).1) hs
  have hmany := many_refused (p := commaThen p) (bind_refused hrefused _)
  refine ⟨g, hplace, hspan, ?_⟩
  rw [bind_read hmany]
  exact .read ⟨rfl, hplace ▸ hs.place, hs.rest, (hD _ hs.barred).2⟩

section Deciding
variable {p : Nat → Reader α} {r : List Char}

theorem commaThen_decided (hL : ∃ a w, L.Text a w)
    (hd : ∀ v, v.length < r.length → Decided Clear D L p v) :
    Decided Calm D L.next (fun n => commaThen (p n)) r := by
  rcases delimiter_decided (D := fun _ => False) ',' r with ⟨_, u, v, rfl, hu, -⟩ | hfails
  · rcases hd v (length_lt_delimiter hu v) with ⟨a, w, z, rfl, hw, hends⟩ | hfails
    · exact .inl ⟨a, u ++ w, z, (List.append_assoc ..).symm, ⟨u, w, hu, hw, rfl⟩, hends⟩
    · refine .inr (hfails.after (a := ()) (fun n => delimiter_reads (by decide) hu trivial) ?_)
      rintro x ⟨a, w, hw, hx⟩
      exact ⟨a, u ++ w, ⟨u, w, hu, hw, rfl⟩, List.prefix_append_right_inj u |>.mpr hx⟩
  · refine .inr (hfails.bind ?_ fun n _ => keeps_of_false (p n))
    rintro u ⟨_, w, hw, hu⟩
    obtain ⟨a, x, hx⟩ := hL
    exact ⟨a, w ++ x, ⟨w, x, hw, hx, rfl⟩, hu.trans (List.prefix_append w x)⟩

/-- An item that fails after its comma is the end of the list. -/
theorem Fails.many (hcomma : (ahead r).token = some ',') (hD : ∀ h, D h → h ≠ some ',' ∧ D' h)
    (hD' : D' (some ',')) (h : Fails Calm D L.next.Viable (fun n => commaThen (p n)) r) :
    Fails Calm D' L.following.Viable (fun n => (commaThen (p n)).many) r := by
  obtain ⟨u, x, z, rfl, hedge, ⟨a, w, ⟨y, y', hy, hy', rfl⟩, hu⟩, hstuck⟩ := h
  refine ⟨u, x, z, rfl, hedge, ⟨[a], y ++ y' ++ [], .cons hy hy' .nil, by rwa [List.append_nil]⟩, ?_⟩
  intro n s z' hn hs hedge' hbefore
  obtain ⟨f, hmarks, hleft⟩ : Stuck D (commaThen (p n) s) s.total x z' :=
    hstuck n s z' hn hs hedge' hbefore
  have hhead : s.rest.head? = some ',' := by
    rw [hbefore.head_eq, hedge.ahead_eq hedge', hcomma]
  have hrest := State.afterBlanks_rest hbefore.skip_eq
  show Stuck D' ((commaThen (p n)).many s) s.total x z'
  rcases hleft.cases with hp | ⟨b, t, hp, hstranded⟩
  · rw [many_refused hp]
    exact ⟨f, hmarks, .read ⟨rfl, hmarks.offset_le hbefore hedge', hrest, by rwa [hhead]⟩⟩
  · by_cases hlt : t.rest.length < s.rest.length
    · rw [many_read hp hlt]
      obtain ⟨g, hplace, hspan, hg⟩ := keeps_many (p n) (b :: ·) hD hstranded
      exact ⟨g, hmarks.congr hplace hspan, hg⟩
    · rw [many_last hp hlt]
      obtain ⟨hpending, hplace, hrest, hbarred⟩ := hstranded
      exact ⟨f, hmarks, .read ⟨hpending, hplace, hrest, (hD _ hbarred).2⟩⟩

/-- An item is read, and the ones that follow it fail. -/
theorem Fails.following (hp : ∀ n, Reads n Clear Calm L (p n)) {a : α} {w v : List Char}
    (hw : L.next.Text a w) (hends : L.Ends a (ahead v))
    (h : Fails Calm D L.following.Viable (fun n => (commaThen (p n)).many) v) :
    Fails Calm D L.following.Viable (fun n => (commaThen (p n)).many) (w ++ v) := by
  refine Fails.step (fun n s v' hn hs hahead hbefore => ?_) (h.map (a :: ·)) ?_
  · obtain ⟨t, hread, ht, hstate⟩ := commaThen_reads (hp n) hw hends hn hs hahead hbefore
    exact ⟨t, many_read hread (hbefore.length_lt ht (afterBlanks_next hw)), ht, hstate⟩
  · rintro u ⟨as, x, hx, hu⟩
    exact ⟨a :: as, w ++ x, Phrase.following_cons hw hx, (List.prefix_append_right_inj w).mpr hu⟩

/-- Items are read up to where no comma follows, or up to one that fails. -/
theorem many_decided {m : Nat} (hL : ∃ a w, L.Text a w) (hD : ∀ h, D h → h ≠ some ',' ∧ D' h)
    (hD' : D' (some ',')) (hp : ∀ n, Reads n Clear Calm L (p n))
    (hd : ∀ v, v.length < m → Decided Clear D L p v) (hr : r.length ≤ m) :
    Decided Calm D' L.following (fun n => (commaThen (p n)).many) r := by
  induction hlength : r.length using Nat.strongRecOn generalizing r with
  | ind length ih =>
    by_cases hnext : (ahead r).token = some ','
    · rcases commaThen_decided hL fun v hv => hd v (Nat.lt_of_lt_of_le hv hr) with
        ⟨a, w, v, rfl, hw, hends⟩ | hfails
      · have hlt : v.length < (w ++ v).length := by
          have hne : w ≠ [] := fun h => afterBlanks_next hw (by rw [h]; rfl)
          have hpos := List.length_pos_iff.mpr hne
          rw [List.length_append]
          omega
        have hle := Nat.le_of_lt (Nat.lt_of_lt_of_le hlt hr)
        rcases ih v.length (hlength ▸ hlt) hle rfl with ⟨as, x, z, rfl, hx, hlast⟩ | hfails
        · exact .inl ⟨a :: as, w ++ x, z, (List.append_assoc ..).symm, Phrase.following_cons hw hx,
            Phrase.following_ends hx hends hlast⟩
        · exact .inr (Fails.following hp hw hends hfails)
      · exact .inr (hfails.many hnext hD hD')
    · exact .inl ⟨[], [], r, rfl, .nil, ⟨fun a ha => (nomatch ha), hnext⟩⟩

end Deciding

end Items

end ConstraintNet.Reading
