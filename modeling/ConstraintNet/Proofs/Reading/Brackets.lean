import ConstraintNet.Proofs.Reading.Lists

/-! What the readers of lists in brackets make of a text.

A list that may not be empty is an item and the items after commas; one that may be
is tried as one that may not, and is empty if that is refused, which is the end of
the matter unless the closing bracket comes next. -/
namespace ConstraintNet.Reading
open Text (isBlank)
open Grammar (Blanks Spaced Following Listed Enclosed)

section Items
variable {α : Type} {L : Phrase α} {n m : Nat} {D D' : Option Char → Prop} {closing : Char}

/-! ### Lists -/

/-- One item or more. -/
def Phrase.listed (L : Phrase α) : Phrase (List α) where
  Text as w := as ≠ [] ∧ Listed L.Text as w
  Ends := L.following.Ends

theorem listed_reads {p : Reader α} (hcomma : ∀ a v, (ahead v).token = some ',' → L.Ends a (ahead v))
    (hp : Reads n Clear Calm L p) : Reads n Clear Calm L.listed p.listed := by
  rintro _ _ next ⟨hne, hlist⟩ hends
  cases hlist with
  | none => exact absurd rfl hne
  | @some a as u v hu hv =>
    refine Takes.bind (fun z hz => hp hu ?_) ((many_reads hcomma hp hv ?_).map (a :: ·))
    · exact Phrase.ends_of_following hcomma hv (hz ▸ hends)
    · exact (Phrase.following_ends_cons.mp hends).1

theorem listed_decided {p : Nat → Reader α} {r : List Char} (hL : ∃ a w, L.Text a w)
    (hD : ∀ h, D h → h ≠ some ',' ∧ D' h) (hD' : D' (some ','))
    (hp : ∀ n, Reads n Clear Calm L (p n)) (hd : ∀ v, v.length < m → Decided Clear D L p v)
    (hr : r.length < m) : Decided Clear D' L.listed (fun n => (p n).listed) r := by
  rcases hd r hr with ⟨a, w, v, rfl, hw, hends⟩ | hfails
  · have hlisted : ∀ {as x}, L.following.Text as x → L.listed.Text (a :: as) (w ++ x) :=
      fun hx => ⟨List.cons_ne_nil _ _, .some hw hx⟩
    have hv : v.length ≤ m := by
      rw [List.length_append] at hr
      omega
    rcases many_decided hL hD hD' hp hd hv with ⟨as, x, z, rfl, hx, hlast⟩ | hfails
    · exact .inl ⟨a :: as, w ++ x, z, (List.append_assoc ..).symm, hlisted hx,
        Phrase.following_ends hx hends hlast⟩
    · refine .inr (Fails.after (fun n => hp n hw hends) (hfails.map (a :: ·)) ?_)
      rintro u ⟨as, x, hx, hu⟩
      exact ⟨a :: as, w ++ x, hlisted hx, (List.prefix_append_right_inj w).mpr hu⟩
  · refine .inr (hfails.bind ?_ fun n a => keeps_many (p n) (a :: ·) hD)
    rintro u ⟨a, w, hw, hu⟩
    exact ⟨[a], w ++ [], ⟨List.cons_ne_nil a [], .some hw .nil⟩, by rwa [List.append_nil]⟩

/-- Any number of items, none only if the closing bracket follows. -/
def Phrase.items (L : Phrase α) (closing : Char) : Phrase (List α) where
  Text := Listed L.Text
  Ends as next := L.following.Ends as next ∧ (as = [] → next.token = some closing)

/-- An item refuses a closing bracket. -/
def RefusesHere (n : Nat) (c : Char) (p : Reader α) : Prop :=
  ∀ ⦃s⦄, s.rest.length < n → Clear s → s.skip = s → s.rest.head? = some c →
    ∃ f, p s = .refused f ∧ f.At s

theorem items_reads {p : Reader α} (hcomma : ∀ a v, (ahead v).token = some ',' → L.Ends a (ahead v))
    (hp : Reads n Clear Calm L p) (hclosing : RefusesHere n closing p) :
    Reads n Clear Calm (L.items closing) (.orElse p.listed (pure [])) := by
  rintro as w next hlist ⟨hends, hempty⟩ s v hn hs rfl hbefore
  cases hlist with
  | none =>
    have hhead : s.rest.head? = some closing := by
      rw [hbefore]
      exact hempty rfl
    obtain ⟨f, hrefused, hat⟩ := hclosing hn hs hbefore.skip_eq hhead
    exact ⟨_, orElse_refused (bind_refused hrefused _) _, hbefore, rfl, calm_pending (.inr hat)⟩
  | some hu hv =>
    have htext : L.listed.Text _ _ := ⟨List.cons_ne_nil _ _, .some hu hv⟩
    obtain ⟨t, hread, ht⟩ := listed_reads hcomma hp htext hends hn hs rfl hbefore
    exact ⟨t, orElse_read hread _, ht⟩

theorem items_decided {p : Nat → Reader α} {r : List Char} (hL : ∃ a w, L.Text a w)
    (hD : ∀ h, D h → h ≠ some ',' ∧ h ≠ some closing) (hcomma : closing ≠ ',')
    (hp : ∀ n, Reads n Clear Calm L (p n)) (hd : ∀ v, v.length < m → Decided Clear D L p v)
    (hr : r.length < m) :
    Decided Clear (· ≠ some closing) (L.items closing) (fun n => .orElse (p n).listed (pure [])) r := by
  by_cases hnext : (ahead r).token = some closing
  · refine .inl ⟨[], [], r, rfl, .none, ⟨fun a ha => (nomatch ha), ?_⟩, fun _ => hnext⟩
    rw [hnext]
    exact fun h => hcomma (Option.some.inj h)
  · rcases listed_decided hL hD (fun h => hcomma (Option.some.inj h).symm) hp hd hr with
      ⟨as, w, v, rfl, ⟨hne, hw⟩, hends⟩ | hfails
    · exact .inl ⟨as, w, v, rfl, hw, hends, fun h => absurd h hne⟩
    · refine .inr (Fails.mono (hfails.orElse_pure [] (fun _ h => h) hnext) ?_)
      rintro u ⟨as, w, ⟨-, hw⟩, hu⟩
      exact ⟨as, w, hw, hu⟩

end Items

/-! ### Brackets -/

section Brackets
variable {β : Type} {M : Phrase β} {n : Nat} {opening closing : Char}

/-- What stands between two brackets. -/
def Phrase.enclosed (opening closing : Char) (M : Phrase β) : Phrase β where
  Text b w := ∃ u v x, Spaced [opening] u ∧ M.Text b v ∧ Spaced [closing] x ∧ w = u ++ v ++ x
  Ends _ _ := True

/-- A reader with brackets around it. -/
def enclosed (opening closing : Char) (q : Reader β) : Reader β := do
  .delimiter opening
  let b ← q
  .delimiter closing
  return b

/-- Blanks in front make no difference. -/
theorem enclosed_skip (opening closing : Char) (q : Reader β) (s : State) :
    enclosed opening closing q s.skip = enclosed opening closing q s := by
  show (Reader.delimiter opening >>= _) s.skip = (Reader.delimiter opening >>= _) s
  rw [Reader.bind_apply, Reader.bind_apply, Reader.delimiter, padded_skip]

theorem enclosed_reads {q : Reader β} (hopening : isBlank opening = false)
    (hclosing : isBlank closing = false)
    (hends : ∀ b v, (ahead v).token = some closing → M.Ends b (ahead v))
    (hq : Reads n Clear Calm M q) :
    Reads n Calm Clear (M.enclosed opening closing) (enclosed opening closing q) := by
  rintro b _ next ⟨u, v, x, hu, hv, hx, rfl⟩ -
  rw [List.append_assoc]
  refine Takes.bind (a := ()) (fun _ _ => delimiter_reads hopening hu trivial) ?_
  have hclose : Takes n Calm Clear (Reader.delimiter closing >>= fun _ => pure b) b x next :=
    (delimiter_reads (a := ()) hclosing hx trivial).map fun _ => b
  exact Takes.bind (fun z _ => hq hv (hends b _ (token_spaced hclosing hx z))) hclose

/-! A text that ends before the closing bracket may go on to it. -/

theorem Phrase.viable_opening (hM : ∃ b w, M.Text b w) {y : List Char}
    (h : (Phrase.delimiter opening).Viable y) : (M.enclosed opening closing).Viable y := by
  obtain ⟨_, u, hu, hy⟩ := h
  obtain ⟨b, w, hw⟩ := hM
  refine ⟨b, u ++ w ++ [closing], ⟨u, w, _, hu, hw, .refl _, rfl⟩, hy.trans ?_⟩
  rw [List.append_assoc]
  exact List.prefix_append u _

theorem Phrase.viable_inside {u y : List Char} (hu : Spaced [opening] u) (h : M.Viable y) :
    (M.enclosed opening closing).Viable (u ++ y) := by
  obtain ⟨b, w, hw, hy⟩ := h
  refine ⟨b, u ++ w ++ [closing], ⟨u, w, _, hu, hw, .refl _, rfl⟩, ?_⟩
  rw [List.append_assoc, List.prefix_append_right_inj]
  exact hy.trans (List.prefix_append w _)

theorem Phrase.viable_closing {b : β} {u w y : List Char} (hu : Spaced [opening] u) (hw : M.Text b w)
    (h : (Phrase.delimiter closing).Viable y) :
    (M.enclosed opening closing).Viable (u ++ (w ++ y)) := by
  obtain ⟨_, x, hx, hy⟩ := h
  refine ⟨b, u ++ w ++ x, ⟨u, w, x, hu, hw, hx, rfl⟩, ?_⟩
  rw [List.append_assoc, List.prefix_append_right_inj, List.prefix_append_right_inj]
  exact hy

theorem enclosed_decided {D : Option Char → Prop} {q : Nat → Reader β} {r : List Char}
    (hopening : isBlank opening = false) (hM : ∃ b w, M.Text b w)
    (hq : ∀ n, Reads n Clear Calm M (q n))
    (hd : ∀ v, v.length < r.length → Decided Clear (· ≠ some closing) M q v) :
    Decided Calm D (M.enclosed opening closing) (fun n => enclosed opening closing (q n)) r := by
  rcases delimiter_decided (D := fun _ => False) opening r with ⟨_, u, v, rfl, hu, -⟩ | hfails
  · have hopen : ∀ n, Takes n Calm Clear (Reader.delimiter opening) () u (ahead v) :=
      fun n => delimiter_reads hopening hu trivial
    rcases hd v (length_lt_delimiter hu v) with ⟨b, w, z, rfl, hw, hends⟩ | hfails
    · rcases delimiter_decided (D := D) closing z with ⟨_, x, z, rfl, hx, -⟩ | hfails
      · exact .inl ⟨b, u ++ w ++ x, z, by simp only [List.append_assoc], ⟨u, w, x, hu, hw, hx, rfl⟩,
          trivial⟩
      · have hrest := Fails.after (k := fun _ b => Reader.delimiter closing >>= fun _ => pure b)
          (V := fun y => (M.enclosed opening closing).Viable (u ++ y)) (fun n => hq n hw hends)
          (hfails.map fun _ => b) fun _ h => Phrase.viable_closing hu hw h
        exact .inr (Fails.after hopen hrest fun _ h => h)
    · have hinside : Fails Clear D (fun y => (M.enclosed opening closing).Viable (u ++ y))
          (fun n => q n >>= fun b => Reader.delimiter closing >>= fun _ => pure b) v :=
        hfails.bind (fun _ h => Phrase.viable_inside hu h)
          fun _ b => keeps_delimiter (fun _ => pure b) fun _ h => h
      exact .inr (Fails.after hopen hinside fun _ h => h)
  · exact .inr (hfails.bind (fun _ h => Phrase.viable_opening hM h) fun n _ => keeps_of_false _)

/-- Where the opening bracket does not come next, what is pending is what is left. -/
theorem keeps_enclosed {γ : Type} {D D' : Option Char → Prop} (q : Reader β) (k : β → Reader γ)
    (hD : ∀ h, D h → h ≠ some opening) : Keeps D D' (enclosed opening closing q >>= k) := by
  intro s f hs
  obtain ⟨g, hplace, hspan, hrefused⟩ := delimiter_stranded hD hs
  have henclosed : enclosed opening closing q s = .refused g := bind_refused hrefused _
  exact ⟨g, hplace, hspan, by rw [bind_refused henclosed]; exact .refused⟩

end Brackets

end ConstraintNet.Reading
