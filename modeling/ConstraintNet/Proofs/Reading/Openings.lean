import ConstraintNet.Proofs.Reading.Locations
import ConstraintNet.Proofs.Reading.RoundTrip

/-! Where operands are opened.

In a text of a term each application opens its operands with a parenthesis, and there are
so many applications above it (`Grammar.Opening`). The count of parentheses knows nothing
of terms, and yet it stops at the first parenthesis that opens the operands of an
application too many levels down (`Grammar.exists_opening`), and at no later one
(`Grammar.Opening.stopsBy`).

So the check that comes before reading is one of the term: it passes the texts of terms
that are not nested too deep, and in any other text of a term it finds the first
application that is. Whatever follows the parenthesis that it finds, the text is none that
can be parsed (`Term.parse_nesting`). -/
namespace ConstraintNet

namespace Grammar
open Text (byteLength byteLength_append)

section
variable (fits : List Char → Int64 → Prop)

mutual

/-- In a text of a term, `a` is an application that has so many others above it, and `z`
stands before the parenthesis that opens its operands. -/
inductive Opening : Term → List Char → Term → Nat → List Char → Prop where
  | here {f : List Char} {ps : List Parameter} {ts : List Term} {u v b c x y : List Char} :
      IsWord f → Spaced f u → DerivesBlock fits ps v →
      Blanks b → Blanks c → Listed (Derives fits) ts x → Spaced [')'] y →
      Opening (.application (String.ofList f) ps ts) (u ++ v ++ (b ++ ['('] ++ c ++ x ++ y))
        (.application (String.ofList f) ps ts) 0 (u ++ v ++ b)
  | first {f : List Char} {ps : List Parameter} {t : Term} {ts : List Term}
      {u v w x q y : List Char} {a : Term} {k : Nat} {z : List Char} :
      IsWord f → Spaced f u → DerivesBlock fits ps v →
      Spaced ['('] w → Opening t x a k z → Following (Derives fits) ts q → Spaced [')'] y →
      Opening (.application (String.ofList f) ps (t :: ts)) (u ++ v ++ (w ++ (x ++ q) ++ y))
        a (k + 1) (u ++ v ++ (w ++ z))
  | later {f : List Char} {ps : List Parameter} {t : Term} {ts : List Term}
      {u v w x q y : List Char} {a : Term} {k : Nat} {z : List Char} :
      IsWord f → Spaced f u → DerivesBlock fits ps v →
      Spaced ['('] w → Derives fits t x → OpeningAmong ts q a k z → Spaced [')'] y →
      Opening (.application (String.ofList f) ps (t :: ts)) (u ++ v ++ (w ++ (x ++ q) ++ y))
        a (k + 1) (u ++ v ++ (w ++ (x ++ z)))

/-- The same in a text of terms that each come after a comma. -/
inductive OpeningAmong : List Term → List Char → Term → Nat → List Char → Prop where
  | first {t : Term} {ts : List Term} {u v w : List Char} {a : Term} {k : Nat} {z : List Char} :
      Spaced [','] u → Opening t v a k z → Following (Derives fits) ts w →
      OpeningAmong (t :: ts) (u ++ v ++ w) a k (u ++ z)
  | later {t : Term} {ts : List Term} {u v w : List Char} {a : Term} {k : Nat} {z : List Char} :
      Spaced [','] u → Derives fits t v → OpeningAmong ts w a k z →
      OpeningAmong (t :: ts) (u ++ v ++ w) a k (u ++ v ++ z)

end

end

section Openings
variable {fits : List Char → Int64 → Prop}

mutual

/-- What opens operands is a parenthesis. -/
theorem Opening.split : ∀ {t a : Term} {k : Nat} {w z : List Char}, Opening fits t w a k z →
    ∃ r, w = z ++ '(' :: r
  | _, _, _, _, _, .here (c := c) (x := x) (y := y) .. => ⟨c ++ x ++ y, by simp⟩
  | _, _, _, _, _, .first (q := q) (y := y) _ _ _ _ hitem _ _ => by
    obtain ⟨r, rfl⟩ := hitem.split
    exact ⟨r ++ q ++ y, by simp⟩
  | _, _, _, _, _, .later (y := y) _ _ _ _ _ hrest _ => by
    obtain ⟨r, rfl⟩ := hrest.split
    exact ⟨r ++ y, by simp⟩

theorem OpeningAmong.split : ∀ {ts : List Term} {a : Term} {k : Nat} {w z : List Char},
    OpeningAmong fits ts w a k z → ∃ r, w = z ++ '(' :: r
  | _, _, _, _, _, .first (w := w) _ hitem _ => by
    obtain ⟨r, rfl⟩ := hitem.split
    exact ⟨r ++ w, by simp⟩
  | _, _, _, _, _, .later _ _ hrest => by
    obtain ⟨r, rfl⟩ := hrest.split
    exact ⟨r, by simp⟩

end

theorem Opening.length_lt {t a : Term} {k : Nat} {w z : List Char} (h : Opening fits t w a k z) :
    byteLength z < byteLength w := by
  obtain ⟨r, rfl⟩ := h.split
  have hpos := Char.utf8Size_pos '('
  rw [byteLength_append, byteLength]
  omega

/-! ### Counting -/

section Counting
variable {limit depth : Nat} {f : List Char} {ps : List Parameter} {u v w : List Char}

/-- The parenthesis of an application is where the count stops, if no level is left. -/
theorem overnested_stop (depth : Nat) (hf : IsWord f) (hu : Spaced f u)
    (hv : DerivesBlock fits ps v) {b : List Char} (hb : Blanks b) (offset : Nat) (r : List Char) :
    overnested depth depth offset (u ++ v ++ (b ++ '(' :: r)) =
      some (offset + byteLength (u ++ v ++ b)) := by
  rw [overnested_flat ((hu.flat hf.flat).append hv.flat), overnested_flat hb.flat, overnested,
    if_pos rfl, if_neg (Nat.lt_irrefl depth), byteLength_append (u ++ v), Nat.add_assoc]

/-- Otherwise it goes on one level down, behind the parenthesis. -/
theorem overnested_below (hf : IsWord f) (hu : Spaced f u) (hv : DerivesBlock fits ps v)
    (hw : Spaced ['('] w) (hroom : depth < limit) (offset : Nat) (r : List Char) :
    overnested limit depth offset (u ++ v ++ (w ++ r)) =
      overnested limit (depth + 1) (offset + byteLength (u ++ v ++ w)) r := by
  rw [overnested_flat ((hu.flat hf.flat).append hv.flat), (overnested_opening hw _ _).1 hroom,
    byteLength_append (u ++ v), Nat.add_assoc]

end Counting

/-! A count that stops `k` levels down passes the terms that nest no deeper, and it stops in
the first other one. -/

mutual

/-- A term that is nested deeper has an opening at which the count stops. -/
theorem exists_opening : ∀ (t : Term) (depth : Nat) {k : Nat} {w : List Char}, Derives fits t w →
    k < t.nesting → ∃ a z, Opening fits t w a k z ∧
      ∀ offset r, overnested (depth + k) depth offset (w ++ r) = some (offset + byteLength z)
  | .name _, _, _, _, _, hk => absurd hk (Nat.not_lt_zero _)
  | .literal _ _, _, _, _, _, hk => absurd hk (Nat.not_lt_zero _)
  | .application _ _ _, depth, k, _, h, hk => by
    cases h with
    | @application f ps ts u v w x y hf hu hblock hopening hlist hclosing =>
    cases k with
    | zero =>
      obtain ⟨b, c, hb, hc, rfl⟩ := hopening
      refine ⟨_, _, .here hf hu hblock hb hc hlist hclosing, fun offset r => ?_⟩
      have hstop := overnested_stop depth hf hu hblock hb offset (c ++ x ++ y ++ r)
      simpa only [List.append_assoc, List.cons_append, List.nil_append, Nat.add_zero] using hstop
    | succ k =>
      have hlimit : depth + (k + 1) = depth + 1 + k := by omega
      have hroom : depth < depth + 1 + k := by omega
      rw [hlimit]
      cases hlist with
      | none => simp [Term.nesting, Term.nestingOf] at hk
      | @some t ts x x' hitem hrest =>
        rw [Term.nesting, Term.nestingOf] at hk
        have hbelow := fun offset r => overnested_below hf hu hblock hopening hroom offset
          (x ++ (x' ++ (y ++ r)))
        by_cases hfirst : k < t.nesting
        · obtain ⟨a, z, hat, hstop⟩ := exists_opening t (depth + 1) hitem hfirst
          refine ⟨a, _, .first hf hu hblock hopening hat hrest hclosing, fun offset r => ?_⟩
          have hplace := (hbelow offset r).trans (hstop _ _)
          simpa only [List.append_assoc, byteLength_append, Nat.add_assoc] using hplace
        · have hpass := (balanced_derives t (Nat.le_add_right (depth + 1) k) hitem).pass (by omega)
          obtain ⟨a, z, hat, hstop⟩ :=
            exists_openingAmong ts (depth + 1) (k := k) hrest (by omega)
          refine ⟨a, _, .later hf hu hblock hopening hitem hat hclosing, fun offset r => ?_⟩
          have hplace := (hbelow offset r).trans ((hpass _ _).trans (hstop _ _))
          simpa only [List.append_assoc, byteLength_append, Nat.add_assoc] using hplace

theorem exists_openingAmong : ∀ (ts : List Term) (depth : Nat) {k : Nat} {w : List Char},
    Following (Derives fits) ts w → k < Term.nestingOf ts → ∃ a z, OpeningAmong fits ts w a k z ∧
      ∀ offset r, overnested (depth + k) depth offset (w ++ r) = some (offset + byteLength z)
  | [], _, _, _, _, hk => absurd hk (Nat.not_lt_zero _)
  | t :: ts, depth, k, _, h, hk => by
    cases h with
    | @cons _ _ u v w hcomma hitem hrest =>
    rw [Term.nestingOf] at hk
    have hbefore : ∀ offset r, overnested (depth + k) depth offset (u ++ (v ++ (w ++ r))) =
        overnested (depth + k) depth (offset + byteLength u) (v ++ (w ++ r)) :=
      fun offset r => overnested_flat (hcomma.flat (by decide)) offset _
    by_cases hfirst : k < t.nesting
    · obtain ⟨a, z, hat, hstop⟩ := exists_opening t depth hitem hfirst
      refine ⟨a, _, .first hcomma hat hrest, fun offset r => ?_⟩
      have hplace := (hbefore offset r).trans (hstop _ _)
      simpa only [List.append_assoc, byteLength_append, Nat.add_assoc] using hplace
    · have hpass := (balanced_derives t (Nat.le_add_right depth k) hitem).pass (by omega)
      obtain ⟨a, z, hat, hstop⟩ := exists_openingAmong ts depth (k := k) hrest (by omega)
      refine ⟨a, _, .later hcomma hitem hat, fun offset r => ?_⟩
      have hplace := (hbefore offset r).trans ((hpass _ _).trans (hstop _ _))
      simpa only [List.append_assoc, byteLength_append, Nat.add_assoc] using hplace

end

/-- The count stops in the text `w`, and not behind `z`. -/
def StopsBy (limit depth : Nat) (w z : List Char) : Prop :=
  ∀ offset r, ∃ place, overnested limit depth offset (w ++ r) = some place ∧
    place ≤ offset + byteLength z

section StopsBy
variable {limit depth : Nat} {f : List Char} {ps : List Parameter} {u v w x z : List Char}

theorem StopsBy.append (h : StopsBy limit depth w z) (y : List Char) :
    StopsBy limit depth (w ++ y) z := by
  intro offset r
  rw [List.append_assoc]
  exact h offset (y ++ r)

theorem StopsBy.flat (hv : Flat v) (h : StopsBy limit depth w z) :
    StopsBy limit depth (v ++ w) (v ++ z) := by
  intro offset r
  obtain ⟨place, hplace, hle⟩ := h (offset + byteLength v) r
  refine ⟨place, ?_, ?_⟩
  · rw [List.append_assoc, overnested_flat hv, hplace]
  · rwa [byteLength_append, ← Nat.add_assoc]

/-- The text of a term is passed, or else the count stops in it. -/
theorem StopsBy.after {t : Term} {k : Nat} (hv : Derives fits t v)
    (h : StopsBy (depth + k) depth w z) : StopsBy (depth + k) depth (v ++ w) (v ++ z) := by
  intro offset r
  rw [List.append_assoc, byteLength_append]
  by_cases hdeep : k < t.nesting
  · obtain ⟨a, z', hat, hstop⟩ := exists_opening t depth hv hdeep
    have hlt := hat.length_lt
    exact ⟨_, hstop offset (w ++ r), by omega⟩
  · have hpass := (balanced_derives t (Nat.le_add_right depth k) hv).pass (by omega)
    obtain ⟨place, hplace, hle⟩ := h (offset + byteLength v) r
    exact ⟨place, (hpass offset (w ++ r)).trans hplace, by omega⟩

/-- What stops the count among operands stops it in the application. -/
theorem StopsBy.below (hf : IsWord f) (hu : Spaced f u) (hv : DerivesBlock fits ps v)
    (hw : Spaced ['('] w) (hroom : depth < limit) (h : StopsBy limit (depth + 1) x z)
    (y : List Char) : StopsBy limit depth (u ++ v ++ (w ++ x ++ y)) (u ++ v ++ (w ++ z)) := by
  intro offset r
  obtain ⟨place, hplace, hle⟩ := h (offset + byteLength (u ++ v ++ w)) (y ++ r)
  refine ⟨place, ?_, ?_⟩
  · have hbelow := overnested_below hf hu hv hw hroom offset (x ++ (y ++ r))
    simpa only [List.append_assoc] using hbelow.trans hplace
  · simpa only [byteLength_append, Nat.add_assoc] using hle

end StopsBy

mutual

/-- The count gets no further than any opening that is as many levels down as it allows. -/
theorem Opening.stopsBy : ∀ {t a : Term} {k : Nat} {w z : List Char} (depth : Nat),
    Opening fits t w a k z → StopsBy (depth + k) depth w z
  | _, _, _, _, _, depth, .here (c := c) (x := x) (y := y) hf hu hblock hb _ _ _ => by
    intro offset r
    refine ⟨_, ?_, Nat.le_refl _⟩
    have hstop := overnested_stop depth hf hu hblock hb offset (c ++ x ++ y ++ r)
    simpa only [List.append_assoc, List.cons_append, List.nil_append, Nat.add_zero] using hstop
  | _, _, _, _, _, depth, .first (q := q) (y := y) (k := k) hf hu hblock hopening hitem _ _ => by
    have hlimit : depth + (k + 1) = depth + 1 + k := by omega
    rw [hlimit]
    exact .below hf hu hblock hopening (by omega) ((hitem.stopsBy (depth + 1)).append q) y
  | _, _, _, _, _, depth, .later (y := y) (k := k) hf hu hblock hopening hitem hrest _ => by
    have hlimit : depth + (k + 1) = depth + 1 + k := by omega
    rw [hlimit]
    exact .below hf hu hblock hopening (by omega) (.after hitem (hrest.stopsBy (depth + 1))) y

theorem OpeningAmong.stopsBy : ∀ {ts : List Term} {a : Term} {k : Nat} {w z : List Char}
    (depth : Nat), OpeningAmong fits ts w a k z → StopsBy (depth + k) depth w z
  | _, _, _, _, _, depth, .first (w := w) hcomma hitem _ => by
    have hstops := StopsBy.flat (hcomma.flat (by decide)) (hitem.stopsBy depth)
    exact hstops.append w
  | _, _, _, _, _, depth, .later hcomma hitem hrest => by
    have hstops := StopsBy.after hitem (hrest.stopsBy depth)
    rw [List.append_assoc, List.append_assoc]
    exact hstops.flat (hcomma.flat (by decide))

end

/-- The count stops at the first opening that is too many levels down. -/
theorem overnested_first {t : Term} {w : List Char} {limit : Nat} (h : Derives fits t w)
    (hdeep : limit < t.nesting) : ∃ a z, Opening fits t w a limit z ∧
      (∀ a' z', Opening fits t w a' limit z' → byteLength z ≤ byteLength z') ∧
      overnested limit 0 0 w = some (byteLength z) := by
  obtain ⟨a, z, hat, hstop⟩ := exists_opening t 0 h hdeep
  have hplace := hstop 0 []
  rw [Nat.zero_add, Nat.zero_add, List.append_nil] at hplace
  refine ⟨a, z, hat, fun a' z' hat' => ?_, hplace⟩
  obtain ⟨place, hplace', hle⟩ := hat'.stopsBy 0 0 []
  rw [Nat.zero_add, List.append_nil, hplace] at hplace'
  rwa [Option.some.inj hplace', ← Nat.zero_add (byteLength z')]

end Openings

/-! ### Texts that go on -/

/-- What comes behind the parenthesis at which the count stops makes no difference. -/
theorem overnested_congr {limit depth offset : Nat} {u v w : List Char}
    (h : overnested limit depth offset (u ++ '(' :: v) = some (offset + byteLength u)) :
    overnested limit depth offset (u ++ '(' :: w) = some (offset + byteLength u) := by
  induction u generalizing depth offset with
  | nil =>
    rw [List.nil_append, overnested, if_pos rfl] at h ⊢
    by_cases hroom : depth < limit
    · rw [if_pos hroom] at h
      obtain ⟨u', z, -, hplace⟩ := overnested_eq_some h
      have hpos := Char.utf8Size_pos '('
      simp only [byteLength] at hplace
      omega
    · rw [if_neg hroom]
      rfl
  | cons c u ih =>
    have hnext : ∀ {depth}, overnested limit depth (offset + c.utf8Size) (u ++ '(' :: v) =
        some (offset + byteLength (c :: u)) →
        overnested limit depth (offset + c.utf8Size) (u ++ '(' :: w) =
          some (offset + byteLength (c :: u)) := by
      intro depth h
      rw [byteLength, ← Nat.add_assoc] at h ⊢
      exact ih h
    rw [List.cons_append, overnested] at h ⊢
    split
    · next hc =>
      rw [if_pos hc] at h
      split at h
      · next hroom =>
        rw [if_pos hroom]
        exact hnext h
      · have hplace := Option.some.inj h
        have hpos := c.utf8Size_pos
        rw [byteLength] at hplace
        omega
    · next hc =>
      rw [if_neg hc] at h
      split
      · next hc' =>
        rw [if_pos hc'] at h
        exact hnext h
      · next hc' =>
        rw [if_neg hc'] at h
        exact hnext h

end Grammar

/-! ### Parsing -/

namespace Term
open Text (byteLength byteLength_append)
open Grammar (InRange Derives Opening overnested_derives overnested_first overnested_congr)

mutual

theorem depth_le_nesting : ∀ t : Term, t.depth ≤ t.nesting + 1
  | .name _ => Nat.le_refl 1
  | .literal _ _ => Nat.le_refl 1
  | .application _ _ ts => by
    have hdeepest := deepest_le_nestingOf ts
    rw [depth, nesting]
    omega

theorem deepest_le_nestingOf : ∀ ts : List Term, deepest ts ≤ nestingOf ts + 1
  | [] => Nat.zero_le _
  | t :: ts => by
    have hfirst := depth_le_nesting t
    have hrest := deepest_le_nestingOf ts
    rw [deepest, nestingOf]
    omega

end

theorem parse_of_overnested {s : String} {place : Nat}
    (h : overnested nestingLimit 0 0 s.toList = some place) :
    parse s = .error (.locate s.toList .nesting ⟨place, place + 1⟩) := by
  rw [parse, h]

/-- An error says that a text is nested too deep only if the count of parentheses does. -/
theorem overnested_of_parse {s : String} {e : ParseError} (h : parse s = .error e)
    (hcause : e.cause = .nesting) :
    ∃ place, overnested nestingLimit 0 0 s.toList = some place ∧ e.span = ⟨place, place + 1⟩ := by
  unfold parse at h
  split at h
  · next place hplace =>
    obtain rfl := Except.error.inj h
    exact ⟨place, hplace, rfl⟩
  · split at h
    · cases h
    · obtain rfl := Except.error.inj h
      cases hcause

/-- **The check of parentheses is one of terms.** A text of a term is passed if its
operands nest no deeper than allowed, and then it is parsed as that term. Otherwise the error
is at the first parenthesis that opens the operands of an application with as many above it as
are allowed at all. And whatever the text is, no text that begins like it, up to and with the
parenthesis that is reported, can be parsed. -/
theorem parse_nesting (s : String) :
    (∀ t, Derives InRange t s.toList →
      (overnested nestingLimit 0 0 s.toList = none ↔ t.nesting ≤ nestingLimit) ∧
      (t.nesting ≤ nestingLimit → parse s = .ok t ∧ t.depth ≤ nestingLimit + 1) ∧
      (nestingLimit < t.nesting → ∃ a u r, Opening InRange t s.toList a nestingLimit u ∧
        (∀ a' u', Opening InRange t s.toList a' nestingLimit u' → byteLength u ≤ byteLength u') ∧
        s.toList = u ++ '(' :: r ∧
        parse s = .error (.locate s.toList .nesting ⟨byteLength u, byteLength u + 1⟩))) ∧
    ∀ e, parse s = .error e → e.cause = .nesting →
      ∃ u r, s.toList = u ++ '(' :: r ∧ e.span = ⟨byteLength u, byteLength u + 1⟩ ∧
        ∀ s' r', s'.toList = u ++ '(' :: r' → ∀ t, parse s' ≠ .ok t := by
  refine ⟨fun t h => ⟨overnested_derives h, ?shallow, ?deep⟩, ?prefixes⟩
  case shallow =>
    intro hle
    have hdepth := depth_le_nesting t
    exact ⟨parse_ok_iff.mpr ⟨h, hle⟩, by omega⟩
  case deep =>
    intro hlt
    obtain ⟨a, u, hat, hfirst, hplace⟩ := overnested_first h hlt
    obtain ⟨r, hr⟩ := hat.split
    exact ⟨a, u, r, hat, hfirst, hr, parse_of_overnested hplace⟩
  case prefixes =>
    intro e herror hcause
    obtain ⟨place, hplace, hspan⟩ := overnested_of_parse herror hcause
    obtain ⟨u, r, hu, hat⟩ := overnested_eq_some hplace
    rw [hu, hat] at hplace
    rw [hat, Nat.zero_add] at hspan
    refine ⟨u, r, hu, hspan, fun s' r' hs' t ht => ?_⟩
    have hplace' := overnested_congr (w := r') hplace
    rw [← hs'] at hplace'
    rw [parse_of_overnested hplace'] at ht
    cases ht

/-- A term that nests `n` deep, with a leaf beside each application in it. -/
def tower : Nat → Term
  | 0 => .name "x"
  | n + 1 => .application "f" [.integer 7] [.name "y", tower n]

theorem nesting_tower (n : Nat) : (tower n).nesting = n := by
  induction n with
  | zero => rfl
  | succ n ih => simp [tower, nesting, nestingOf, ih]

theorem spelled_tower (n : Nat) : ∀ s ∈ (tower n).subterms, s.Spelled := by
  induction n with
  | zero =>
    intro s hs
    obtain rfl := List.mem_singleton.mp hs
    exact Grammar.isWord_letter (c := 'x') (by decide)
  | succ n ih =>
    have hparameters : ∀ p ∈ [Parameter.integer 7], p.Spelled :=
      List.forall_mem_singleton.mpr trivial
    intro s hs
    simp only [tower, subterms, subtermsOf, List.append_nil, List.singleton_append,
      List.mem_cons] at hs
    rcases hs with rfl | rfl | hs
    · exact ⟨Grammar.isWord_letter (c := 'f') (by decide), hparameters⟩
    · exact Grammar.isWord_letter (c := 'y') (by decide)
    · exact ih s hs

/-- One level too many, and one that is just allowed. -/
theorem parse_nesting_tower :
    (Derives InRange (tower 256) (tower 256).canonical.toList ∧ (tower 256).nesting ≤ nestingLimit ∧
      parse (tower 256).canonical = .ok (tower 256)) ∧
    Derives InRange (tower 257) (tower 257).canonical.toList ∧ nestingLimit < (tower 257).nesting ∧
      ∃ a u r, Opening InRange (tower 257) (tower 257).canonical.toList a nestingLimit u ∧
        (∀ a' u', Opening InRange (tower 257) (tower 257).canonical.toList a' nestingLimit u' →
          byteLength u ≤ byteLength u') ∧
        (tower 257).canonical.toList = u ++ '(' :: r ∧
        parse (tower 257).canonical = .error
          (.locate (tower 257).canonical.toList .nesting ⟨byteLength u, byteLength u + 1⟩) := by
  have hderives : ∀ n, Derives InRange (tower n) (tower n).canonical.toList := by
    intro n
    rw [toList_canonical]
    exact derives_chars _ (spelled_tower n)
  have hlevel : (tower 256).nesting ≤ nestingLimit := Nat.le_of_eq (nesting_tower 256)
  have hdeep : nestingLimit < (tower 257).nesting := by
    rw [nesting_tower]
    exact Nat.lt_succ_self nestingLimit
  obtain ⟨hparse, -⟩ := ((parse_nesting _).1 _ (hderives 256)).2.1 hlevel
  exact ⟨⟨hderives 256, hlevel, hparse⟩, hderives 257, hdeep,
    ((parse_nesting _).1 _ (hderives 257)).2.2 hdeep⟩

end Term

end ConstraintNet
