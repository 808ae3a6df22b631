import ConstraintNet.Proofs.Reading.Parse
import ConstraintNet.Term.Canonical

/-! Texts without blanks.

What is read as a term is, but for its spelling, the canonical form of the term: take
the blanks out, write each integer in a parameter block in its shortest numeral, and
the canonical form is what is left (`Text.compact`). Nothing else of a text is lost,
added or moved when it is read, so a text that is compact already is the canonical
form of its term, and the only compact text of it (`Term.canonical_of_parse`).

Blocks are told by braces, and their items by commas, as far as the characters go
(`Text.mapItems`); what the text means does not come into it. -/
namespace ConstraintNet

namespace Text
open Decimal (IsNumeral)

/-! ### Items of blocks -/

/-- The text without its blanks. -/
def unblanked (cs : List Char) : List Char :=
  cs.filter fun c => !isBlank c

/-- The text with each item of a block replaced. Inside of a block `item?` is as much of
an item as has been passed. -/
def mapItems (f : List Char → List Char) (item? : Option (List Char)) : List Char → List Char
  | [] => item?.elim [] f
  | c :: cs =>
    match item? with
    | none => c :: mapItems f (if c = '\x7b' then some [] else none) cs
    | some item =>
      if c = ',' then f item ++ c :: mapItems f (some []) cs
      else if c = '\x7d' then f item ++ c :: mapItems f none cs
      else mapItems f (some (item ++ [c])) cs

/-- The items of the blocks of a text, in order. -/
def items (item? : Option (List Char)) : List Char → List (List Char)
  | [] => item?.toList
  | c :: cs =>
    match item? with
    | none => items (if c = '\x7b' then some [] else none) cs
    | some item =>
      if c = ',' then item :: items (some []) cs
      else if c = '\x7d' then item :: items none cs
      else items (some (item ++ [c])) cs

instance : DecidablePred IsNumeral := fun cs =>
  decidable_of_iff ((cs ≠ [] ∧ cs.all Char.isDigit = true) ∨
      (cs.head? = some '-' ∧ cs.tail ≠ [] ∧ cs.tail.all Char.isDigit = true)) <| by
    simp only [List.all_eq_true]
    constructor
    · rintro (⟨hne, hds⟩ | ⟨hhead, hne, hds⟩)
      · exact ⟨cs, hne, hds, .inl rfl⟩
      · obtain ⟨ds, rfl⟩ := List.head?_eq_some_iff.mp hhead
        exact ⟨ds, hne, hds, .inr rfl⟩
    · rintro ⟨ds, hne, hds, rfl | rfl⟩
      · exact .inl ⟨hne, hds⟩
      · exact .inr ⟨rfl, hne, hds⟩

/-- An integer in its shortest numeral, and anything else as it is. -/
def shortest (item : List Char) : List Char :=
  if IsNumeral item then Decimal.chars (Decimal.value item) else item

/-- The text without blanks, and with the integers in its blocks in shortest numerals. -/
def compact (cs : List Char) : List Char :=
  mapItems shortest none (unblanked cs)

/-- There are no blanks, and no integers in blocks but in shortest numerals. -/
structure Compact (cs : List Char) : Prop where
  solid : ∀ c ∈ cs, isBlank c = false
  shortest : ∀ item ∈ items none cs, IsNumeral item → item = Decimal.chars (Decimal.value item)

instance (cs : List Char) : Decidable (Compact cs) :=
  decidable_of_iff (unblanked cs = cs ∧
      ((items none cs).all fun item =>
        !decide (IsNumeral item) || item == Decimal.chars (Decimal.value item)) = true) <| by
    constructor
    · rintro ⟨hsolid, hshortest⟩
      refine ⟨fun c hc => ?_, fun item hitem hnumeral => ?_⟩
      · simpa using List.filter_eq_self.mp hsolid c hc
      · simpa [hnumeral] using List.all_eq_true.mp hshortest item hitem
    · rintro ⟨hsolid, hshortest⟩
      refine ⟨List.filter_eq_self.mpr fun c hc => by simp [hsolid c hc], ?_⟩
      refine List.all_eq_true.mpr fun item hitem => ?_
      by_cases hnumeral : IsNumeral item
      · simpa [hnumeral] using hshortest item hitem hnumeral
      · simp [hnumeral]

theorem unblanked_append (v w : List Char) : unblanked (v ++ w) = unblanked v ++ unblanked w :=
  List.filter_append ..

theorem unblanked_eq_self {w : List Char} (h : ∀ c ∈ w, isBlank c = false) : unblanked w = w := by
  refine List.filter_eq_self.mpr fun c hc => ?_
  rw [h c hc]
  rfl

theorem mapItems_eq_self {f : List Char → List Char} (cs : List Char) {item? : Option (List Char)}
    (h : ∀ item ∈ items item? cs, f item = item) : mapItems f item? cs = item?.getD [] ++ cs := by
  induction cs generalizing item? with
  | nil =>
    cases item? with
    | none => rfl
    | some item =>
      rw [mapItems, Option.elim_some, h item (by simp [items]), Option.getD_some, List.append_nil]
  | cons c cs ih =>
    cases item? with
    | none =>
      rw [items] at h
      rw [mapItems, ih h]
      split <;> rfl
    | some item =>
      rw [items] at h
      rw [mapItems, Option.getD_some]
      split
      · next hc =>
        rw [if_pos hc] at h
        rw [h item (List.mem_cons_self ..), ih fun i hi => h i (List.mem_cons_of_mem _ hi)]
        rfl
      · next hc =>
        rw [if_neg hc] at h
        split
        · next hc' =>
          rw [if_pos hc'] at h
          rw [h item (List.mem_cons_self ..), ih fun i hi => h i (List.mem_cons_of_mem _ hi)]
          rfl
        · next hc' =>
          rw [if_neg hc'] at h
          rw [ih h, Option.getD_some, List.append_assoc]
          rfl

theorem Compact.compact_eq {cs : List Char} (h : Compact cs) : compact cs = cs := by
  rw [compact, unblanked_eq_self h.solid]
  refine mapItems_eq_self cs fun item hitem => ?_
  unfold Text.shortest
  split
  · next hnumeral => exact (h.shortest item hitem hnumeral).symm
  · rfl

end Text

/-! ### Texts of terms -/

namespace Grammar
open Text (isBlank unblanked unblanked_append unblanked_eq_self mapItems shortest)
open Text.Decimal (IsNumeral)
open Reading (isWordChar)

/-- Outside of blocks, the text comes out like this, whatever follows. -/
def Yields (w out : List Char) : Prop :=
  ∀ r, mapItems shortest none (unblanked w ++ r) = out ++ mapItems shortest none r

/-- A token in which there is neither a blank nor a delimiter of blocks. -/
def Plain (x : List Char) : Prop :=
  ∀ c ∈ x, isBlank c = false ∧ c ≠ '\x7b' ∧ c ≠ ',' ∧ c ≠ '\x7d'

theorem Blanks.unblanked_eq {b : List Char} (h : Blanks b) : unblanked b = [] := by
  refine List.filter_eq_nil_iff.mpr fun c hc => ?_
  rw [h c hc]
  decide

theorem Spaced.unblanked_eq {x w : List Char} (h : Spaced x w) (hx : ∀ c ∈ x, isBlank c = false) :
    unblanked w = x := by
  obtain ⟨b, a, hb, ha, rfl⟩ := h
  rw [unblanked_append, unblanked_append, hb.unblanked_eq, ha.unblanked_eq, List.nil_append,
    List.append_nil, unblanked_eq_self hx]

theorem Spaced.unblanked_delimiter {d : Char} {w : List Char} (h : Spaced [d] w)
    (hd : isBlank d = false) : unblanked w = [d] :=
  h.unblanked_eq (List.forall_mem_singleton.mpr hd)

theorem plain_of_isWordChar {c : Char} (h : isWordChar c = true ∨ c = '-') :
    isBlank c = false ∧ c ≠ '\x7b' ∧ c ≠ ',' ∧ c ≠ '\x7d' := by
  rcases h with h | rfl
  · refine ⟨Reading.isBlank_of_isWordChar h, ?_, ?_, ?_⟩ <;>
      · rintro rfl
        revert h
        decide
  · decide

theorem IsWord.plain {x : List Char} (h : IsWord x) : Plain x :=
  fun c hc => plain_of_isWordChar (.inl (Reading.isWordChar_of_isWord h c hc))

theorem plain_numeral {x : List Char} (h : IsNumeral x) : Plain x := by
  obtain ⟨ds, -, hds, hx⟩ := h
  intro d hd
  refine plain_of_isWordChar ?_
  have hdigit : d ∈ ds → isWordChar d = true := fun hd => Reading.isWordChar_of_isDigit (hds d hd)
  rcases hx with rfl | rfl
  · exact .inl (hdigit hd)
  · exact (List.mem_cons.mp hd).elim .inr fun hd => .inl (hdigit hd)

/-! ### Outside of blocks -/

theorem Yields.append {v w out out' : List Char} (h : Yields v out) (h' : Yields w out') :
    Yields (v ++ w) (out ++ out') := by
  intro r
  rw [unblanked_append, List.append_assoc, h, h', List.append_assoc]

theorem mapItems_outside {x : List Char} (h : '\x7b' ∉ x) (r : List Char) :
    mapItems shortest none (x ++ r) = x ++ mapItems shortest none r := by
  induction x with
  | nil => rfl
  | cons c x ih =>
    obtain ⟨hc, hx⟩ := List.ne_and_not_mem_of_not_mem_cons h
    rw [List.cons_append, mapItems, if_neg hc.symm, ih hx, List.cons_append]

theorem yields_token {x w : List Char} (h : Spaced x w) (hx : ∀ c ∈ x, isBlank c = false)
    (hbrace : '\x7b' ∉ x) : Yields w x := by
  intro r
  rw [h.unblanked_eq hx, mapItems_outside hbrace]

theorem yields_delimiter {d : Char} {w : List Char} (h : Spaced [d] w) (hd : isBlank d = false)
    (hbrace : d ≠ '\x7b') : Yields w [d] :=
  yields_token h (List.forall_mem_singleton.mpr hd) fun hmem => hbrace (List.mem_singleton.mp hmem).symm

theorem yields_plain {x w : List Char} (h : Spaced x w) (hx : Plain x) : Yields w x :=
  yields_token h (fun c hc => (hx c hc).1) fun hc => (hx _ hc).2.1 rfl

/-! ### Blocks -/

theorem mapItems_inside {x : List Char} (h : Plain x) (item r : List Char) :
    mapItems shortest (some item) (x ++ r) = mapItems shortest (some (item ++ x)) r := by
  induction x generalizing item with
  | nil => rw [List.append_nil, List.nil_append]
  | cons c x ih =>
    obtain ⟨-, -, hcomma, hclosing⟩ := h c (List.mem_cons_self ..)
    rw [List.cons_append, mapItems, if_neg hcomma, if_neg hclosing,
      ih fun d hd => h d (List.mem_cons_of_mem _ hd), List.append_assoc, List.singleton_append]

/-- A parameter comes out as it is written in canonical form. -/
theorem DerivesParameter.item {p : Parameter} {w : List Char} (h : DerivesParameter InRange p w) :
    Plain (unblanked w) ∧ shortest (unblanked w) = p.chars := by
  cases h with
  | integer hn hvalue hw =>
    have hplain := plain_numeral hn
    rw [hw.unblanked_eq fun c hc => (hplain c hc).1, shortest, if_pos hn, hvalue]
    exact ⟨hplain, rfl⟩
  | symbol hx hw =>
    have hplain := hx.plain
    rw [hw.unblanked_eq fun c hc => (hplain c hc).1, shortest, if_neg, Parameter.chars,
      String.toList_ofList]
    · exact ⟨hplain, rfl⟩
    · -- A word does not begin like a numeral.
      obtain ⟨c, cs, rfl, hc, -⟩ := hx
      obtain ⟨hdigit, hsign⟩ := Reading.isDigit_of_isInitial (Reading.isInitial_iff.mpr hc)
      rintro ⟨ds, -, hds, rfl | heq⟩
      · rw [hds c (List.mem_cons_self ..)] at hdigit
        cases hdigit
      · exact hsign (List.cons.inj heq).1

theorem mapItems_following {ps : List Parameter} {v : List Char}
    (h : Following (DerivesParameter InRange) ps v) (item r : List Char) :
    mapItems shortest (some item) (unblanked v ++ '\x7d' :: r) =
      shortest item ++ (ps.flatMap fun p => ',' :: p.chars) ++ '\x7d' :: mapItems shortest none r := by
  induction h generalizing item with
  | nil =>
    rw [List.flatMap_nil, List.append_nil]
    rfl
  | cons hcomma hitem _ ih =>
    obtain ⟨hplain, hshortest⟩ := hitem.item
    rw [unblanked_append, unblanked_append, hcomma.unblanked_delimiter (by decide), List.append_assoc,
      List.append_assoc, List.singleton_append, mapItems, if_pos rfl, mapItems_inside hplain, ih,
      List.nil_append, hshortest, List.flatMap_cons]
    simp only [List.append_assoc, List.cons_append]

theorem yields_block {ps : List Parameter} {w : List Char} (h : DerivesBlock InRange ps w) :
    Yields w (Parameter.block ps) := by
  rcases h with ⟨rfl, rfl⟩ | ⟨hne, u, v, x, hu, hlist, hx, rfl⟩
  · exact fun r => rfl
  · intro r
    cases hlist with
    | none => exact absurd rfl hne
    | @some p ps v v' hitem hrest =>
      obtain ⟨hplain, hshortest⟩ := hitem.item
      rw [unblanked_append, unblanked_append, unblanked_append, hu.unblanked_delimiter (by decide),
        hx.unblanked_delimiter (by decide)]
      simp only [List.append_assoc, List.cons_append, List.nil_append]
      rw [mapItems, if_pos rfl, mapItems_inside hplain, List.nil_append, mapItems_following hrest,
        hshortest, Parameter.block, intercalate_comma]
      · simp only [List.append_assoc, List.cons_append, List.nil_append]
      · exact List.cons_ne_nil p ps

/-! ### Terms -/

mutual

/-- The text of a term comes out as its canonical form. -/
theorem yields_derives (t : Term) {w : List Char} (h : Derives InRange t w) : Yields w t.chars := by
  cases h with
  | literal hn _ hw =>
    rw [Term.chars, String.toList_ofList]
    exact yields_plain hw (plain_numeral hn)
  | @application f ps ts u v w x y hf hu hblock hopening hlist hclosing =>
    have hoperator := (yields_plain hu hf.plain).append (yields_block hblock)
    have hoperands : Yields x ([','].intercalate (Term.charsOf ts)) := by
      rw [Term.charsOf_eq_map]
      cases hlist with
      | none => exact fun r => rfl
      | some hitem hrest =>
        rw [intercalate_comma]
        exact (yields_derives _ hitem).append (yields_following _ hrest)
    have hopening' : Yields w ['('] := yields_delimiter hopening (by decide) (by decide)
    have hclosing' : Yields y [')'] := yields_delimiter hclosing (by decide) (by decide)
    have hall := hoperator.append ((hopening'.append hoperands).append hclosing')
    rw [Term.chars, String.toList_ofList, List.append_assoc (f ++ Parameter.block ps)]
    exact hall
  | name hx hw =>
    rw [Term.chars, String.toList_ofList]
    exact yields_plain hw hx.plain

theorem yields_following (ts : List Term) {w : List Char} (h : Following (Derives InRange) ts w) :
    Yields w (ts.flatMap fun t => ',' :: t.chars) := by
  cases h with
  | nil => exact fun r => rfl
  | @cons t ts u v w hcomma hitem hrest =>
    have hcomma' : Yields u [','] := yields_delimiter hcomma (by decide) (by decide)
    exact (hcomma'.append (yields_derives t hitem)).append (yields_following ts hrest)

end

/-- A text of a term is compact but for the spelling. -/
theorem Derives.compact_eq {t : Term} {w : List Char} (h : Derives InRange t w) :
    Text.compact w = t.chars := by
  have hyields := yields_derives t h []
  rw [List.append_nil] at hyields
  rw [Text.compact, hyields]
  exact List.append_nil _

end Grammar

namespace Term
open Text (Compact compact)

/-- **Writing undoes reading, up to blanks.** What is read is written in canonical form as
the text without blanks, with the integers of its parameters in shortest numerals. So a
text that is compact is the canonical form of what it is read as, and no two compact
texts are read as the same term. -/
theorem canonical_of_parse :
    (∀ (s : String) (t : Term), parse s = .ok t → t.canonical = String.ofList (compact s.toList)) ∧
      (∀ (s : String) (t : Term), parse s = .ok t → Compact s.toList → t.canonical = s) ∧
      ∀ (s s' : String) (t : Term), parse s = .ok t → parse s' = .ok t → Compact s.toList →
        Compact s'.toList → s = s' := by
  have hspelled : ∀ (s : String) (t : Term), parse s = .ok t →
      t.canonical = String.ofList (compact s.toList) := by
    intro s t h
    rw [canonical, (parse_ok_iff.mp h).1.compact_eq]
  have hcompact : ∀ (s : String) (t : Term), parse s = .ok t → Compact s.toList →
      t.canonical = s := by
    intro s t h hs
    rw [hspelled s t h, hs.compact_eq, String.ofList_toList]
  refine ⟨hspelled, hcompact, fun s s' t h h' hs hs' => ?_⟩
  rw [← hcompact s t h hs, hcompact s' t h' hs']

/-- Zeros in a parameter block are superfluous, and those of an operand are not. -/
theorem canonical_of_parse_distance :
    let t := application "dist" [.integer 0, .symbol "p"] [.name "x", .literal "-07" (-7)]
    parse "dist\x7b -00 ,p\x7d( x,\t-07 )" = .ok t ∧
      t.canonical = String.ofList (compact "dist\x7b -00 ,p\x7d( x,\t-07 )".toList) ∧
      parse "dist\x7b0,p\x7d(x,-07)" = .ok t ∧ Compact "dist\x7b0,p\x7d(x,-07)".toList ∧
      t.canonical = "dist\x7b0,p\x7d(x,-07)" := by
  have hspaced : parse "dist\x7b -00 ,p\x7d( x,\t-07 )" =
      .ok (application "dist" [.integer 0, .symbol "p"] [.name "x", .literal "-07" (-7)]) := by
    decide +kernel
  have hread : parse "dist\x7b0,p\x7d(x,-07)" =
      .ok (application "dist" [.integer 0, .symbol "p"] [.name "x", .literal "-07" (-7)]) := by
    decide +kernel
  have hcompact : Compact "dist\x7b0,p\x7d(x,-07)".toList := by decide +kernel
  exact ⟨hspaced, canonical_of_parse.1 _ _ hspaced, hread, hcompact,
    canonical_of_parse.2.1 _ _ hread hcompact⟩

end Term

end ConstraintNet
