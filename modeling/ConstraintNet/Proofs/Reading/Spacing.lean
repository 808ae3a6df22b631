import ConstraintNet.Proofs.Reading.Parse

/-! Blanks make no difference.

A text may be spaced out or drawn together wherever that neither parts a word or a numeral
nor joins two of them, and it stays a text of the same term (`Grammar.derives_blanks_iff`). So
it is parsed as that term, or not at all, just as before (`Term.parse_blanks`).

What has to be known of a change of spacing is little (`Grammar.Respacing`): a change of two
texts next to each other is a change of one of them, and a token between blanks stays that
token between blanks. The rest is the grammar, whose texts are tokens between blanks. -/
namespace ConstraintNet

namespace Grammar
open Text (isBlank)
open Text.Decimal (IsNumeral)
open Reading (isWordChar isBlank_of_isWordChar isWordChar_of_isWord isWordChar_of_isDigit
  numeral_ne_nil)

/-- What is before ends, or what is behind begins, other than in a word or a numeral. -/
def Parted (u v : List Char) : Prop :=
  ¬((∃ c, u.getLast? = some c ∧ (isWordChar c = true ∨ c = '-')) ∧
    ∃ d, v.head? = some d ∧ isWordChar d = true)

instance (u v : List Char) : Decidable (Parted u v) :=
  decidable_of_iff (¬(u.getLast?.any (fun c => isWordChar c || c == '-') = true ∧
      v.head?.any isWordChar = true)) <| by
    simp only [Parted, Option.any_eq_true, Bool.or_eq_true, beq_iff_eq]

/-- It holds no blank, and at no place inside could there be one. -/
structure IsToken (x : List Char) : Prop where
  solid : ∀ c ∈ x, isBlank c = false
  whole : ∀ u v, x = u ++ v → u ≠ [] → v ≠ [] → ¬ Parted u v

section Parted
variable {u v w x : List Char} {c : Char}

theorem Parted.left (h : Parted (w ++ u) v) : Parted u v := by
  rintro ⟨⟨c, hc, hword⟩, hv⟩
  exact h ⟨⟨c, by rw [List.getLast?_append, hc, Option.some_or], hword⟩, hv⟩

theorem Parted.right (h : Parted u (v ++ w)) : Parted u v := by
  rintro ⟨hu, d, hd, hword⟩
  exact h ⟨hu, d, by rw [List.head?_append, hd, Option.some_or], hword⟩

theorem Parted.blank (hc : isBlank c = true) : Parted u (c :: v) := by
  rintro ⟨-, d, hd, hword⟩
  cases hd
  rw [isBlank_of_isWordChar hword] at hc
  cases hc

theorem isToken_singleton (hc : isBlank c = false) : IsToken [c] := by
  refine ⟨List.forall_mem_singleton.mpr hc, fun u v hsplit hu hv => ?_⟩
  have hlength := congrArg List.length hsplit
  have hu' := List.length_pos_iff.mpr hu
  have hv' := List.length_pos_iff.mpr hv
  rw [List.length_append, List.length_singleton] at hlength
  omega

/-- Characters of words, perhaps behind a sign. -/
theorem isToken_of_isWordChar (hhead : ∀ c, x.head? = some c → isWordChar c = true ∨ c = '-')
    (htail : ∀ c ∈ x.tail, isWordChar c = true) : IsToken x := by
  have hall : ∀ c ∈ x, isWordChar c = true ∨ c = '-' := by
    intro c hc
    cases x with
    | nil => cases hc
    | cons d ds =>
      rcases List.mem_cons.mp hc with rfl | hc
      · exact hhead c rfl
      · exact .inl (htail c hc)
  refine ⟨fun c hc => ?_, fun u v hsplit hu hv hparted => ?_⟩
  · rcases hall c hc with hword | rfl
    · exact isBlank_of_isWordChar hword
    · decide
  · obtain ⟨d, v, rfl⟩ := List.exists_cons_of_ne_nil hv
    refine hparted ⟨⟨u.getLast hu, List.getLast?_eq_some_getLast hu, hall _ ?_⟩, d, rfl, htail d ?_⟩
    · rw [hsplit]
      exact List.mem_append_left _ (List.getLast_mem hu)
    · rw [hsplit, List.tail_append_of_ne_nil hu]
      exact List.mem_append_right _ (List.mem_cons_self ..)

theorem IsWord.isToken (h : IsWord x) : IsToken x := by
  have hall := isWordChar_of_isWord h
  exact isToken_of_isWordChar (fun c hc => .inl (hall c (List.mem_of_head? hc)))
    fun c hc => hall c (List.mem_of_mem_tail hc)

theorem isToken_numeral (h : IsNumeral x) : IsToken x := by
  obtain ⟨ds, -, hds, rfl | rfl⟩ := h
  · exact isToken_of_isWordChar (fun c hc => .inl (isWordChar_of_isDigit (hds c (List.mem_of_head? hc))))
      fun c hc => isWordChar_of_isDigit (hds c (List.mem_of_mem_tail hc))
  · refine isToken_of_isWordChar (fun c hc => ?_) fun c hc => isWordChar_of_isDigit (hds c hc)
    cases hc
    exact .inr rfl

end Parted

/-! ### Changes of spacing -/

/-- The texts differ in spacing only: what is changed in two texts next to each other is
changed in one of them, and tokens between blanks are kept. -/
structure Respacing (S : List Char → List Char → Prop) : Prop where
  nil : ∀ w', ¬ S [] w'
  append : ∀ {v w w'}, v ≠ [] → S (v ++ w) w' →
    (∃ v', S v v' ∧ w' = v' ++ w) ∨ ∃ w'', S w w'' ∧ w' = v ++ w''
  spaced : ∀ {x w w'}, IsToken x → Spaced x w → S w w' → Spaced x w'

/-- One more blank, where it parts no word and no numeral. -/
def Inserts (w w' : List Char) : Prop :=
  w ≠ [] ∧ ∃ u c v, isBlank c = true ∧ Parted u v ∧ w = u ++ v ∧ w' = u ++ c :: v

/-- One blank less. -/
def Drops (w w' : List Char) : Prop :=
  ∃ u c v, isBlank c = true ∧ w = u ++ c :: v ∧ w' = u ++ v

theorem Blanks.insert {u v : List Char} {c : Char} (h : Blanks (u ++ v)) (hc : isBlank c = true) :
    Blanks (u ++ c :: v) := by
  intro d hd
  rcases List.mem_append.mp hd with hd | hd
  · exact h d (List.mem_append_left _ hd)
  · rcases List.mem_cons.mp hd with rfl | hd
    · exact hc
    · exact h d (List.mem_append_right _ hd)

theorem respacing_inserts : Respacing Inserts := by
  refine ⟨fun w' h => h.1 rfl, ?append, ?spaced⟩
  case append =>
    rintro v w _ hv ⟨-, u, c, z, hc, hparted, hsplit, rfl⟩
    rcases List.append_eq_append_iff.mp hsplit with ⟨y, rfl, rfl⟩ | ⟨y, rfl, rfl⟩
    · by_cases hy : y = []
      · subst hy
        refine .inl ⟨v ++ [c], ⟨hv, v, c, [], hc, ?_, (List.append_nil v).symm, rfl⟩, by simp⟩
        rintro ⟨-, d, hd, -⟩
        cases hd
      · exact .inr ⟨y ++ c :: z, ⟨List.append_ne_nil_of_left_ne_nil hy z, y, c, z, hc, hparted.left,
          rfl, rfl⟩, by simp⟩
    · exact .inl ⟨u ++ c :: y, ⟨hv, u, c, y, hc, hparted.right, rfl, rfl⟩, by simp⟩
  case spaced =>
    rintro x _ _ hx ⟨b, a, hb, ha, rfl⟩ ⟨-, u, c, z, hc, hparted, hsplit, rfl⟩
    rcases List.append_eq_append_iff.mp hsplit with ⟨y, rfl, rfl⟩ | ⟨y, hsplit', rfl⟩
    · exact ⟨b, y ++ c :: z, hb, ha.insert hc, by simp⟩
    rcases List.append_eq_append_iff.mp hsplit' with ⟨x', rfl, rfl⟩ | ⟨b', rfl, rfl⟩
    · -- The place is one of the token, so it is at one of its ends.
      have hinside : Parted x' y := hparted.left.right
      by_cases hx' : x' = []
      · subst hx'
        exact ⟨b ++ [c], a, Blanks.insert (v := []) (by rwa [List.append_nil]) hc, ha, by simp⟩
      · have hy : y = [] := Decidable.byContradiction fun hy => hx.whole x' y rfl hx' hy hinside
        subst hy
        exact ⟨b, c :: a, hb, Blanks.insert (u := []) ha hc, by simp⟩
    · exact ⟨u ++ c :: b', a, hb.insert hc, ha, by simp⟩

theorem respacing_drops : Respacing Drops := by
  refine ⟨?nil, ?append, ?spaced⟩
  case nil =>
    rintro _ ⟨u, c, v, -, hsplit, -⟩
    exact List.append_ne_nil_of_right_ne_nil u (List.cons_ne_nil c v) hsplit.symm
  case append =>
    rintro v w _ - ⟨u, c, z, hc, hsplit, rfl⟩
    rcases List.append_eq_append_iff.mp hsplit with ⟨y, rfl, rfl⟩ | ⟨y, rfl, hz⟩
    · exact .inr ⟨y ++ z, ⟨y, c, z, hc, rfl, rfl⟩, by simp⟩
    · cases y with
      | nil =>
        rw [List.nil_append] at hz
        exact .inr ⟨z, ⟨[], c, z, hc, hz.symm, rfl⟩, by simp⟩
      | cons d y =>
        obtain ⟨rfl, rfl⟩ := List.cons.inj hz
        exact .inl ⟨u ++ y, ⟨u, c, y, hc, rfl, rfl⟩, by simp⟩
  case spaced =>
    rintro x _ _ hx ⟨b, a, hb, ha, rfl⟩ ⟨u, c, z, hc, hsplit, rfl⟩
    have hdrop : ∀ {u v : List Char}, Blanks (u ++ c :: v) → Blanks (u ++ v) := fun h d hd =>
      h d ((List.mem_append.mp hd).elim (List.mem_append_left _) fun hd =>
        List.mem_append_right _ (List.mem_cons_of_mem c hd))
    rcases List.append_eq_append_iff.mp hsplit with ⟨y, rfl, rfl⟩ | ⟨y, hsplit', hz⟩
    · exact ⟨b, y ++ z, hb, hdrop ha, by simp⟩
    cases y with
    | nil =>
      rw [List.nil_append] at hz
      rw [List.append_nil] at hsplit'
      rw [← hz] at ha
      exact ⟨b, z, hb, hdrop (u := []) ha, by rw [hsplit']⟩
    | cons d y =>
      obtain ⟨rfl, rfl⟩ := List.cons.inj hz
      -- No blank of the text is one of the token.
      have hnot : c ∉ x := fun hmem => by
        rw [hx.solid c hmem] at hc
        cases hc
      rcases List.append_eq_append_iff.mp hsplit' with ⟨x', -, rfl⟩ | ⟨b', rfl, hy⟩
      · exact absurd (List.mem_append_right x' (List.mem_cons_self ..)) hnot
      · cases b' with
        | nil =>
          rw [List.nil_append] at hy
          rw [← hy] at hnot
          exact absurd (List.mem_cons_self ..) hnot
        | cons d b' =>
          obtain ⟨rfl, rfl⟩ := List.cons.inj hy
          exact ⟨u ++ b', a, hdrop hb, ha, by simp⟩

/-! ### Texts of terms -/

section Texts
variable {S : List Char → List Char → Prop} {α : Type} {P : α → List Char → Prop}
  {fits : List Char → Int64 → Prop} {w w' : List Char}

theorem Spaced.ne_nil {x w : List Char} (h : Spaced x w) (hx : x ≠ []) : w ≠ [] := by
  obtain ⟨b, a, -, -, rfl⟩ := h
  exact List.append_ne_nil_of_left_ne_nil (List.append_ne_nil_of_right_ne_nil b hx) a

theorem Following.respace (hS : Respacing S) {as : List α}
    (hP : ∀ a ∈ as, ∀ v v', P a v → S v v' → P a v') (h : Following P as w) (hw : S w w') :
    Following P as w' := by
  induction h generalizing w' with
  | nil => exact absurd hw (hS.nil w')
  | @cons a as u v w hcomma hitem hrest ih =>
    have hne := hcomma.ne_nil (List.cons_ne_nil ',' [])
    rcases hS.append (List.append_ne_nil_of_left_ne_nil hne v) hw with ⟨x, hx, rfl⟩ | ⟨x, hx, rfl⟩
    · rcases hS.append hne hx with ⟨y, hy, rfl⟩ | ⟨y, hy, rfl⟩
      · exact .cons (hS.spaced (isToken_singleton (by decide)) hcomma hy) hitem hrest
      · exact .cons hcomma (hP a (List.mem_cons_self ..) v y hitem hy) hrest
    · exact .cons hcomma hitem (ih (fun b hb => hP b (List.mem_cons_of_mem a hb)) hx)

theorem Listed.respace (hS : Respacing S) {as : List α} (hne : ∀ a ∈ as, ∀ v, P a v → v ≠ [])
    (hP : ∀ a ∈ as, ∀ v v', P a v → S v v' → P a v') (h : Listed P as w) (hw : S w w') :
    Listed P as w' := by
  cases h with
  | none => exact absurd hw (hS.nil w')
  | @some a as u v hitem hrest =>
    rcases hS.append (hne a (List.mem_cons_self ..) u hitem) hw with ⟨x, hx, rfl⟩ | ⟨x, hx, rfl⟩
    · exact .some (hP a (List.mem_cons_self ..) u x hitem hx) hrest
    · exact .some hitem (hrest.respace hS (fun b hb => hP b (List.mem_cons_of_mem a hb)) hx)

theorem Enclosed.respace (hS : Respacing S) {opening closing : Char}
    (hopening : isBlank opening = false) (hclosing : isBlank closing = false) {as : List α}
    (hne : ∀ a ∈ as, ∀ v, P a v → v ≠ []) (hP : ∀ a ∈ as, ∀ v v', P a v → S v v' → P a v')
    (h : Enclosed P opening closing as w) (hw : S w w') : Enclosed P opening closing as w' := by
  obtain ⟨u, v, x, hu, hv, hx, rfl⟩ := h
  have hne' := hu.ne_nil (List.cons_ne_nil opening [])
  rcases hS.append (List.append_ne_nil_of_left_ne_nil hne' v) hw with ⟨y, hy, rfl⟩ | ⟨y, hy, rfl⟩
  · rcases hS.append hne' hy with ⟨z, hz, rfl⟩ | ⟨z, hz, rfl⟩
    · exact ⟨z, v, x, hS.spaced (isToken_singleton hopening) hu hz, hv, hx, rfl⟩
    · exact ⟨u, z, x, hu, hv.respace hS hne hP hz, hx, rfl⟩
  · exact ⟨u, v, y, hu, hv, hS.spaced (isToken_singleton hclosing) hx hy, rfl⟩

theorem IsWord.ne_nil {x : List Char} (h : IsWord x) : x ≠ [] := by
  obtain ⟨c, cs, rfl, -⟩ := h
  exact List.cons_ne_nil c cs

theorem DerivesParameter.ne_nil {p : Parameter} (h : DerivesParameter fits p w) : w ≠ [] := by
  cases h with
  | integer hn _ hw => exact hw.ne_nil (numeral_ne_nil hn)
  | symbol hx hw => exact hw.ne_nil hx.ne_nil

theorem Derives.ne_nil {t : Term} (h : Derives fits t w) : w ≠ [] := by
  cases h with
  | literal hn _ hw => exact hw.ne_nil (numeral_ne_nil hn)
  | application hf hu =>
    exact List.append_ne_nil_of_left_ne_nil (List.append_ne_nil_of_left_ne_nil (hu.ne_nil hf.ne_nil) _) _
  | name hx hw => exact hw.ne_nil hx.ne_nil

theorem DerivesParameter.respace (hS : Respacing S) {p : Parameter} (h : DerivesParameter fits p w)
    (hw : S w w') : DerivesParameter fits p w' := by
  cases h with
  | integer hn hvalue hspaced => exact .integer hn hvalue (hS.spaced (isToken_numeral hn) hspaced hw)
  | symbol hx hspaced => exact .symbol hx (hS.spaced hx.isToken hspaced hw)

theorem DerivesBlock.respace (hS : Respacing S) {ps : List Parameter} (h : DerivesBlock fits ps w)
    (hw : S w w') : DerivesBlock fits ps w' := by
  rcases h with ⟨rfl, rfl⟩ | ⟨hne, hblock⟩
  · exact absurd hw (hS.nil w')
  · exact .inr ⟨hne, hblock.respace hS (by decide) (by decide) (fun _ _ _ => DerivesParameter.ne_nil)
      (fun _ _ _ _ => DerivesParameter.respace hS) hw⟩

/-- A text of a term stays one. -/
theorem Derives.respace (hS : Respacing S) : ∀ (t : Term) {w w' : List Char}, Derives fits t w →
    S w w' → Derives fits t w'
  | .literal _ _, _, _, h, hw => by
    cases h with
    | literal hn hvalue hspaced => exact .literal hn hvalue (hS.spaced (isToken_numeral hn) hspaced hw)
  | .application _ _ ts, _, _, h, hw => by
    cases h with
    | @application f ps _ u v w x y hf hu hblock hopening hlist hclosing =>
    have hne := hu.ne_nil hf.ne_nil
    rcases hS.append (List.append_ne_nil_of_left_ne_nil hne v) hw with ⟨z, hz, rfl⟩ | ⟨z, hz, rfl⟩
    · rcases hS.append hne hz with ⟨u', hu', rfl⟩ | ⟨v', hv', rfl⟩
      · exact .application hf (hS.spaced hf.isToken hu hu') hblock hopening hlist hclosing
      · exact .application hf hu (hblock.respace hS hv') hopening hlist hclosing
    · have hoperands : Enclosed (Derives fits) '(' ')' ts z :=
        Enclosed.respace hS (by decide) (by decide) (fun _ _ _ => Derives.ne_nil)
          (fun t _ _ _ => Derives.respace hS t) ⟨w, x, y, hopening, hlist, hclosing, rfl⟩ hz
      obtain ⟨w', x', y', hopening', hlist', hclosing', rfl⟩ := hoperands
      exact .application hf hu hblock hopening' hlist' hclosing'
  | .name _, _, _, h, hw => by
    cases h with
    | name hx hspaced => exact .name hx (hS.spaced hx.isToken hspaced hw)

/-- Blanks between tokens make no difference. -/
theorem derives_blanks_iff {t : Term} {u v b : List Char} (hparted : Parted u v) (hb : Blanks b) :
    Derives fits t (u ++ b ++ v) ↔ Derives fits t (u ++ v) := by
  induction b with
  | nil => rw [List.append_nil]
  | cons c b ih =>
    have hc := hb c (List.mem_cons_self ..)
    have hb' : Blanks b := fun d hd => hb d (List.mem_cons_of_mem c hd)
    have hparted' : Parted u (b ++ v) := by
      cases b with
      | nil => exact hparted
      | cons d b => exact Parted.blank (hb' d (List.mem_cons_self ..))
    rw [← ih hb', List.append_assoc, List.append_assoc]
    constructor
    · exact fun h => h.respace respacing_drops _ ⟨u, c, b ++ v, hc, rfl, rfl⟩
    · exact fun h => h.respace respacing_inserts _ ⟨h.ne_nil, u, c, b ++ v, hc, hparted', rfl, rfl⟩

end Texts

end Grammar

namespace Term
open Grammar (Blanks Parted derives_blanks_iff)

/-- **Blanks make no difference.** Wherever blanks part no word and no numeral, a text is parsed
as a term with them exactly if it is without. -/
theorem parse_blanks {u v w : String} (hw : Blanks w.toList) (hparted : Parted u.toList v.toList)
    (t : Term) : parse (u ++ w ++ v) = .ok t ↔ parse (u ++ v) = .ok t := by
  simp only [parse_ok_iff, String.toList_append, derives_blanks_iff hparted hw]

/-- Blanks between an operator and its operands, in a text that is a term and in one that is not. -/
theorem parse_blanks_add :
    Blanks " \n\u2003".toList ∧ Parted "add".toList "(x,-1)".toList ∧
      parse "add \n\u2003(x,-1)" = .ok (.application "add" [] [.name "x", .literal "-1" (-1)]) ∧
      ∀ t, parse "add \n\u2003(x,-)" ≠ .ok t := by
  have hblanks : Blanks " \n\u2003".toList := List.all_eq_true.mp (by decide)
  have hparted : Parted "add".toList "(x,-1)".toList := by decide
  have hparted' : Parted "add".toList "(x,-)".toList := by decide
  have hread : parse ("add" ++ "(x,-1)") =
      .ok (.application "add" [] [.name "x", .literal "-1" (-1)]) := by decide +kernel
  have hnot : parse ("add" ++ "(x,-)") =
      .error ⟨.grammar (.unexpected (some ')') [.digit]), ⟨7, 8⟩, 1, 8⟩ := by decide +kernel
  refine ⟨hblanks, hparted, (parse_blanks hblanks hparted _).mpr hread, fun t ht => ?_⟩
  rw [(parse_blanks hblanks hparted' t).mp ht] at hnot
  cases hnot

end Term

end ConstraintNet
