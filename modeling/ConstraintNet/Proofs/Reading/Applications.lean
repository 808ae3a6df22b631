import ConstraintNet.Proofs.Reading.Leaves

/-! What is read after an operator.

It is the parameters in braces, if there are any, and the operands in parentheses,
for any reader of operands that decides the texts it meets. Without an opening brace
the reader of the parameters refuses on the spot; with one there is no way back, as
no parenthesis comes next if the parameters fail. -/
namespace ConstraintNet.Reading
open Text (isBlank)
open Grammar (Blanks Spaced InRange Derives DerivesBlock Listed isWord_letter)

/-! ### Parameters in braces -/

section Parameters
variable {n : Nat} {D : Option Char → Prop}

theorem endsAt_token {accept : Char → Bool} (haccept : ∀ c, accept c = true → isBlank c = false)
    {c : Char} (hc : accept c = false) {v : List Char} (h : (ahead v).token = some c) :
    EndsAt accept (ahead v).next := by
  obtain ⟨b, z, hb, hv, -⟩ := exists_edge v
  rw [h] at hv
  rw [hv, List.append_assoc]
  refine endsAt_blanks haccept hb ?_
  rintro d ⟨⟩
  exact hc

theorem parameter_ends_token {c : Char} (hc : isWordChar c = false) (a : Parameter) {v : List Char}
    (h : (ahead v).token = some c) : Phrase.parameter.Ends a (ahead v) := by
  have hword := endsAt_token (fun _ => isBlank_of_isWordChar) hc h
  cases a with
  | integer value => exact hword.digits
  | symbol name => exact hword

def Phrase.parameters : Phrase (List Parameter) :=
  Phrase.parameter.listed.enclosed '{' '}'

theorem parameters_reads : Reads n Calm Clear Phrase.parameters parameters := by
  refine enclosed_reads (by decide) (by decide) ?_ ?_
  · intro ps v hv
    refine ⟨fun a _ => parameter_ends_token (by decide) a hv, ?_⟩
    rw [hv]
    decide
  · exact listed_reads (fun a v hv => parameter_ends_token (by decide) a hv) parameter_reads

theorem parameter_text : Phrase.parameter.Text (.symbol (String.ofList ['a'])) ['a'] :=
  .symbol (isWord_letter (c := 'a') rfl) (.refl _)

theorem parameters_decided (r : List Char) :
    Decided Calm D Phrase.parameters (fun _ => parameters) r := by
  refine enclosed_decided (by decide) ⟨_, _, List.cons_ne_nil _ [], .some parameter_text .nil⟩ ?_
    fun v hv => ?_
  · intro n
    exact listed_reads (fun a v hv => parameter_ends_token (by decide) a hv) parameter_reads
  · refine listed_decided (D := fun _ => False) (m := r.length) ⟨_, _, parameter_text⟩ nofun ?_
      (fun _ => parameter_reads) (fun v _ => parameter_decided v) hv
    decide

/-- Without a brace there are none, and the place is the same. -/
theorem parameters_refused {s : State} (hs : Calm s) (hskip : s.skip = s)
    (h : s.rest.head? ≠ some '{') :
    ∃ t, parameters.optional s = .read none t ∧ t.offset = s.offset ∧ t.rest = s.rest ∧
      t.skip = t ∧ Calm t := by
  obtain ⟨f, hrefused, hat⟩ := delimiter_refused hs hskip h
  exact ⟨_, optional_refused (bind_refused hrefused _), rfl, rfl, State.skip_pending hskip _,
    calm_pending (.inr hat)⟩

end Parameters

/-! ### Operands in parentheses -/

def Phrase.term : Phrase Term where
  Text := Derives InRange
  Ends
    | .literal _ _, next => EndsAt Char.isDigit next.next
    | .application _ _ _, _ => True
    | .name _, next => EndsAt isWordChar next.next ∧ next.token ≠ some '(' ∧ next.token ≠ some '{'

/-- What is left open by a term that got stuck. -/
def Opens (next : Option Char) : Prop :=
  next = some '(' ∨ next = some '{'

section Operands
variable {n : Nat} {D : Option Char → Prop} {operand : Reader Term} {p : Nat → Reader Term}

theorem term_ends_token {c : Char} (hc : c = ',' ∨ c = ')') (t : Term) {v : List Char}
    (h : (ahead v).token = some c) : Phrase.term.Ends t (ahead v) := by
  have hword : EndsAt isWordChar (ahead v).next := by
    refine endsAt_token (fun _ => isBlank_of_isWordChar) ?_ h
    rcases hc with rfl | rfl <;> decide
  cases t with
  | literal text value => exact hword.digits
  | application operator ps ts => trivial
  | name text =>
    refine ⟨hword, ?_⟩
    rw [h]
    rcases hc with rfl | rfl <;> decide

def Phrase.operands : Phrase (List Term) :=
  (Phrase.term.items ')').enclosed '(' ')'

/-- There may be no operands at all. -/
theorem operands_text : Phrase.operands.Text [] ['(', ')'] :=
  ⟨['('], [], [')'], .refl _, .none, .refl _, rfl⟩

theorem operands_eq : operands operand = enclosed '(' ')' (.orElse operand.listed (pure [])) := rfl

theorem operands_reads (hp : Reads n Clear Calm Phrase.term operand)
    (hclosing : RefusesHere n ')' operand) :
    Reads n Calm Clear Phrase.operands (operands operand) := by
  refine enclosed_reads (by decide) (by decide) ?_ ?_
  · intro ts v hv
    refine ⟨⟨fun a _ => term_ends_token (.inr rfl) a hv, ?_⟩, fun _ => hv⟩
    rw [hv]
    decide
  · exact items_reads (fun a v hv => term_ends_token (.inl rfl) a hv) hp hclosing

theorem operands_decided {r : List Char} (hp : ∀ n, Reads n Clear Calm Phrase.term (p n))
    (hclosing : ∀ n, RefusesHere n ')' (p n))
    (hd : ∀ v, v.length < r.length → Decided Clear Opens Phrase.term p v) :
    Decided Calm D Phrase.operands (fun n => operands (p n)) r := by
  refine enclosed_decided (by decide) ⟨[], [], .none⟩ (fun n => ?_) fun v hv => ?_
  · exact items_reads (fun a v hv => term_ends_token (.inl rfl) a hv) (hp n) (hclosing n)
  · refine items_decided (m := r.length) ⟨_, _, .name (isWord_letter (c := 'a') rfl) (.refl _)⟩ ?_
      (by decide) hp hd hv
    rintro h (rfl | rfl) <;> decide

end Operands

/-! ### Both -/

section Both
variable {n : Nat} {operand : Reader Term} {p : Nat → Reader Term} {operator : String}

/-- What follows an operator. -/
def applied (operand : Reader Term) (operator : String) : Reader Term := do
  let ps ← parameters.optional
  let ts ← operands operand
  return .application operator (ps.getD []) ts

theorem application_eq : application operand = word >>= applied operand := rfl

def Phrase.applied (operator : String) : Phrase Term where
  Text t w := ∃ ps ts u v, t = .application operator ps ts ∧ DerivesBlock InRange ps u ∧
    Phrase.operands.Text ts v ∧ w = u ++ v
  Ends _ _ := True

/-- The parameters are settled, and operands follow. -/
def appliedTo (operand : Reader Term) (operator : String) (ps : List Parameter) : Reader Term := do
  let ts ← operands operand
  return .application operator ps ts

theorem applied_of_none {s t : State} (h : parameters.optional s = .read none t) :
    applied operand operator s = appliedTo operand operator [] t :=
  bind_read h _

/-- Neither a brace nor a parenthesis comes next. -/
theorem applied_refused {s : State} (hs : Calm s) (hskip : s.skip = s) (h : ¬ Opens s.rest.head?) :
    ∃ f, applied operand operator s = .refused f ∧ f.At s := by
  rw [Opens, not_or] at h
  obtain ⟨t, hnone, hoffset, ht, hskip', hcalm⟩ := parameters_refused hs hskip h.2
  have hne : t.rest.head? ≠ some '(' := by
    rw [ht]
    exact h.1
  obtain ⟨f, hrefused, hat⟩ := delimiter_refused hcalm hskip' hne
  have happlied : appliedTo operand operator [] t = .refused f :=
    bind_refused (bind_refused hrefused _) _
  exact ⟨f, by rw [applied_of_none hnone, happlied], hat.congr hoffset ht⟩

theorem block_of_parameters {ps : List Parameter} {w : List Char} (h : Phrase.parameters.Text ps w) :
    DerivesBlock InRange ps w := by
  obtain ⟨u, v, x, hu, ⟨hne, hv⟩, hx, rfl⟩ := h
  exact .inr ⟨hne, u, v, x, hu, hv, hx, rfl⟩

/-- What is applied begins with a brace or a parenthesis. -/
theorem opens_applied {t : Term} {w : List Char} (h : (Phrase.applied operator).Text t w)
    (v : List Char) : Opens (ahead (w ++ v)).token := by
  obtain ⟨ps, ts, y, z, -, hblock, ⟨u, x, x', hu, -, -, rfl⟩, rfl⟩ := h
  rcases hblock with ⟨-, rfl⟩ | ⟨-, u', y, y', hu', -, -, rfl⟩
  · left
    rw [List.nil_append, List.append_assoc, List.append_assoc, token_spaced (by decide) hu]
  · right
    rw [List.append_assoc, List.append_assoc, List.append_assoc, token_spaced (by decide) hu']

theorem Opens.endsAt {v : List Char} (h : Opens (ahead v).token) :
    EndsAt isWordChar (ahead v).next := by
  rcases h with h | h
  · exact endsAt_token (fun _ => isBlank_of_isWordChar) (by decide) h
  · exact endsAt_token (fun _ => isBlank_of_isWordChar) (by decide) h

/-- Without a brace the operands are read from the same place. -/
theorem applied_step (operand : Reader Term) (operator : String) {s : State} {v : List Char}
    (hs : Calm s) (hbefore : s.Before v) (hbrace : (ahead v).token ≠ some '{') :
    ∃ t, applied operand operator s = appliedTo operand operator [] t ∧ t.Before v ∧
      t.total = s.total ∧ Calm t := by
  rw [← hbefore.head_eq] at hbrace
  obtain ⟨t, hnone, hoffset, ht, -, hcalm⟩ := parameters_refused hs hbefore.skip_eq hbrace
  exact ⟨t, applied_of_none hnone, ht.trans hbefore, State.total_congr hoffset ht, hcalm⟩

theorem parameters_optional_reads {ps : List Parameter} {w : List Char}
    (h : Phrase.parameters.Text ps w) (next : Ahead) :
    Takes n Calm Calm parameters.optional (some ps) w next :=
  ((parameters_reads h trivial).mono fun _ hclear => hclear.calm).optional

theorem applied_reads (hp : Reads n Clear Calm Phrase.term operand)
    (hclosing : RefusesHere n ')' operand) :
    Reads n Calm Clear (Phrase.applied operator) (applied operand operator) := by
  rintro _ _ next ⟨ps, ts, u, v, rfl, hblock, hv, rfl⟩ -
  have hrest : Takes n Calm Clear (appliedTo operand operator ps) (.application operator ps ts) v
      next := (operands_reads hp hclosing hv trivial).map (Term.application operator ps)
  rcases hblock with ⟨rfl, rfl⟩ | ⟨hne, x, y, z, hx, hy, hz, rfl⟩
  · intro s v' hn hs hnext hbefore
    rw [List.nil_append] at hbefore
    have hbrace : (ahead (v ++ v')).token ≠ some '{' := by
      obtain ⟨x, y, z, hx, -, -, rfl⟩ := hv
      rw [List.append_assoc x, List.append_assoc x, token_spaced (by decide) hx]
      decide
    obtain ⟨t, hstep, ht, htotal, hcalm⟩ := applied_step operand operator hs hbefore hbrace
    have hlt : t.rest.length < n := by
      rwa [show t.rest = s.rest from ht.trans hbefore.symm]
    obtain ⟨t', hread, ht', htotal', hclear⟩ := hrest hlt hcalm hnext ht
    exact ⟨t', hstep.trans hread, ht', htotal'.trans htotal, hclear⟩
  · have hparameters : Phrase.parameters.Text ps (x ++ y ++ z) := ⟨x, y, z, hx, ⟨hne, hy⟩, hz, rfl⟩
    exact Takes.bind (k := fun qs => appliedTo operand operator (qs.getD []))
      (fun _ _ => parameters_optional_reads hparameters _) hrest

/-! ### Every text -/

section Deciding
variable {r : List Char}

/-- Without a brace it is up to the operands. -/
theorem applied_decided_operands (operator : String) (hbrace : (ahead r).token ≠ some '{')
    (hp : ∀ n, Reads n Clear Calm Phrase.term (p n)) (hclosing : ∀ n, RefusesHere n ')' (p n))
    (hd : ∀ v, v.length < r.length → Decided Clear Opens Phrase.term p v) :
    Decided Calm (fun _ => False) (Phrase.applied operator) (fun n => applied (p n) operator) r := by
  rcases operands_decided (D := fun _ => False) hp hclosing hd with ⟨ts, x, z, rfl, hx, -⟩ | hfails
  · exact .inl ⟨_, x, z, rfl, ⟨[], ts, [], x, rfl, .inl ⟨rfl, rfl⟩, hx, rfl⟩, trivial⟩
  · refine .inr (Fails.step (w := []) (fun n s v' hn hs hahead hbefore => ?_)
      (hfails.map (Term.application operator [])) ?_)
    · rw [List.nil_append] at hbefore
      exact applied_step (p n) operator hs hbefore (by rwa [hahead])
    · rintro u ⟨ts, x, hx, hu⟩
      exact ⟨_, x, ⟨[], ts, [], x, rfl, .inl ⟨rfl, rfl⟩, hx, rfl⟩, hu⟩

/-- With a brace there are parameters, and operands after them. -/
theorem applied_decided_parameters (operator : String) (hbrace : (ahead r).token = some '{')
    (hp : ∀ n, Reads n Clear Calm Phrase.term (p n)) (hclosing : ∀ n, RefusesHere n ')' (p n))
    (hd : ∀ v, v.length < r.length → Decided Clear Opens Phrase.term p v) :
    Decided Calm (fun _ => False) (Phrase.applied operator) (fun n => applied (p n) operator) r := by
  have htext : ∀ {ps ts w x}, Phrase.parameters.Text ps w → Phrase.operands.Text ts x →
      (Phrase.applied operator).Text (.application operator ps ts) (w ++ x) :=
    fun hw hx => ⟨_, _, _, _, rfl, block_of_parameters hw, hx, rfl⟩
  rcases parameters_decided (D := fun _ => False) r with ⟨ps, w, v, rfl, hw, -⟩ | hfails
  · have hdv : ∀ v', v'.length < v.length → Decided Clear Opens Phrase.term p v' := by
      intro v' hv'
      refine hd v' (Nat.lt_of_lt_of_le hv' ?_)
      rw [List.length_append]
      exact Nat.le_add_left _ _
    rcases operands_decided (D := fun _ => False) hp hclosing hdv with
      ⟨ts, x, z, rfl, hx, -⟩ | hfails
    · exact .inl ⟨_, w ++ x, z, (List.append_assoc ..).symm, htext hw hx, trivial⟩
    · refine .inr (Fails.after (k := fun n qs => appliedTo (p n) operator (qs.getD []))
        (fun n => parameters_optional_reads hw _) (hfails.map (Term.application operator ps)) ?_)
      rintro u ⟨ts, x, hx, hu⟩
      exact ⟨_, w ++ x, htext hw hx, (List.prefix_append_right_inj w).mpr hu⟩
  · have hoptional : Fails Calm (· = some '{') _ (fun _ => parameters.optional) r :=
      (hfails.map some).orElse_pure none (fun _ h => h.elim) hbrace
    refine .inr (hoptional.bind (k := fun n qs => appliedTo (p n) operator (qs.getD [])) ?_
      fun n qs => ?_)
    · rintro u ⟨ps, w, hw, hu⟩
      exact ⟨_, w ++ ['(', ')'], htext hw operands_text, hu.trans (List.prefix_append w _)⟩
    · refine keeps_enclosed _ _ ?_
      rintro _ rfl
      decide

theorem applied_decided (operator : String) (hp : ∀ n, Reads n Clear Calm Phrase.term (p n))
    (hclosing : ∀ n, RefusesHere n ')' (p n))
    (hd : ∀ v, v.length < r.length → Decided Clear Opens Phrase.term p v) :
    Decided Calm (fun _ => False) (Phrase.applied operator) (fun n => applied (p n) operator) r := by
  by_cases hbrace : (ahead r).token = some '{'
  · exact applied_decided_parameters operator hbrace hp hclosing hd
  · exact applied_decided_operands operator hbrace hp hclosing hd

end Deciding

end Both

end ConstraintNet.Reading
