import ConstraintNet.Network.Listing
import ConstraintNet.Proofs.Listing.Apart

/-! What a listing says.

A listing has a line for each variable and one for each constraint, and each can be told
from all others like it. The line of a variable says what the variable is, and the line of
a constraint all but the numbers of its variables, for which there are labels
(`Network.Listed`). So networks with one listing have the same variables, and constraints
that look the same (`Network.said_of_listing_eq`), provided that their names and operators
are words (`Network.Legible`). -/
namespace ConstraintNet
open Grammar (IsWord)
open Listing

/-! ### Labels -/

theorem VariableId.toList_text (v : VariableId) : v.text.toList = '_' :: Nat.toDigits 10 v.toNat := by
  rw [VariableId.text, String.toList_append, Text.Decimal.text, String.toList_ofList]
  simp [Text.Decimal.chars]

theorem VariableId.isWord_text (v : VariableId) : IsWord v.text.toList := by
  refine ⟨'_', Nat.toDigits 10 v.toNat, ?_, .inr rfl, fun d hd => .inl ?_⟩
  · exact v.toList_text
  · rw [Char.isAlphanum, Text.Decimal.isDigit_toDigits _ d hd, Bool.or_true]

theorem VariableId.text_inj {v w : VariableId} (h : v.text = w.text) : v = w := by
  have hdigits := congrArg String.toList h
  rw [toList_text, toList_text] at hdigits
  have hplace := congrArg Text.Decimal.magnitude (List.cons.inj hdigits).2
  rw [Text.Decimal.magnitude_toDigits, Text.Decimal.magnitude_toDigits] at hplace
  rw [← ofNat_toNat v, hplace, ofNat_toNat]

namespace Network

/-- The label of a variable with a number. -/
def labelOf (v : VariableId) : Variable → String
  | .named name => name
  | .auxiliary => v.text
  | .constant value => Text.Decimal.text value.toInt

theorem label_eq {n : Network} {v : VariableId} {x : Variable} (h : n.vars[v.toNat]? = some x) :
    n.label v = labelOf v x := by
  have hx : n.variableAt? v = some x := h
  rw [label, hx]
  cases x <;> rfl

/-- The names and operators of the network are words. -/
structure Legible (n : Network) : Prop where
  names : ∀ name, .named name ∈ n.vars → IsWord name.toList
  operators : ∀ c ∈ n.constraints, IsWord c.operator.toList
  parameters : ∀ c ∈ n.constraints, ∀ p ∈ c.parameters, p.Spelled

theorem Legible.solid_label {n : Network} (h : n.Legible) (v : VariableId) :
    Solid (n.label v).toList := by
  cases hx : n.vars[v.toNat]? with
  | none =>
    have hnone : n.variableAt? v = none := hx
    rw [label, hnone]
    exact solid_of_isWord v.isWord_text
  | some x =>
    rw [label_eq hx]
    cases x with
    | named name => exact solid_of_isWord (h.names name (Array.mem_of_getElem? hx))
    | auxiliary => exact solid_of_isWord v.isWord_text
    | constant value =>
      rw [labelOf, Text.Decimal.text, String.toList_ofList]
      exact solid_of_isNumeral (Text.Decimal.isNumeral_chars _)

theorem Legible.solid_labels {n : Network} (h : n.Legible) (vs : List VariableId) :
    ∀ x ∈ vs.map (fun v => (n.label v).toList), Solid x := by
  intro x hx
  obtain ⟨v, -, rfl⟩ := List.mem_map.mp hx
  exact h.solid_label v

/-! ### Lines -/

/-- The line of a variable, up to its end. -/
def variableBody (n : Network) (x : Variable × Nat) : List Char :=
  ' ' :: ' ' :: ((n.label (.ofNat x.2)).toList ++ (remark x.1).toList)

/-- The line of a constraint from the operator on, up to its end. -/
def callBody (n : Network) (c : Constraint) : List Char :=
  c.operator.toList ++ ((parameterBlock c.parameters).toList ++
    '(' :: ([',', ' '].intercalate (c.operands.map fun v => (n.label v).toList) ++ [')']))

/-- The line of a constraint, up to its end. -/
def constraintBody (n : Network) (c : Constraint) : List Char :=
  ' ' :: ' ' :: ((c.result?.elim [] fun v => (n.label v).toList ++ [' ', '=', ' ']) ++ n.callBody c)

theorem toList_variableLine (n : Network) (x : Variable × Nat) :
    (n.variableLine x).toList = n.variableBody x ++ ['\n'] := by
  simp [variableLine, variableBody]

theorem toList_constraintLine (n : Network) (c : Constraint) :
    (n.constraintLine c).toList = n.constraintBody c ++ ['\n'] := by
  cases c with
  | functional result operator parameters operands =>
    simp [constraintLine, constraintBody, callBody, Constraint.result?, Function.comp_def]
  | general operator parameters operands =>
    simp [constraintLine, constraintBody, callBody, Constraint.result?, Function.comp_def]

/-- The lines of the listing. -/
def lines (n : Network) : List (List Char) :=
  "variables:".toList :: (n.vars.toList.zipIdx.map n.variableBody ++
    "constraints:".toList :: n.constraints.toList.map n.constraintBody)

theorem toList_listing (n : Network) : n.listing.toList = n.lines.flatMap (· ++ ['\n']) := by
  simp [listing, lines, String.toList_join, List.flatMap_map, toList_variableLine,
    toList_constraintLine]

/-! ### Variables -/

variable {n m : Network}

theorem isSolid_head_remark (x : Variable) :
    ∀ c, (remark x).toList.head? = some c → isSolid c = false := by
  intro c hc
  have hblank : ' ' = c := by
    cases x with
    | named => simp [remark] at hc
    | auxiliary => simpa [remark] using hc
    | constant => simpa [remark] using hc
  rw [← hblank]
  decide

/-- The line of a variable says what it is. -/
theorem variableBody_inj (hn : n.Legible) (hm : m.Legible) {i : Nat} {x y : Variable}
    (hi : i < UInt32.size) (hx : n.vars[i]? = some x) (hy : m.vars[i]? = some y)
    (h : n.variableBody (x, i) = m.variableBody (y, i)) : x = y := by
  have hplace := VariableId.toNat_ofNat hi
  obtain ⟨hlabel, hremark⟩ := apart (hn.solid_label _).all (hm.solid_label _).all
    (isSolid_head_remark x) (isSolid_head_remark y) (List.cons.inj (List.cons.inj h).2).2
  rw [String.toList_inj] at hremark
  rw [label_eq (v := .ofNat i) (hplace.symm ▸ hx), label_eq (v := .ofNat i) (hplace.symm ▸ hy),
    String.toList_inj] at hlabel
  cases x with
  | named name =>
    cases y with
    | named other => exact congrArg Variable.named hlabel
    | auxiliary => simp [remark] at hremark
    | constant => simp [remark] at hremark
  | auxiliary =>
    cases y with
    | named => simp [remark] at hremark
    | auxiliary => rfl
    | constant => simp [remark] at hremark
  | constant value =>
    cases y with
    | named => simp [remark] at hremark
    | auxiliary => simp [remark] at hremark
    | constant other =>
      have hchars := Text.Decimal.chars_inj (String.ofList_injective hlabel)
      exact congrArg Variable.constant (Int64.toInt_inj.mp hchars)

/-! ### Constraints -/

/-- Constraints of which the listings of `n` and `m` say the same. -/
structure Listed (n m : Network) (c d : Constraint) : Prop where
  mem : c ∈ n.constraints
  mem' : d ∈ m.constraints
  result : c.result?.map n.label = d.result?.map m.label
  operator : c.operator = d.operator
  parameters : c.parameters = d.parameters
  operands : c.operands.map n.label = d.operands.map m.label

theorem toList_parameterBlock (p : Parameter) (ps : List Parameter) :
    (parameterBlock (p :: ps)).toList =
      '\x7b' :: ([',', ' '].intercalate ((p :: ps).map Parameter.chars) ++ ['\x7d']) := by
  simp [parameterBlock, Parameter.text, Function.comp_def]

/-- Behind an operator stands an opening bracket. -/
theorem head_parameterBlock (ps : List Parameter) (v : List Char) :
    ∀ c, ((parameterBlock ps).toList ++ '(' :: v).head? = some c → c = '\x7b' ∨ c = '(' := by
  intro c hc
  cases ps with
  | nil =>
    cases hc
    exact .inr rfl
  | cons p ps =>
    rw [toList_parameterBlock] at hc
    cases hc
    exact .inl rfl

theorem isSolid_head_parameterBlock (ps : List Parameter) (v : List Char) :
    ∀ c, ((parameterBlock ps).toList ++ '(' :: v).head? = some c → isSolid c = false := by
  intro c hc
  rcases head_parameterBlock ps v c hc with rfl | rfl <;> decide

/-- Parameters are told apart, up to the operands. -/
theorem parameterBlock_apart {ps qs : List Parameter} (hp : ∀ p ∈ ps, p.Spelled)
    (hq : ∀ q ∈ qs, q.Spelled) {v w : List Char}
    (h : (parameterBlock ps).toList ++ '(' :: v = (parameterBlock qs).toList ++ '(' :: w) :
    ps = qs ∧ v = w := by
  cases ps with
  | nil =>
    cases qs with
    | nil => exact ⟨rfl, (List.cons.inj h).2⟩
    | cons q qs =>
      rw [toList_parameterBlock] at h
      exact absurd (List.cons.inj h).1 (by decide)
  | cons p ps =>
    cases qs with
    | nil =>
      rw [toList_parameterBlock] at h
      exact absurd (List.cons.inj h).1 (by decide)
    | cons q qs =>
      rw [toList_parameterBlock, toList_parameterBlock, List.cons_append, List.cons_append,
        List.append_assoc, List.append_assoc] at h
      obtain ⟨hchars, hrest⟩ :=
        commas_apart (Parameter.solid_map_chars hp) (Parameter.solid_map_chars hq) (by decide)
          (by decide) (List.cons.inj h).2
      exact ⟨Parameter.map_chars_inj hp hq hchars, (List.cons.inj hrest).2⟩

/-- From the operator on, the line of a constraint says all but the numbers. -/
theorem callBody_inj (hn : n.Legible) (hm : m.Legible) {c d : Constraint} (hc : c ∈ n.constraints)
    (hd : d ∈ m.constraints) (h : n.callBody c = m.callBody d) :
    c.operator = d.operator ∧ c.parameters = d.parameters ∧
      c.operands.map n.label = d.operands.map m.label := by
  obtain ⟨hoperator, hrest⟩ := apart (solid_of_isWord (hn.operators c hc)).all
    (solid_of_isWord (hm.operators d hd)).all (isSolid_head_parameterBlock _ _)
    (isSolid_head_parameterBlock _ _) h
  obtain ⟨hparameters, hrest⟩ :=
    parameterBlock_apart (hn.parameters c hc) (hm.parameters d hd) hrest
  obtain ⟨hlabels, -⟩ :=
    commas_apart (hn.solid_labels _) (hm.solid_labels _) (by decide) (by decide) hrest
  refine ⟨String.toList_inj.mp hoperator, hparameters, ?_⟩
  refine (List.map_inj_right fun _ _ => String.toList_inj.mp).mp ?_
  rw [List.map_map, List.map_map]
  exact hlabels

/-- No call begins like a definition. -/
theorem callBody_ne (hm : m.Legible) {d : Constraint} (hd : d ∈ m.constraints) {x : List Char}
    (hx : Solid x) (v : List Char) : x ++ ' ' :: v ≠ m.callBody d := by
  have hblank : ∀ c, (' ' :: v).head? = some c → isSolid c = false := by
    rintro c ⟨⟩
    decide
  intro h
  obtain ⟨-, hrest⟩ := apart hx.all (solid_of_isWord (hm.operators d hd)).all hblank
    (isSolid_head_parameterBlock _ _) h
  rcases head_parameterBlock _ _ ' ' (congrArg List.head? hrest.symm) with hc | hc
  · exact absurd hc (by decide)
  · exact absurd hc (by decide)

/-- The line of a constraint says all but the numbers. -/
theorem constraintBody_inj (hn : n.Legible) (hm : m.Legible) {c d : Constraint}
    (hc : c ∈ n.constraints) (hd : d ∈ m.constraints)
    (h : n.constraintBody c = m.constraintBody d) : Listed n m c d := by
  have hbody := (List.cons.inj (List.cons.inj h).2).2
  cases hresult : c.result? with
  | none =>
    cases hresult' : d.result? with
    | none =>
      rw [hresult, hresult'] at hbody
      obtain ⟨hoperator, hparameters, hoperands⟩ := callBody_inj hn hm hc hd hbody
      refine ⟨hc, hd, ?_, hoperator, hparameters, hoperands⟩
      rw [hresult, hresult', Option.map_none, Option.map_none]
    | some w =>
      rw [hresult, hresult', Option.elim_some, List.append_assoc] at hbody
      exact absurd hbody.symm (callBody_ne hn hc (hm.solid_label w) _)
  | some v =>
    cases hresult' : d.result? with
    | none =>
      rw [hresult, hresult', Option.elim_some, List.append_assoc] at hbody
      exact absurd hbody (callBody_ne hm hd (hn.solid_label v) _)
    | some w =>
      rw [hresult, hresult', Option.elim_some, Option.elim_some, List.append_assoc,
        List.append_assoc] at hbody
      have hblank : ∀ r : List Char, ∀ e, ([' ', '=', ' '] ++ r).head? = some e →
          isSolid e = false := by
        rintro r e ⟨⟩
        decide
      obtain ⟨hlabel, hcall⟩ := apart (hn.solid_label v).all (hm.solid_label w).all (hblank _)
        (hblank _) hbody
      obtain ⟨hoperator, hparameters, hoperands⟩ :=
        callBody_inj hn hm hc hd (List.append_cancel_left hcall)
      refine ⟨hc, hd, ?_, hoperator, hparameters, hoperands⟩
      rw [hresult, hresult', Option.map_some, Option.map_some, String.toList_inj.mp hlabel]

/-! ### Listings -/

theorem newline_notMem_variableBody (hn : n.Legible) (x : Variable × Nat) :
    '\n' ∉ n.variableBody x := by
  have hremark : '\n' ∉ (remark x.1).toList := by
    cases x.1 <;> simp [remark]
  simp [variableBody, (hn.solid_label _).newline_notMem, hremark]

theorem newline_notMem_constraintBody (hn : n.Legible) {c : Constraint} (hc : c ∈ n.constraints) :
    '\n' ∉ n.constraintBody c := by
  have hlabel : ∀ v, '\n' ∉ (n.label v).toList := fun v => (hn.solid_label v).newline_notMem
  have hresult : '\n' ∉ c.result?.elim [] fun v => (n.label v).toList ++ [' ', '=', ' '] := by
    cases c.result? <;> simp [hlabel]
  have hoperator : '\n' ∉ c.operator.toList := (solid_of_isWord (hn.operators c hc)).newline_notMem
  have hparameters : '\n' ∉ (parameterBlock c.parameters).toList := by
    have hsolid := Parameter.solid_map_chars (hn.parameters c hc)
    cases hps : c.parameters with
    | nil => simp [parameterBlock]
    | cons p ps =>
      rw [hps] at hsolid
      rw [toList_parameterBlock]
      simpa using newline_notMem_commas hsolid
  have hoperands := newline_notMem_commas (hn.solid_labels c.operands)
  simp [constraintBody, callBody, hresult, hoperator, hparameters, hoperands]

/-- The lines of the listing are just that. -/
theorem newline_notMem_lines (hn : n.Legible) : ∀ l ∈ n.lines, '\n' ∉ l := by
  intro l hl
  rcases List.mem_cons.mp hl with rfl | hl
  · decide
  rcases List.mem_append.mp hl with hl | hl
  · obtain ⟨x, -, rfl⟩ := List.mem_map.mp hl
    exact newline_notMem_variableBody hn x
  rcases List.mem_cons.mp hl with rfl | hl
  · decide
  · obtain ⟨c, hc, rfl⟩ := List.mem_map.mp hl
    exact newline_notMem_constraintBody hn (Array.mem_toList_iff.mp hc)

/-- The listing says what the variables are, and of the constraints all but the numbers. -/
theorem said_of_listing_eq (hn : n.Legible) (hm : m.Legible) (hsize : n.vars.size ≤ UInt32.size)
    (h : n.listing = m.listing) :
    n.vars = m.vars ∧ List.Forall₂ (Listed n m) n.constraints.toList m.constraints.toList := by
  have hlines : n.lines = m.lines := by
    refine lines_apart (newline_notMem_lines hn) (newline_notMem_lines hm) ?_
    rw [← toList_listing, ← toList_listing, h]
  have hheading : ∀ k : Network, "constraints:".toList ∉ k.vars.toList.zipIdx.map k.variableBody := by
    intro k hmem
    obtain ⟨x, -, hx⟩ := List.mem_map.mp hmem
    exact absurd (Option.some.inj (congrArg List.head? hx)) (by decide)
  obtain ⟨hvars, hconstraints⟩ := apart_at (hheading n) (hheading m) (List.cons.inj hlines).2
  refine ⟨Array.ext_getElem? fun i => ?_, ?_⟩
  · have hline := congrArg (·[i]?) hvars
    simp only [List.getElem?_map, List.getElem?_zipIdx, Array.getElem?_toList, Nat.zero_add] at hline
    cases hx : n.vars[i]? with
    | none =>
      cases hy : m.vars[i]? with
      | none => rfl
      | some y => simp [hx, hy] at hline
    | some x =>
      cases hy : m.vars[i]? with
      | none => simp [hx, hy] at hline
      | some y =>
        rw [hx, hy] at hline
        have hi := (Array.getElem?_eq_some_iff.mp hx).1
        exact congrArg some (variableBody_inj hn hm (Nat.lt_of_lt_of_le hi hsize) hx hy
          (Option.some.inj hline))
  · refine forall₂_of_map_eq hconstraints fun c hc d hd hbody => ?_
    exact constraintBody_inj hn hm (Array.mem_toList_iff.mp hc) (Array.mem_toList_iff.mp hd) hbody

end Network

end ConstraintNet
