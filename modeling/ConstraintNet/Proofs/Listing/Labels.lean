import ConstraintNet.Proofs.Listing.Posted
import ConstraintNet.Proofs.Shape.Layers

/-! What labels stand for.

A listing writes labels for variables, and constants of one value have one label. Nothing
else is left open as long as no name looks like the number of a result: a label stands for
one variable, or for constants of one value (`Network.Labelled.matches_of_label_eq`). So if
two networks have one listing, their constraints resemble each other
(`Network.Labelled.resembles`).

Networks that texts were posted to are of that kind if the names in the texts are
(`Network.Posted.labelled`). -/
namespace ConstraintNet
open Grammar (IsWord)
open Listing (forall₂_of_map_eq not_isNumeral_of_isWord)

/-! ### Names in texts -/

/-- The name is an underscore with digits behind it, as numbers of results are. -/
def isUnderscored (name : String) : Bool :=
  match name.toList with
  | '_' :: d :: ds => (d :: ds).all Char.isDigit
  | _ => false

def Term.name? : Term → Option String
  | .name text => some text
  | _ => none

/-- The names that a text brings into a network. -/
def namesIn (text : String) : List String :=
  match stated text with
  | .ok t => t.subterms.filterMap Term.name?
  | .error _ => []

theorem isUnderscored_text (v : VariableId) : isUnderscored v.text = true := by
  rw [isUnderscored, VariableId.toList_text]
  cases hds : Nat.toDigits 10 v.toNat with
  | nil => exact absurd hds Nat.toDigits_ne_nil
  | cons d ds =>
    refine List.all_eq_true.mpr fun c hc => Text.Decimal.isDigit_toDigits v.toNat c ?_
    rwa [hds]

namespace Network
variable {n m : Network} {us : List Term}

/-! ### Labels -/

/-- The same variable, or constants of one value. -/
def Matches (n : Network) (v w : VariableId) : Prop :=
  v = w ∨ ∃ value, n.vars[v.toNat]? = some (.constant value) ∧
    n.vars[w.toNat]? = some (.constant value)

theorem Matches.eq {v w : VariableId} {x : Variable} (h : n.Matches v w)
    (hx : n.vars[v.toNat]? = some x) (hvalue : x.value? = none) : v = w := by
  rcases h with h | ⟨value, hv, -⟩
  · exact h
  · rw [hv] at hx
    cases hx
    cases hvalue

theorem Matches.constant {v w : VariableId} {value : Int64} (h : n.Matches v w)
    (hx : n.vars[v.toNat]? = some (.constant value)) :
    n.vars[w.toNat]? = some (.constant value) := by
  rcases h with rfl | ⟨other, hv, hw⟩
  · exact hx
  · rw [hx] at hv
    cases hv
    exact hw

/-- Labels are clear: names are words, none is the label of a result, and none is given
twice; and constraints are over what is registered. -/
structure Labelled (n : Network) : Prop where
  legible : n.Legible
  plain : ∀ name, .named name ∈ n.vars → isUnderscored name = false
  distinct : n.Distinct
  result : ∀ c ∈ n.constraints, ∀ v, c.result? = some v → n.vars[v.toNat]? = some .auxiliary
  operand : ∀ c ∈ n.constraints, ∀ v ∈ c.operands, v.toNat < n.vars.size

/-- A label says what the variable is, and of a result which one it is. -/
theorem eq_of_labelOf_eq {v w : VariableId} {x y : Variable}
    (hx : ∀ name, x = .named name → IsWord name.toList ∧ isUnderscored name = false)
    (hy : ∀ name, y = .named name → IsWord name.toList ∧ isUnderscored name = false)
    (h : labelOf v x = labelOf w y) : x = y ∧ (x = .auxiliary → v = w) := by
  have hresult : ∀ {name : String} {v : VariableId}, isUnderscored name = false →
      name ≠ v.text := by
    rintro name v hname rfl
    rw [isUnderscored_text] at hname
    cases hname
  have hnumeral : ∀ {z : String} {value : Int64}, IsWord z.toList →
      z ≠ Text.Decimal.text value.toInt := by
    rintro z value hz rfl
    refine not_isNumeral_of_isWord hz ?_
    rw [Text.Decimal.text, String.toList_ofList]
    exact Text.Decimal.isNumeral_chars _
  cases x with
  | named name =>
    obtain ⟨hword, hplain⟩ := hx name rfl
    cases y with
    | named other => exact ⟨congrArg Variable.named h, Variable.noConfusion⟩
    | auxiliary => exact absurd h (hresult hplain)
    | constant value => exact absurd h (hnumeral hword)
  | auxiliary =>
    cases y with
    | named other => exact absurd h.symm (hresult (hy other rfl).2)
    | auxiliary => exact ⟨rfl, fun _ => VariableId.text_inj h⟩
    | constant value => exact absurd h (hnumeral v.isWord_text)
  | constant value =>
    cases y with
    | named other => exact absurd h.symm (hnumeral (hy other rfl).1)
    | auxiliary => exact absurd h.symm (hnumeral w.isWord_text)
    | constant other =>
      have hvalue := Text.Decimal.chars_inj (String.ofList_injective h)
      exact ⟨congrArg Variable.constant (Int64.toInt_inj.mp hvalue), Variable.noConfusion⟩

/-- What has one label is one variable, or has one value. -/
theorem Labelled.matches_of_label_eq (hn : n.Labelled) {v w : VariableId}
    (hv : v.toNat < n.vars.size) (hw : w.toNat < n.vars.size) (h : n.label v = n.label w) :
    n.Matches v w := by
  have hx := Array.getElem?_eq_getElem hv
  have hy := Array.getElem?_eq_getElem hw
  have hnames : ∀ {u : VariableId} {x : Variable}, n.vars[u.toNat]? = some x →
      ∀ name, x = .named name → IsWord name.toList ∧ isUnderscored name = false := by
    rintro u x hu name rfl
    have hmem := Array.mem_of_getElem? hu
    exact ⟨hn.legible.names name hmem, hn.plain name hmem⟩
  rw [label_eq hx, label_eq hy] at h
  obtain ⟨heq, hresult⟩ := eq_of_labelOf_eq (hnames hx) (hnames hy) h
  rw [← heq] at hy
  generalize n.vars[v.toNat] = x at hx hy hresult
  cases x with
  | named name =>
    have hplace := hn.distinct _ _ name hx hy
    exact .inl (by rw [← VariableId.ofNat_toNat v, hplace, VariableId.ofNat_toNat])
  | auxiliary => exact .inl (hresult rfl)
  | constant value => exact .inr ⟨value, hx, hy⟩

/-! ### Constraints -/

/-- The same constraint, but for which constants of a value it is over. -/
structure Resembles (n : Network) (c d : Constraint) : Prop where
  result : c.result? = d.result?
  operator : c.operator = d.operator
  parameters : c.parameters = d.parameters
  operands : List.Forall₂ n.Matches c.operands d.operands

theorem label_congr (h : n.vars = m.vars) : m.label = n.label := by
  funext v
  rw [label, label, variableAt?, variableAt?, h]

theorem Labelled.resembles (hn : n.Labelled) (hm : m.Labelled) (hvars : n.vars = m.vars)
    {c d : Constraint} (h : Listed n m c d) : n.Resembles c d := by
  obtain ⟨hc, hd, hresult, hoperator, hparameters, hoperands⟩ := h
  rw [label_congr hvars] at hresult hoperands
  refine ⟨?_, hoperator, hparameters, ?_⟩
  · cases hv : c.result? with
    | none =>
      rw [hv, Option.map_none] at hresult
      exact (Option.map_eq_none_iff.mp hresult.symm).symm
    | some v =>
      rw [hv, Option.map_some] at hresult
      obtain ⟨w, hw, hlabel⟩ := Option.map_eq_some_iff.mp hresult.symm
      have hx := hn.result c hc v hv
      have hy := hm.result d hd w hw
      rw [← hvars] at hy
      have hlt := fun {u : VariableId} (hu : n.vars[u.toNat]? = some .auxiliary) =>
        (Array.getElem?_eq_some_iff.mp hu).1
      rw [hw, (hn.matches_of_label_eq (hlt hx) (hlt hy) hlabel.symm).eq hx rfl]
  · refine forall₂_of_map_eq hoperands fun v hv w hw hlabel => ?_
    refine hn.matches_of_label_eq (hn.operand c hc v hv) ?_ hlabel
    rw [hvars]
    exact hm.operand d hd w hw

/-! ### Posted networks -/

/-- What goes for the names in texts goes for those in the terms that they state. -/
theorem forall_names {texts : List String} {P : String → Prop}
    (h : ∀ text ∈ texts, ∀ name ∈ namesIn text, P name) :
    ∀ t ∈ texts.filterMap (fun text => (stated text).toOption), ∀ name,
      .name name ∈ t.subterms → P name := by
  intro t ht name hname
  obtain ⟨text, htext, hstated⟩ := List.mem_filterMap.mp ht
  refine h text htext name ?_
  rw [namesIn]
  cases hs : stated text with
  | error e =>
    rw [hs] at hstated
    cases hstated
  | ok u =>
    rw [hs] at hstated
    cases hstated
    exact List.mem_filterMap.mpr ⟨.name name, hname, rfl⟩

/-- In a network that texts were posted to, labels are clear if no name in a text looks like the
number of a result. -/
theorem Posted.labelled (h : Posted n us) (hn : Store.Numbered n)
    (hnames : ∀ t ∈ us, ∀ name, .name name ∈ t.subterms → isUnderscored name = false) :
    n.Labelled := by
  obtain ⟨operations, hoperations⟩ := h.exists_operations
  have haccounted := Store.operateAll_empty_accounted (σ := Network) operations
    (by rw [hoperations]; exact hn.vars)
  rw [hoperations] at haccounted
  refine ⟨h.legible hn, ?_, (reachable_unambiguous h.reachable).distinct, ?_, ?_⟩
  · intro name hname
    obtain ⟨t, ht, hmem⟩ := (h.drawn hn).names name hname
    exact hnames t ht name hmem
  · intro c hc v hv
    refine haccounted.result v (List.mem_append_left _ (List.mem_flatMap.mpr ?_))
    exact ⟨c, Array.mem_toList_iff.mpr hc, Option.mem_toList.mpr hv⟩
  · intro c hc v hv
    refine haccounted.operand v (List.mem_append_left _ (List.mem_flatMap.mpr ?_))
    exact ⟨c, Array.mem_toList_iff.mpr hc, hv⟩

end Network

end ConstraintNet
