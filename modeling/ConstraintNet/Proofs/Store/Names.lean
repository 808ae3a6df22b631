import ConstraintNet.Proofs.Store.Agreement
import Mathlib.Data.List.Nodup

/-! The names of a network.

Adding a name that is there gives the variable that has it, so in a network no two
variables have one name, whatever was done to it (`Network.reachable_unambiguous`).
With an index that gives the first variable of a name this makes the index exact:
it gives the variable that has the name, and nothing for any other
(`Network.Unambiguous.find?_eq_some_iff`).

Every variable is either one that has a name or one that was introduced, so the
lists of the two kinds share the numbers among them, in order, as long as no number
is used twice (`Network.count_kinds`). All of it holds of any network that is built
from nothing (`Network.reachable_exact`). -/
namespace ConstraintNet

/-! ### Properties of stores -/

section
variable {σ : Type} [Store σ] {P : σ → Prop}

/-- What registrations keep is a relation of a store to itself that they keep. -/
theorem Store.Simulation.keeps
    (adds : ∀ s, P s → ∀ x : Variable, x.name? = none → P (Store.addVariable s x).store)
    (posts : ∀ s, P s → ∀ c, P (Store.addConstraint s c).store)
    (interns : ∀ s, P s → ∀ name, P (Store.intern s name).store) :
    Store.Simulation fun s t : σ => s = t ∧ P s where
  adds := by
    rintro s _ ⟨rfl, h⟩ x hx
    exact ⟨rfl, rfl, adds s h x hx⟩
  posts := by
    rintro s _ ⟨rfl, h⟩ c
    exact ⟨rfl, rfl, posts s h c⟩
  interns := by
    rintro s _ ⟨rfl, h⟩ name
    exact ⟨rfl, rfl, interns s h name⟩

end

/-! ### Numbers of entries

The entries of a kind are told by their numbers, in the order in which they stand. -/

section
variable {α ι : Type} {entries : List α} {p : α → Bool} {number : Nat → ι} {place : ι → Nat}

theorem mem_numbers (hnumber : ∀ i, i < entries.length → place (number i) = i)
    (hplace : ∀ j, number (place j) = j) {j : ι} :
    j ∈ (entries.zipIdx.filter fun x => p x.1).map (fun x => number x.2) ↔
      ∃ x, entries[place j]? = some x ∧ p x = true := by
  simp only [List.mem_map, List.mem_filter, Prod.exists, List.mem_zipIdx_iff_getElem?]
  constructor
  · rintro ⟨x, i, ⟨hi, hx⟩, rfl⟩
    refine ⟨x, ?_, hx⟩
    rw [hnumber i (List.getElem?_eq_some_iff.mp hi).1]
    exact hi
  · rintro ⟨x, hj, hx⟩
    exact ⟨x, place j, ⟨hj, hx⟩, hplace j⟩

theorem pairwise_numbers (hnumber : ∀ i, i < entries.length → place (number i) = i) :
    ((entries.zipIdx.filter fun x => p x.1).map fun x => number x.2).Pairwise
      fun j k => place j < place k := by
  have hplaces : (entries.zipIdx.map Prod.snd).Pairwise (· < ·) := by
    rw [List.zipIdx_map_snd]
    exact List.pairwise_lt_range'
  refine List.pairwise_map.mpr (((List.pairwise_map.mp hplaces).filter _).imp_of_mem ?_)
  intro x y hx hy hlt
  have hback : ∀ z ∈ entries.zipIdx.filter (fun z => p z.1), place (number z.2) = z.2 := by
    intro z hz
    have hz' := List.mem_zipIdx_iff_getElem?.mp (List.mem_filter.mp hz).1
    exact hnumber z.2 (List.getElem?_eq_some_iff.mp hz').1
  rwa [hback x hx, hback y hy]

/-- Where entries are of a kind in the same places, the same numbers are told. -/
theorem numbers_congr {β : Type} {q : β → Bool} {others : List β}
    (h : entries.map p = others.map q) (k : Nat) :
    ((entries.zipIdx k).filter fun x => p x.1).map (fun x => number x.2) =
      ((others.zipIdx k).filter fun x => q x.1).map fun x => number x.2 := by
  induction entries generalizing others k with
  | nil =>
    obtain rfl := List.map_eq_nil_iff.mp h.symm
    rfl
  | cons a entries ih =>
    obtain ⟨b, rest, rfl, hb, hrest⟩ := List.map_eq_cons_iff.mp h.symm
    rw [List.zipIdx_cons, List.zipIdx_cons, List.filter_cons, List.filter_cons, ← hb]
    cases q b with
    | true => rw [if_pos rfl, if_pos rfl, List.map_cons, List.map_cons, ih hrest.symm]
    | false => exact ih hrest.symm (k + 1)

end

namespace Network
variable {n : Network} {name : String} {v w : VariableId} {p : Variable → Bool}

/-! ### Names -/

/-- No name is the name of two variables. -/
def Distinct (n : Network) : Prop :=
  ∀ (i j : Nat) name, n.vars[i]? = some (.named name) → n.vars[j]? = some (.named name) → i = j

/-- A name that is not found is the name of no variable. -/
theorem Indexed.ne_named (h : n.Indexed) (hname : n.find? name = none) (i : Nat) :
    n.vars[i]? ≠ some (.named name) := by
  intro hi
  have hnone := Option.map_eq_none_iff.mp ((h name).symm.trans hname)
  have hx := Array.findIdx?_eq_none_iff.mp hnone _ (Array.mem_of_getElem? hi)
  simp [Variable.name?] at hx

/-- A variable without a name adds none. -/
theorem Distinct.push (h : n.Distinct) {x : Variable} (hx : x.name? = none) :
    Distinct {n with vars := n.vars.push x} := by
  have hold : ∀ (i : Nat) name, (n.vars.push x)[i]? = some (.named name) →
      n.vars[i]? = some (.named name) := by
    intro i name hi
    rw [Array.getElem?_push] at hi
    split at hi
    · cases Option.some.inj hi
      cases hx
    · exact hi
  exact fun i j name hi hj => h i j name (hold i name hi) (hold j name hj)

theorem Distinct.insert (h : n.Distinct) (hindexed : n.Indexed) (hname : n.find? name = none) :
    (n.insert name).Distinct := by
  intro i j other hi hj
  simp only [Network.insert, Array.getElem?_push] at hi hj
  split at hi <;> split at hj
  · next hi' hj' => rw [hi', hj']
  · cases hi
    exact absurd hj (hindexed.ne_named hname j)
  · cases hj
    exact absurd hi (hindexed.ne_named hname i)
  · exact h i j other hi hj

/-- The index gives the first variable of each name, and there is no second. -/
structure Unambiguous (n : Network) : Prop where
  indexed : n.Indexed
  distinct : n.Distinct

theorem Unambiguous.insert (h : n.Unambiguous) (hname : n.find? name = none) :
    (n.insert name).Unambiguous :=
  ⟨h.indexed.insert hname, h.distinct.insert h.indexed hname⟩

theorem Unambiguous.addVariable (h : n.Unambiguous) (x : Variable) :
    (n.addVariable x).store.Unambiguous := by
  cases x with
  | named name =>
    cases hfind : n.find? name with
    | some v =>
      simp only [Network.addVariable, hfind]
      exact h
    | none =>
      simp only [Network.addVariable, hfind]
      exact h.insert hfind
  | auxiliary => exact ⟨h.indexed.push rfl, h.distinct.push rfl⟩
  | constant value => exact ⟨h.indexed.push rfl, h.distinct.push rfl⟩

theorem Unambiguous.intern (h : n.Unambiguous) (name : String) :
    (n.intern name).store.Unambiguous := by
  cases hfind : n.find? name with
  | some v =>
    simp only [Network.intern, hfind]
    exact h
  | none =>
    simp only [Network.intern, hfind]
    exact h.insert hfind

theorem unambiguous_simulation : Store.Simulation fun n m : Network => n = m ∧ n.Unambiguous :=
  .keeps (fun _ h x _ => h.addVariable x) (fun _ h _ => ⟨h.indexed, h.distinct⟩)
    fun _ h name => h.intern name

theorem Unambiguous.actAll (h : n.Unambiguous) (actions : List Action) :
    (Store.actAll n actions).Unambiguous := by
  induction actions generalizing n with
  | nil => exact h
  | cons a actions ih =>
    refine ih (unambiguous_simulation.act ⟨rfl, h⟩ a ?_).2
    rintro name rfl
    exact ⟨rfl, h.addVariable (.named name)⟩

/-- Whatever is done to an empty network, its names are unambiguous. -/
theorem reachable_unambiguous (h : Store.Reachable n) : n.Unambiguous := by
  obtain ⟨actions, rfl⟩ := h
  have hempty : Unambiguous {} := ⟨indexed_empty, fun i j name hi => by simp at hi⟩
  exact hempty.actAll actions

theorem Unambiguous.find?_eq_some_iff (h : n.Unambiguous) (hsize : n.vars.size ≤ UInt32.size) :
    n.find? name = some v ↔ n.variableAt? v = some (.named name) := by
  constructor
  · intro hv
    exact getElem?_of_firstNamed hsize ((h.indexed name).symm.trans hv)
  · intro hv
    cases hfind : n.find? name with
    | none => exact absurd hv (h.indexed.ne_named hfind _)
    | some w =>
      have hw := getElem?_of_firstNamed hsize ((h.indexed name).symm.trans hfind)
      have hplace := h.distinct _ _ name hw hv
      rw [← VariableId.ofNat_toNat w, hplace, VariableId.ofNat_toNat]

/-! ### Kinds -/

theorem mem_variablesThat (hsize : n.vars.size ≤ UInt32.size) :
    v ∈ n.variablesThat p ↔ ∃ x, n.variableAt? v = some x ∧ p x = true := by
  have hnumber : ∀ i, i < n.vars.toList.length → (VariableId.ofNat i).toNat = i :=
    fun i hi => VariableId.toNat_ofNat (Nat.lt_of_lt_of_le hi hsize)
  rw [variablesThat, mem_numbers hnumber VariableId.ofNat_toNat, Array.getElem?_toList]
  rfl

/-- The variables of a kind are listed in order. -/
theorem pairwise_variablesThat (hsize : n.vars.size ≤ UInt32.size) :
    (n.variablesThat p).Pairwise fun v w => v.toNat < w.toNat :=
  pairwise_numbers fun _ hi => VariableId.toNat_ofNat (Nat.lt_of_lt_of_le hi hsize)

theorem count_variablesThat (hsize : n.vars.size ≤ UInt32.size) (v : VariableId) :
    (n.variablesThat p).count v = if ∃ x, n.variableAt? v = some x ∧ p x = true then 1 else 0 := by
  have hnodup : (n.variablesThat p).Nodup :=
    (pairwise_variablesThat hsize).imp fun hlt heq => Nat.ne_of_lt hlt (congrArg _ heq)
  rw [hnodup.count]
  simp only [mem_variablesThat hsize]

/-- A variable is listed under one of the two kinds, and once. -/
theorem count_kinds (hsize : n.vars.size ≤ UInt32.size) (v : VariableId) :
    (n.namedVariables ++ n.auxiliaryVariables).count v = if v.toNat < n.vars.size then 1 else 0 := by
  rw [List.count_append, namedVariables, auxiliaryVariables, count_variablesThat hsize,
    count_variablesThat hsize]
  by_cases hv : v.toNat < n.vars.size
  · have hx : n.variableAt? v = some n.vars[v.toNat] := Array.getElem?_eq_getElem hv
    cases hname : n.vars[v.toNat].name? <;> simp [hx, hv, hname, Variable.isAuxiliary]
  · have hx : n.variableAt? v = none := Array.getElem?_eq_none (Nat.le_of_not_lt hv)
    simp [hx, hv]

/-! ### Exact networks -/

structure Exact (n : Network) : Prop where
  /-- The index gives the variable that has the name. -/
  find : ∀ name v, n.find? name = some v ↔ n.variableAt? v = some (.named name)
  unique : ∀ name v w, n.variableAt? v = some (.named name) → n.variableAt? w = some (.named name) →
    v = w
  /-- A variable has a name and no value and is not auxiliary, or has none and is. -/
  kinds : ∀ v x, n.variableAt? v = some x →
    (∃ name, x.name? = some name) ∧ x.value? = none ∧ x.isAuxiliary = false ∨
      x.name? = none ∧ x.isAuxiliary = true
  named : ∀ v, v ∈ n.namedVariables ↔ ∃ name, n.find? name = some v
  /-- Each variable is listed once, under one of the two kinds. -/
  listed : ∀ v : VariableId,
    (n.namedVariables ++ n.auxiliaryVariables).count v = if v.toNat < n.vars.size then 1 else 0
  namedInOrder : n.namedVariables.Pairwise fun v w => v.toNat < w.toNat
  auxiliaryInOrder : n.auxiliaryVariables.Pairwise fun v w => v.toNat < w.toNat
  /-- A name that is there is not registered again. -/
  interned : ∀ name v, n.find? name = some v → (n.intern name).id = v ∧ (n.intern name).store = n
  added : ∀ name v, n.find? name = some v →
    (n.addVariable (.named name)).id = v ∧ (n.addVariable (.named name)).store = n

/-- **The names of a network are exact**, whatever was done to it since it was empty. -/
theorem reachable_exact (h : Store.Reachable n) (hsize : n.vars.size ≤ UInt32.size) : n.Exact := by
  have hunambiguous := reachable_unambiguous h
  have hfind : ∀ name v, n.find? name = some v ↔ n.variableAt? v = some (.named name) :=
    fun name v => hunambiguous.find?_eq_some_iff hsize
  refine ⟨hfind, ?unique, ?kinds, ?named, count_kinds hsize, pairwise_variablesThat hsize,
    pairwise_variablesThat hsize, ?interned, ?added⟩
  case unique =>
    intro name v w hv hw
    have hv' := (hfind name v).mpr hv
    rw [(hfind name w).mpr hw] at hv'
    exact (Option.some.inj hv').symm
  case kinds =>
    intro v x _
    cases x with
    | named name => exact .inl ⟨⟨name, rfl⟩, rfl, rfl⟩
    | auxiliary => exact .inr ⟨rfl, rfl⟩
    | constant value => exact .inr ⟨rfl, rfl⟩
  case named =>
    intro v
    rw [namedVariables, mem_variablesThat hsize]
    constructor
    · rintro ⟨x, hv, hx⟩
      cases x with
      | named name => exact ⟨name, (hfind name v).mpr hv⟩
      | auxiliary => cases hx
      | constant value => cases hx
    · rintro ⟨name, hv⟩
      exact ⟨.named name, (hfind name v).mp hv, rfl⟩
  case interned =>
    intro name v hv
    simp only [intern, hv, and_self]
  case added =>
    intro name v hv
    simp only [addVariable, hv, and_self]

/-- A network to which `x` was added twice by hand, and then came up in texts. -/
def doubled : Network :=
  Store.actAll {} [.addVariable (.named "x"), .addVariable (.constant 3), .addVariable (.named "x"),
    .operate (.session .perValue [.compile "neq(abs(x),3)", .compile "neq(x"]),
    .addConstraint (.general "any" [] [.ofNat 9]), .operate (.post "lt(y,x)")]

theorem reachable_exact_doubled :
    Store.Reachable doubled ∧ doubled.vars.size ≤ UInt32.size ∧ doubled.Exact := by
  have hreachable : Store.Reachable doubled := ⟨_, rfl⟩
  have hsize : doubled.vars.size ≤ UInt32.size := by decide +kernel
  exact ⟨hreachable, hsize, reachable_exact hreachable hsize⟩

end Network

end ConstraintNet
