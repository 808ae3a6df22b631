import ConstraintNet.Network.Basic
import ConstraintNet.Network.Ledger

/-! Stores that keep their word.

All that a compiler sees of a store are two lists, its variables and its
constraints. A store is lawful (`LawfulStore`) when a registration puts one entry
at the end of the right list and gives the place of that entry, and when the
variable of a name is the first one that has it (`firstNamed`).

A ledger searches for names and is lawful as it stands. A network looks them up,
so it is lawful as long as its index gives what a search would find
(`Network.Indexed`); it does from the start and after every registration. -/
namespace ConstraintNet

/-- The first variable with a name. -/
def firstNamed (vars : Array Variable) (name : String) : Option VariableId :=
  (vars.findIdx? fun x => x.name? == some name).map .ofNat

theorem firstNamed_push (vars : Array Variable) (x : Variable) (name : String) :
    firstNamed (vars.push x) name = (firstNamed vars name).or
      (if x.name? = some name then some (.ofNat vars.size) else none) := by
  rw [firstNamed, Array.findIdx?_push, firstNamed]
  cases vars.findIdx? fun x => x.name? == some name with
  | some i => rfl
  | none =>
    by_cases hx : x.name? = some name
    · simp [hx]
    · simp [hx]

/-- A name that is found is the name of the variable it is found at. -/
theorem getElem?_of_firstNamed {vars : Array Variable} {name : String} {v : VariableId}
    (hsize : vars.size ≤ UInt32.size) (h : firstNamed vars name = some v) :
    vars[v.toNat]? = some (.named name) := by
  obtain ⟨i, hi, rfl⟩ := Option.map_eq_some_iff.mp h
  obtain ⟨hlt, hname, _⟩ := Array.findIdx?_eq_some_iff_getElem.mp hi
  rw [VariableId.toNat_ofNat (by omega), Array.getElem?_eq_getElem hlt]
  generalize vars[i] = x at hname
  cases x with
  | named other =>
    have heq : other = name := by simpa [Variable.name?] using hname
    rw [heq]
  | auxiliary => cases hname
  | constant => cases hname

section Laws
variable {σ : Type} [Store σ]

/-- A registration that puts a variable at the end. -/
structure Store.Adds (s : σ) (x : Variable) (r : Registered σ VariableId) : Prop where
  id : r.id = .ofNat (Store.vars s).size
  vars : Store.vars r.store = (Store.vars s).push x
  constraints : Store.constraints r.store = Store.constraints s

/-- A registration that puts a constraint at the end. -/
structure Store.Posts (s : σ) (c : Constraint) (r : Registered σ ConstraintId) : Prop where
  id : r.id = .ofNat (Store.constraints s).size
  vars : Store.vars r.store = Store.vars s
  constraints : Store.constraints r.store = (Store.constraints s).push c

/-- There are numbers for all that is in the store. -/
structure Store.Numbered (s : σ) : Prop where
  vars : (Store.vars s).size ≤ UInt32.size
  constraints : (Store.constraints s).size ≤ UInt32.size

/-- What a store owes to those who compile into it. -/
class LawfulStore (σ : Type) [Store σ] where
  /-- What holds of a store from the start and after every registration. -/
  Valid : σ → Prop
  find?_eq : ∀ {s : σ}, Valid s → ∀ name, Store.find? s name = firstNamed (Store.vars s) name
  adds : ∀ {s : σ}, Valid s → ∀ x : Variable, x.name? = none →
    Store.Adds s x (Store.addVariable s x) ∧ Valid (Store.addVariable s x).store
  posts : ∀ {s : σ}, Valid s → ∀ c,
    Store.Posts s c (Store.addConstraint s c) ∧ Valid (Store.addConstraint s c).store
  intern_found : ∀ {s : σ}, Valid s → ∀ {name v}, Store.find? s name = some v →
    (Store.intern s name).id = v ∧ (Store.intern s name).store = s
  intern_new : ∀ {s : σ}, Valid s → ∀ {name}, Store.find? s name = none →
    Store.Adds s (.named name) (Store.intern s name) ∧ Valid (Store.intern s name).store

/-! ### Growth -/

variable [LawfulStore σ]

/-- A later store: valid, with all that the earlier one held in its old place. -/
structure Store.Grows (s t : σ) : Prop where
  valid : LawfulStore.Valid t
  vars : (Store.vars s).toList <+: (Store.vars t).toList
  constraints : (Store.constraints s).toList <+: (Store.constraints t).toList

namespace Store

theorem Grows.refl {s : σ} (h : LawfulStore.Valid s) : Grows s s :=
  ⟨h, List.prefix_rfl, List.prefix_rfl⟩

theorem Grows.trans {s t u : σ} (h : Grows s t) (h' : Grows t u) : Grows s u :=
  ⟨h'.valid, h.vars.trans h'.vars, h.constraints.trans h'.constraints⟩

theorem Adds.grows {s : σ} {x : Variable} {r : Registered σ VariableId} (h : Adds s x r)
    (hr : LawfulStore.Valid r.store) : Grows s r.store := by
  refine ⟨hr, ?_, ?_⟩
  · rw [h.vars, Array.toList_push]
    exact List.prefix_append ..
  · exact h.constraints ▸ List.prefix_rfl

theorem Posts.grows {s : σ} {c : Constraint} {r : Registered σ ConstraintId} (h : Posts s c r)
    (hr : LawfulStore.Valid r.store) : Grows s r.store := by
  refine ⟨hr, ?_, ?_⟩
  · exact h.vars ▸ List.prefix_rfl
  · rw [h.constraints, Array.toList_push]
    exact List.prefix_append ..

theorem Grows.size_vars_le {s t : σ} (h : Grows s t) :
    (Store.vars s).size ≤ (Store.vars t).size := by
  have hlength := h.vars.length_le
  rwa [Array.length_toList, Array.length_toList] at hlength

theorem Grows.numbered {s t : σ} (h : Grows s t) (ht : Numbered t) : Numbered s := by
  refine ⟨Nat.le_trans h.size_vars_le ht.vars, Nat.le_trans ?_ ht.constraints⟩
  have hlength := h.constraints.length_le
  rwa [Array.length_toList, Array.length_toList] at hlength

theorem Grows.getElem?_vars {s t : σ} (h : Grows s t) {i : Nat} (hi : i < (Store.vars s).size) :
    (Store.vars t)[i]? = (Store.vars s)[i]? := by
  obtain ⟨more, hmore⟩ := h.vars
  rw [← Array.getElem?_toList, ← hmore, List.getElem?_append_left (by simpa using hi),
    Array.getElem?_toList]

theorem Grows.getElem?_constraints {s t : σ} (h : Grows s t) {i : Nat} {c : Constraint}
    (hc : (Store.constraints s)[i]? = some c) : (Store.constraints t)[i]? = some c := by
  obtain ⟨more, hmore⟩ := h.constraints
  obtain ⟨hlt, _⟩ := Array.getElem?_eq_some_iff.mp hc
  rw [← Array.getElem?_toList, ← hmore, List.getElem?_append_left (by simpa using hlt),
    Array.getElem?_toList, hc]

theorem Grows.mem_constraints {s t : σ} (h : Grows s t) {c : Constraint}
    (hc : c ∈ Store.constraints s) : c ∈ Store.constraints t :=
  Array.mem_toList_iff.mp (h.constraints.subset (Array.mem_toList_iff.mpr hc))

/-- Interning a name finds its variable or adds one. -/
theorem intern_grows {s : σ} (h : LawfulStore.Valid s) (name : String) :
    Grows s (intern s name).store := by
  cases hfind : find? s name with
  | some v =>
    rw [(LawfulStore.intern_found h hfind).2]
    exact Grows.refl h
  | none =>
    obtain ⟨hadds, hvalid⟩ := LawfulStore.intern_new h hfind
    exact hadds.grows hvalid

end Store

end Laws

/-! ### Ledgers -/

instance : LawfulStore Ledger where
  Valid := fun _ => True
  find?_eq := fun _ _ => rfl
  adds := fun _ _ _ => ⟨⟨rfl, rfl, rfl⟩, trivial⟩
  posts := fun _ _ => ⟨⟨rfl, rfl, rfl⟩, trivial⟩
  intern_found := by
    intro l _ name v h
    have hfind : Ledger.find? l name = some v := h
    simp only [Store.intern, hfind, and_self]
  intern_new := by
    intro l _ name h
    have hfind : Ledger.find? l name = none := h
    simp only [Store.intern, hfind]
    exact ⟨⟨rfl, rfl, rfl⟩, trivial⟩

/-! ### Networks -/

namespace Network

/-- The index gives what a search through the variables would. -/
def Indexed (n : Network) : Prop :=
  ∀ name, n.find? name = firstNamed n.vars name

theorem indexed_empty : Indexed {} := by
  intro name
  simp [find?, firstNamed]

/-- A variable without a name is none of the index's business. -/
theorem Indexed.push {n : Network} (h : n.Indexed) {x : Variable} (hx : x.name? = none) :
    Indexed {n with vars := n.vars.push x} := by
  intro name
  rw [firstNamed_push, hx, if_neg (by simp), Option.or_none]
  exact h name

/-- A name that is new is found where its variable was put. -/
theorem Indexed.insert {n : Network} (h : n.Indexed) {name : String} (hname : n.find? name = none) :
    (n.insert name).Indexed := by
  intro other
  show _ = firstNamed (n.vars.push (.named name)) other
  rw [firstNamed_push, ← h other]
  by_cases heq : name = other
  · subst heq
    rw [find?_insert_self, hname]
    simp [Variable.name?, fresh]
  · rw [find?_insert_of_ne n heq]
    simp [Variable.name?, heq]

instance : LawfulStore Network where
  Valid := Indexed
  find?_eq := fun h name => h name
  adds := by
    intro n h x hx
    cases x with
    | named => cases hx
    | auxiliary => exact ⟨⟨rfl, rfl, rfl⟩, h.push hx⟩
    | constant => exact ⟨⟨rfl, rfl, rfl⟩, h.push hx⟩
  posts := fun h _ => ⟨⟨rfl, rfl, rfl⟩, h⟩
  intern_found := by
    intro n _ name v hfind
    have hv : n.find? name = some v := hfind
    simp only [Store.intern, intern, hv, and_self]
  intern_new := by
    intro n h name hfind
    have hv : n.find? name = none := hfind
    simp only [Store.intern, intern, hv]
    exact ⟨⟨rfl, rfl, rfl⟩, h.insert hv⟩

end Network

end ConstraintNet
