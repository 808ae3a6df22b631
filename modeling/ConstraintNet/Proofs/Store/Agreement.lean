import ConstraintNet.Proofs.Compile.Simulation
import Mathlib.Data.List.Forall2

/-! Stores that hold the same.

Two stores are the same to their users when they hold the same variables and the
same constraints in the same places, and find the same variable for each name
(`Store.Same`). Which variable is found is settled by the variables, so two lawful
stores remain the same whatever is registered in both, and number it alike
(`Store.same_simulation`).

So it makes no difference whether names are looked up in an index or searched for.
A network and a ledger that are used in the same way from the start give the same
response at each step, every request to a session being one, and are the same after
it (`Network.recordAll_ledger`). They would part ways only if a name were added by
hand that is there already: a ledger takes it, a network keeps the one it has
(`Store.addsNew`). -/
namespace ConstraintNet

/-! ### What can be seen of a use -/

/-- What a step gives: a number, or the reply of a session. -/
inductive Response where
  | registered (id : VariableId)
  | posted (id : ConstraintId)
  | replied (reply : Reply)

section
variable {σ : Type} [Store σ]

/-- The replies of a session, each with the store that it leaves. -/
def Session.record : List Request → Session σ → List (Response × σ)
  | [], _ => []
  | request :: requests, s =>
    let r := s.answer request
    (.replied r.1, r.2.store) :: record requests r.2

namespace Store

/-- The steps of an action: what each gives, and the store that it leaves. -/
def record (s : σ) : Action → List (Response × σ)
  | .addVariable x =>
    let r := addVariable s x
    [(.registered r.id, r.store)]
  | .addConstraint c =>
    let r := addConstraint s c
    [(.posted r.id, r.store)]
  | .operate (.intern name) =>
    let r := intern s name
    [(.registered r.id, r.store)]
  | .operate (.post text) =>
    let r := Session.compile text {store := s}
    [(.replied (.compiled r.1), r.2.store)]
  | .operate (.session sharing requests) => Session.record requests {store := s, sharing}

def recordAll : List Action → σ → List (Response × σ)
  | [], _ => []
  | a :: actions, s => record s a ++ recordAll actions (act s a)

/-- No name is added by hand that the store has. -/
def addsNew (s : σ) : Action → Bool
  | .addVariable (.named name) => (find? s name).isNone
  | _ => true

def addsAllNew : List Action → σ → Bool
  | [], _ => true
  | a :: actions, s => addsNew s a && addsAllNew actions (act s a)

theorem find?_of_addsNew {s : σ} {name : String}
    (h : addsNew s (.addVariable (.named name)) = true) : find? s name = none :=
  Option.isNone_iff_eq_none.mp h

end Store

end

/-! ### Records of a simulation -/

section
variable {σ τ : Type} [Store σ] [Store τ] {R : σ → τ → Prop}

/-- The same response, and stores that are related after it. -/
def Related (R : σ → τ → Prop) (x : Response × σ) (y : Response × τ) : Prop :=
  x.1 = y.1 ∧ R x.2 y.2

theorem Session.Alike.record (hR : Store.Simulation R) (requests : List Request) {s : Session σ}
    {t : Session τ} (h : Session.Alike R s t) :
    List.Forall₂ (Related R) (s.record requests) (t.record requests) := by
  induction requests generalizing s t with
  | nil => exact .nil
  | cons request requests ih =>
    obtain ⟨hreply, hafter⟩ := (Session.alike_matching hR).answer request h
    exact .cons ⟨congrArg Response.replied hreply, hafter.stores⟩ (ih hafter)

namespace Store.Simulation
variable {s : σ} {t : τ}

/-- A simulation is kept by all that is not a name added by hand. -/
theorem act (hR : Simulation R) (h : R s t) (a : Action)
    (hnamed : ∀ name, a = .addVariable (.named name) → R (Store.act s a) (Store.act t a)) :
    R (Store.act s a) (Store.act t a) := by
  cases a with
  | addVariable x =>
    cases x with
    | named name => exact hnamed name rfl
    | auxiliary => exact (hR.adds h .auxiliary rfl).2
    | constant value => exact (hR.adds h (.constant value) rfl).2
  | addConstraint c => exact (hR.posts h c).2
  | operate o => exact hR.operate h o

theorem record (hR : Simulation R) (h : R s t) (a : Action)
    (hnamed : ∀ name, a = .addVariable (.named name) →
      List.Forall₂ (Related R) (Store.record s a) (Store.record t a)) :
    List.Forall₂ (Related R) (Store.record s a) (Store.record t a) := by
  have hstart : ∀ sharing, Session.Alike R {store := s, sharing} {store := t, sharing} :=
    fun sharing => ⟨h, rfl, fun _ => rfl⟩
  cases a with
  | addVariable x =>
    have hadds : x.name? = none → List.Forall₂ (Related R) (Store.record s (.addVariable x))
        (Store.record t (.addVariable x)) := by
      intro hx
      obtain ⟨hid, hstores⟩ := hR.adds h x hx
      exact .cons ⟨congrArg Response.registered hid, hstores⟩ .nil
    cases x with
    | named name => exact hnamed name rfl
    | auxiliary => exact hadds rfl
    | constant value => exact hadds rfl
  | addConstraint c =>
    obtain ⟨hid, hstores⟩ := hR.posts h c
    exact .cons ⟨congrArg Response.posted hid, hstores⟩ .nil
  | operate o =>
    cases o with
    | intern name =>
      obtain ⟨hid, hstores⟩ := hR.interns h name
      exact .cons ⟨congrArg Response.registered hid, hstores⟩ .nil
    | post text =>
      obtain ⟨houtcome, hafter⟩ := Session.alike_matching hR _ _ text (hstart .perOccurrence)
      exact .cons ⟨congrArg (Response.replied ∘ Reply.compiled) houtcome, hafter.stores⟩ .nil
    | session sharing requests => exact (hstart sharing).record hR requests

end Store.Simulation

end

/-! ### Lawful stores -/

namespace Store

section
variable {σ τ : Type} [Store σ] [Store τ]

/-- Nothing that is asked of the stores tells them apart. -/
structure Same (s : σ) (t : τ) : Prop where
  vars : vars s = vars t
  constraints : constraints s = constraints t
  names : ∀ name, find? s name = find? t name

variable [LawfulStore σ] [LawfulStore τ]

/-- Both stores are valid, and they hold the same. -/
structure Twins (s : σ) (t : τ) : Prop where
  first : LawfulStore.Valid s
  second : LawfulStore.Valid t
  vars : Store.vars s = Store.vars t
  constraints : Store.constraints s = Store.constraints t

variable {s : σ} {t : τ}

theorem Twins.names (h : Twins s t) (name : String) : find? s name = find? t name := by
  rw [LawfulStore.find?_eq h.first, LawfulStore.find?_eq h.second, h.vars]

theorem Twins.same (h : Twins s t) : Same s t :=
  ⟨h.vars, h.constraints, h.names⟩

/-- The same variable is put in the same place. -/
theorem Twins.adds (h : Twins s t) {x : Variable} {r : Registered σ VariableId}
    {r' : Registered τ VariableId} (hr : Adds s x r ∧ LawfulStore.Valid r.store)
    (hr' : Adds t x r' ∧ LawfulStore.Valid r'.store) : r.id = r'.id ∧ Twins r.store r'.store := by
  refine ⟨?_, hr.2, hr'.2, ?_, ?_⟩
  · rw [hr.1.id, hr'.1.id, h.vars]
  · rw [hr.1.vars, hr'.1.vars, h.vars]
  · rw [hr.1.constraints, hr'.1.constraints, h.constraints]

theorem Twins.posts (h : Twins s t) {c : Constraint} {r : Registered σ ConstraintId}
    {r' : Registered τ ConstraintId} (hr : Posts s c r ∧ LawfulStore.Valid r.store)
    (hr' : Posts t c r' ∧ LawfulStore.Valid r'.store) : r.id = r'.id ∧ Twins r.store r'.store := by
  refine ⟨?_, hr.2, hr'.2, ?_, ?_⟩
  · rw [hr.1.id, hr'.1.id, h.constraints]
  · rw [hr.1.vars, hr'.1.vars, h.vars]
  · rw [hr.1.constraints, hr'.1.constraints, h.constraints]

/-- However a store finds names, it finds the same ones. -/
theorem same_simulation : Simulation (Twins : σ → τ → Prop) where
  adds h x hx := h.adds (LawfulStore.adds h.first x hx) (LawfulStore.adds h.second x hx)
  posts h c := h.posts (LawfulStore.posts h.first c) (LawfulStore.posts h.second c)
  interns := by
    intro s t h name
    cases hfind : find? s name with
    | some v =>
      obtain ⟨hid, hstore⟩ := LawfulStore.intern_found h.first hfind
      obtain ⟨hid', hstore'⟩ := LawfulStore.intern_found h.second (h.names name ▸ hfind)
      rw [hid, hid', hstore, hstore']
      exact ⟨rfl, h⟩
    | none =>
      exact h.adds (LawfulStore.intern_new h.first hfind)
        (LawfulStore.intern_new h.second (h.names name ▸ hfind))

end

end Store

/-! ### A network and a ledger -/

/-- A name that is new is put at the end, like any other variable. -/
theorem Network.adds_named {n : Network} (h : LawfulStore.Valid n) {name : String}
    (hname : n.find? name = none) :
    Store.Adds n (.named name) (Store.addVariable n (.named name)) ∧
      LawfulStore.Valid (Store.addVariable n (.named name)).store := by
  simp only [Store.addVariable, addVariable, hname]
  exact ⟨⟨rfl, rfl, rfl⟩, Indexed.insert h hname⟩

theorem Ledger.adds_named (l : Ledger) (name : String) :
    Store.Adds l (.named name) (Store.addVariable l (.named name)) ∧
      LawfulStore.Valid (Store.addVariable l (.named name)).store :=
  ⟨⟨rfl, rfl, rfl⟩, trivial⟩

namespace Store.Twins
variable {n : Network} {l : Ledger}

theorem act (h : Twins n l) (a : Action) (hnew : addsNew n a = true) :
    Twins (Store.act n a) (Store.act l a) := by
  refine same_simulation.act h a ?_
  rintro name rfl
  exact (h.adds (Network.adds_named h.first (find?_of_addsNew hnew)) (l.adds_named name)).2

theorem record (h : Twins n l) (a : Action) (hnew : addsNew n a = true) :
    List.Forall₂ (Related Twins) (Store.record n a) (Store.record l a) := by
  refine same_simulation.record h a ?_
  rintro name rfl
  obtain ⟨hid, hstores⟩ :=
    h.adds (Network.adds_named h.first (find?_of_addsNew hnew)) (l.adds_named name)
  exact .cons ⟨congrArg Response.registered hid, hstores⟩ .nil

theorem recordAll (actions : List Action) (h : Twins n l) (hnew : addsAllNew actions n = true) :
    List.Forall₂ (Related Twins) (Store.recordAll actions n) (Store.recordAll actions l) ∧
      Twins (actAll n actions) (actAll l actions) := by
  induction actions generalizing n l with
  | nil => exact ⟨.nil, h⟩
  | cons a actions ih =>
    obtain ⟨ha, hnew⟩ := Bool.and_eq_true_iff.mp hnew
    obtain ⟨hrest, hlast⟩ := ih (h.act a ha) hnew
    exact ⟨List.rel_append (h.record a ha) hrest, hlast⟩

theorem empty : Twins ({} : Network) ({} : Ledger) :=
  ⟨Network.indexed_empty, trivial, rfl, rfl⟩

end Store.Twins

/-- **An index is as good as a search.** Whatever is done to a network and to a ledger
that are empty at first, both give the same response at each step and are the same
after it, and so they are in the end. -/
theorem Network.recordAll_ledger (actions : List Action)
    (hnew : Store.addsAllNew actions ({} : Network) = true) :
    List.Forall₂ (Related Store.Same) (Store.recordAll actions ({} : Network))
        (Store.recordAll actions ({} : Ledger)) ∧
      Store.Same (Store.actAll ({} : Network) actions) (Store.actAll ({} : Ledger) actions) := by
  obtain ⟨hrecord, hlast⟩ := Store.Twins.empty.recordAll actions hnew
  exact ⟨hrecord.imp fun _ _ h => ⟨h.1, h.2.same⟩, hlast.same⟩

/-- Names by hand and in texts, a constraint over numbers that no variable has, and a
session in which some texts are in error. -/
def Action.mixed : List Action :=
  [.addVariable (.named "y"), .operate (.intern "x"), .addVariable (.constant 2),
    .addConstraint (.general "any" [] [.ofNat 7]),
    .operate (.session .perValue
      [.compile "neq(abs(sub(x,y)),2)", .compileAll ["lt(z,02)", "z", "lt(w,x)"], .compile "lt(z"]),
    .addVariable (.named "w"), .operate (.post "eq(w,add(z,2))")]

theorem Network.recordAll_ledger_mixed :
    Store.addsAllNew Action.mixed ({} : Network) = true ∧
      List.Forall₂ (Related Store.Same) (Store.recordAll Action.mixed ({} : Network))
          (Store.recordAll Action.mixed ({} : Ledger)) ∧
        Store.Same (Store.actAll ({} : Network) Action.mixed)
          (Store.actAll ({} : Ledger) Action.mixed) := by
  have hnew : Store.addsAllNew Action.mixed ({} : Network) = true := by decide +kernel
  exact ⟨hnew, recordAll_ledger Action.mixed hnew⟩

end ConstraintNet
