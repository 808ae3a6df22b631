import ConstraintNet.Proofs.Shape.Accounts
import ConstraintNet.Proofs.Store.Names

/-! What a store has said, and stands by.

A number that a store gives is of use only for as long as it stands for the same thing.
A chronicle is a store that writes down each number that it gives, and for what
(`Chronicle.Entry`). It is used as the store in it is (`Chronicle.recordAll_store`), so
what is written down is what the store has said, to a compiler as well.

All that is written down stays true (`Chronicle.Entry.Holds`): entries are only added,
the store only grows, and neither an object nor the first variable of a name changes its
place when more is put behind it. A registration adds a true entry, so any later state of
a chronicle extends any earlier one (`Chronicle.Extends`). That goes for the states that
a session leaves between two requests, too (`Chronicle.recordAll_extends`). -/
namespace ConstraintNet
open Store (Adds Posts Grows)

/-! ### Names -/

/-- The first variable of a name remains the first when more follow. -/
theorem firstNamed_of_prefix {vars vars' : Array Variable} (h : vars.toList <+: vars'.toList)
    {name : String} {v : VariableId} (hv : firstNamed vars name = some v) :
    firstNamed vars' name = some v := by
  obtain ⟨more, hmore⟩ := h
  obtain ⟨i, hi, rfl⟩ := Option.map_eq_some_iff.mp hv
  have heq : vars' = vars ++ more.toArray := Array.toList_inj.mp (by rw [← hmore]; simp)
  rw [firstNamed, heq, Array.findIdx?_append, hi]
  rfl

section
variable {σ : Type} [Store σ] [LawfulStore σ]

theorem Store.Grows.find? {s t : σ} (h : Grows s t) (hs : LawfulStore.Valid s) {name : String}
    {v : VariableId} (hv : Store.find? s name = some v) : Store.find? t name = some v := by
  rw [LawfulStore.find?_eq hs] at hv
  rw [LawfulStore.find?_eq h.valid]
  exact firstNamed_of_prefix h.vars hv

end

/-! ### Registrations by hand -/

/-- A store in which a variable can be read under the number that it was registered under,
also by hand. -/
class FaithfulStore (σ : Type) [Store σ] extends BuildableStore σ where
  addVariable_reads : ∀ {s : σ}, Valid s → ∀ x,
    (Store.vars (Store.addVariable s x).store).size ≤ UInt32.size →
    (Store.vars (Store.addVariable s x).store)[(Store.addVariable s x).id.toNat]? = some x

instance : FaithfulStore Ledger where
  addVariable_reads := by
    intro l _ x hsize
    have hadds : Adds l x (Store.addVariable l x) := ⟨rfl, rfl, rfl⟩
    rw [hadds.getElem?_vars hsize, if_pos rfl]

instance : FaithfulStore Network where
  addVariable_reads := by
    intro n h x hsize
    have hnew : Adds n x (Store.addVariable n x) →
        (Store.vars (Store.addVariable n x).store)[(Store.addVariable n x).id.toNat]? = some x := by
      intro hadds
      rw [hadds.getElem?_vars hsize, if_pos rfl]
    cases x with
    | named name =>
      cases hfind : n.find? name with
      | some v =>
        -- The name is there: the number is that of the variable that has it.
        have hstay : Store.addVariable n (.named name) = ⟨v, n, [.alreadyRegistered name v]⟩ := by
          simp only [Store.addVariable, Network.addVariable, hfind]
        rw [hstay] at hsize ⊢
        exact getElem?_of_firstNamed hsize ((h name).symm.trans hfind)
      | none => exact hnew (Network.adds_named h hfind).1
    | auxiliary => exact hnew ⟨rfl, rfl, rfl⟩
    | constant value => exact hnew ⟨rfl, rfl, rfl⟩

/-! ### Chronicles -/

/-- Something that a store has said. -/
inductive Chronicle.Entry where
  /-- A variable is registered under a number. -/
  | registered (x : Variable) (v : VariableId)
  | posted (c : Constraint) (k : ConstraintId)
  /-- A name stands for a variable. -/
  | resolved (name : String) (v : VariableId)

/-- A store that writes down what it says. -/
structure Chronicle (σ : Type) where
  store : σ
  entries : List Chronicle.Entry := []

namespace Chronicle

/-- Write down one more entry. -/
def log {σ : Type} (d : Chronicle σ) (s : σ) (e : Entry) : Chronicle σ :=
  ⟨s, d.entries ++ [e]⟩

section
variable {σ : Type} [Store σ]

instance : Store (Chronicle σ) where
  vars d := Store.vars d.store
  constraints d := Store.constraints d.store
  find? d := Store.find? d.store
  addVariable d x :=
    let r := Store.addVariable d.store x
    {id := r.id, store := d.log r.store (.registered x r.id), events := r.events}
  addConstraint d c :=
    let r := Store.addConstraint d.store c
    {id := r.id, store := d.log r.store (.posted c r.id), events := r.events}
  intern d name :=
    let r := Store.intern d.store name
    {id := r.id, store := d.log r.store (.resolved name r.id), events := r.events}

/-! Writing is of no consequence. -/

theorem simulation : Store.Simulation fun (d : Chronicle σ) (s : σ) => d.store = s where
  adds := by
    rintro d s rfl x _
    exact ⟨rfl, rfl⟩
  posts := by
    rintro d s rfl c
    exact ⟨rfl, rfl⟩
  interns := by
    rintro d s rfl name
    exact ⟨rfl, rfl⟩

theorem act_store (d : Chronicle σ) (a : Action) : (Store.act d a).store = Store.act d.store a := by
  refine simulation.act rfl a ?_
  rintro name rfl
  rfl

theorem actAll_store (actions : List Action) (d : Chronicle σ) :
    (Store.actAll d actions).store = Store.actAll d.store actions := by
  induction actions generalizing d with
  | nil => rfl
  | cons a actions ih =>
    refine (ih _).trans ?_
    rw [act_store]
    rfl

/-- A chronicle responds as the store in it does, and the store is the same at each step. -/
theorem recordAll_store (actions : List Action) (d : Chronicle σ) :
    List.Forall₂ (Related fun (d : Chronicle σ) (s : σ) => d.store = s)
      (Store.recordAll actions d) (Store.recordAll actions d.store) := by
  induction actions generalizing d with
  | nil => exact .nil
  | cons a actions ih =>
    refine List.rel_append (simulation.record rfl a ?_) ?_
    · rintro name rfl
      exact .cons ⟨rfl, rfl⟩ .nil
    · rw [← act_store]
      exact ih _

/-! ### What holds -/

/-- What the store has said is so. -/
def Entry.Holds (s : σ) : Entry → Prop
  | .registered x v => (Store.vars s)[v.toNat]? = some x
  | .posted c k => (Store.constraints s)[k.toNat]? = some c
  | .resolved name v =>
    Store.find? s name = some v ∧ (Store.vars s)[v.toNat]? = some (.named name)

variable [LawfulStore σ]

theorem Entry.Holds.grows {s t : σ} {e : Entry} (h : e.Holds s) (hs : LawfulStore.Valid s)
    (hgrows : Grows s t) : e.Holds t := by
  have hread : ∀ {x : Variable} {v : VariableId}, (Store.vars s)[v.toNat]? = some x →
      (Store.vars t)[v.toNat]? = some x := by
    intro x v hx
    rw [hgrows.getElem?_vars (Array.getElem?_eq_some_iff.mp hx).1, hx]
  cases e with
  | registered x v => exact hread h
  | posted c k => exact hgrows.getElem?_constraints h
  | resolved name v => exact ⟨hgrows.find? hs h.1, hread h.2⟩

/-- All that is written down is so. -/
structure Sound (d : Chronicle σ) : Prop where
  valid : LawfulStore.Valid d.store
  holds : Store.Numbered d.store → ∀ e ∈ d.entries, e.Holds d.store

/-- A later state: the store has grown, entries were added, and all of them hold. -/
structure Extends (d d' : Chronicle σ) : Prop where
  grows : Grows d.store d'.store
  entries : d.entries <+: d'.entries
  sound : d'.Sound

variable {d d' : Chronicle σ}

theorem Sound.extends_self (h : d.Sound) : Extends d d :=
  ⟨.refl h.valid, List.prefix_rfl, h⟩

theorem Extends.trans {d'' : Chronicle σ} (h : Extends d d') (h' : Extends d' d'') :
    Extends d d'' :=
  ⟨h.grows.trans h'.grows, h.entries.trans h'.entries, h'.sound⟩

/-! ### Steps -/

theorem Sound.log (h : d.Sound) {s : σ} (hgrows : Grows d.store s) {e : Entry}
    (he : Store.Numbered s → e.Holds s) : Extends d (d.log s e) := by
  refine ⟨hgrows, List.prefix_append .., hgrows.valid, ?_⟩
  intro hs x hx
  rcases List.mem_append.mp hx with hx | hx
  · exact (h.holds (hgrows.numbered hs) x hx).grows h.valid hgrows
  · rw [List.mem_singleton.mp hx]
    exact he hs

theorem Sound.posts (h : d.Sound) (c : Constraint) :
    Extends d (Store.addConstraint d c).store := by
  obtain ⟨hposts, hvalid⟩ := LawfulStore.posts h.valid c
  refine h.log (hposts.grows hvalid) fun hs => ?_
  have hsize := hs.constraints
  rw [hposts.constraints, Array.size_push] at hsize
  show (Store.constraints _)[_]? = some c
  rw [hposts.constraints, hposts.id, ConstraintId.toNat_ofNat (by omega), Array.getElem?_push_size]

theorem Sound.interns (h : d.Sound) (name : String) : Extends d (Store.intern d name).store := by
  refine h.log (Store.intern_grows h.valid name) fun hs => ?_
  have hfound : Store.find? (Store.intern d.store name).store name =
      some (Store.intern d.store name).id := by
    cases hfind : Store.find? d.store name with
    | some v =>
      obtain ⟨hid, hstore⟩ := LawfulStore.intern_found h.valid hfind
      rw [hstore, hid, hfind]
    | none =>
      obtain ⟨hadds, hvalid⟩ := LawfulStore.intern_new h.valid hfind
      rw [LawfulStore.find?_eq h.valid] at hfind
      rw [LawfulStore.find?_eq hvalid, hadds.vars, hadds.id, firstNamed_push, hfind,
        Option.none_or, Variable.name?, if_pos rfl]
  refine ⟨hfound, ?_⟩
  rw [LawfulStore.find?_eq (Store.intern_grows h.valid name).valid] at hfound
  exact getElem?_of_firstNamed hs.vars hfound

end

section
variable {σ : Type} [Store σ] [FaithfulStore σ] {d d₀ : Chronicle σ}

theorem Sound.adds (h : d.Sound) (x : Variable) : Extends d (Store.addVariable d x).store :=
  h.log (BuildableStore.addVariable_grows h.valid x) fun hs =>
    FaithfulStore.addVariable_reads h.valid x hs.vars

/-- Whatever is registered, what was so at `d₀` is so afterwards. -/
theorem extends_simulation (d₀ : Chronicle σ) :
    Store.Simulation fun d d' : Chronicle σ => d = d' ∧ Extends d₀ d :=
  .keeps (fun _ h x _ => h.trans (h.sound.adds x)) (fun _ h c => h.trans (h.sound.posts c))
    fun _ h name => h.trans (h.sound.interns name)

theorem Sound.act (h : d.Sound) (a : Action) : Extends d (Store.act d a) := by
  refine ((extends_simulation d).act ⟨rfl, h.extends_self⟩ a ?_).2
  rintro name rfl
  exact ⟨rfl, h.adds (.named name)⟩

theorem Sound.answer {s : Session (Chronicle σ)} (h : s.store.Sound) (request : Request) :
    Extends s.store (s.answer request).2.store :=
  ((Session.alike_matching (extends_simulation s.store)).answer request
    ⟨⟨rfl, h.extends_self⟩, rfl, fun _ => rfl⟩).2.stores.2

theorem Sound.serve {s : Session (Chronicle σ)} (h : s.store.Sound) (requests : List Request) :
    Extends s.store (s.serve requests).2.store :=
  ((Session.alike_matching (extends_simulation s.store)).serve requests
    ⟨⟨rfl, h.extends_self⟩, rfl, fun _ => rfl⟩).2.stores.2

/-! ### Records -/

/-- Every state in the record is later than `d` and earlier than `d'`, and they follow one
another. -/
structure Progress (d : Chronicle σ) (steps : List (Response × Chronicle σ)) (d' : Chronicle σ) :
    Prop where
  after : ∀ x ∈ steps, Extends d x.2
  before : ∀ x ∈ steps, Extends x.2 d'
  pairwise : steps.Pairwise fun x y => Extends x.2 y.2

theorem Progress.single {d' : Chronicle σ} (h : Extends d d') (r : Response) :
    Progress d [(r, d')] d' := by
  refine ⟨?_, ?_, List.pairwise_singleton ..⟩
  · intro x hx
    rw [List.mem_singleton.mp hx]
    exact h
  · intro x hx
    rw [List.mem_singleton.mp hx]
    exact h.sound.extends_self

theorem Progress.append {d₁ d₂ : Chronicle σ} {steps more : List (Response × Chronicle σ)}
    (h₁ : Progress d steps d₁) (h₂ : Progress d₁ more d₂) (hfirst : Extends d d₁)
    (hrest : Extends d₁ d₂) : Progress d (steps ++ more) d₂ := by
  refine ⟨?_, ?_, List.pairwise_append.mpr ⟨h₁.pairwise, h₂.pairwise, ?_⟩⟩
  · intro x hx
    rcases List.mem_append.mp hx with hx | hx
    · exact h₁.after x hx
    · exact hfirst.trans (h₂.after x hx)
  · intro x hx
    rcases List.mem_append.mp hx with hx | hx
    · exact (h₁.before x hx).trans hrest
    · exact h₂.before x hx
  · intro x hx y hy
    exact (h₁.before x hx).trans (h₂.after y hy)

theorem Progress.nil (d d' : Chronicle σ) : Progress d [] d' :=
  ⟨fun _ h => (List.not_mem_nil h).elim, fun _ h => (List.not_mem_nil h).elim, .nil⟩

theorem Sound.session (requests : List Request) {s : Session (Chronicle σ)} (h : s.store.Sound) :
    Progress s.store (s.record requests) (s.serve requests).2.store := by
  induction requests generalizing s with
  | nil => exact .nil ..
  | cons request requests ih =>
    have hfirst := h.answer request
    exact (Progress.single hfirst _).append (ih hfirst.sound) hfirst (hfirst.sound.serve requests)

theorem Sound.record (h : d.Sound) (a : Action) :
    Progress d (Store.record d a) (Store.act d a) := by
  have hact := h.act a
  cases a with
  | addVariable x => exact .single hact _
  | addConstraint c => exact .single hact _
  | operate o =>
    cases o with
    | intern name => exact .single hact _
    | post text => exact .single hact _
    | session sharing requests => exact Sound.session requests (s := {store := d, sharing}) h

/-- Each state of a chronicle extends all that came before. -/
theorem recordAll_extends (actions : List Action) (h : d.Sound) :
    Progress d (Store.recordAll actions d) (Store.actAll d actions) ∧
      Extends d (Store.actAll d actions) := by
  induction actions generalizing d with
  | nil => exact ⟨.nil .., h.extends_self⟩
  | cons a actions ih =>
    have hfirst := h.act a
    obtain ⟨hrest, hlast⟩ := ih hfirst.sound
    exact ⟨(h.record a).append hrest hfirst hlast, hfirst.trans hlast⟩

end

end Chronicle

end ConstraintNet
