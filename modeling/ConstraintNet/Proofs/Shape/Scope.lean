import ConstraintNet.Proofs.Compile.Simulation
import ConstraintNet.Proofs.Shape.Lowering

/-! Constraints over registered variables.

A store takes a constraint over any numbers, but a compiler posts none before all
variables of its scope are registered. So whatever holds of a store and is kept by
all other registrations, and of constraints by such as these (`Store.Respectful`),
is kept by all operations (`Store.Respectful.operateAll`).

What came first does not show in a store, whose variables and constraints are two
lists. A dated store (`Dated`) keeps with each constraint how many variables there
were when it was posted. It is used as the store in it is (`Dated.operateAll_store`),
and every variable of a scope is older than the constraint (`Dated.operateAll_timely`). -/
namespace ConstraintNet
open Store (Adds Posts Grows Accounted)

/-! ### Properties kept by constraints in scope -/

section
variable {σ : Type} [Store σ] [LawfulStore σ]

/-- Kept by registrations, of constraints by those whose scope is registered. -/
structure Store.Respectful (P : σ → Prop) : Prop where
  adds : ∀ {s}, LawfulStore.Valid s → P s → ∀ x : Variable, x.name? = none →
    P (Store.addVariable s x).store
  posts : ∀ {s}, LawfulStore.Valid s → P s → ∀ c : Constraint,
    (∀ v ∈ c.scope, v.toNat < (Store.vars s).size) → P (Store.addConstraint s c).store
  interns : ∀ {s}, LawfulStore.Valid s → P s → ∀ name, P (Store.intern s name).store

variable {P : σ → Prop} {lone : VariableId → Prop}

omit [LawfulStore σ] in
/-- All that is pending or loose is registered. -/
theorem Store.Accounted.scope_lt {s : σ} {pending loose : List VariableId} {c : Constraint}
    (h : Accounted s (pending ++ c.result?.toList) (loose ++ c.operands) lone) :
    ∀ v ∈ c.scope, v.toNat < (Store.vars s).size := by
  intro v hv
  rcases List.mem_append.mp hv with hv | hv
  · have hx := h.result v (List.mem_append_right _ (List.mem_append_right _ hv))
    exact (Array.getElem?_eq_some_iff.mp hx).1
  · exact h.operand v (List.mem_append_right _ (List.mem_append_right _ hv))

namespace Lowering

theorem constant_respects (hP : Store.Respectful P) (value : Int64) {l : Lowering σ}
    (hvalid : LawfulStore.Valid l.store) (h : P l.store) : P (l.constant value).2.store := by
  rcases l.constant_cases value with ⟨v, _, heq⟩ | ⟨_, hstore, _⟩
  · rw [heq]
    exact h
  · rw [hstore, introduce_store]
    exact hP.adds hvalid h _ rfl

mutual

theorem operand_respects (hP : Store.Respectful P) : ∀ (t : Term) {l : Lowering σ}
    {pending loose : List VariableId}, l.Tidy pending loose lone →
    (Store.vars (operand t l).2.store).size ≤ UInt32.size → P l.store → P (operand t l).2.store
  | .name text, _, _, _, h, _, hl => hP.interns h.valid hl text
  | .literal _ value, _, _, _, h, _, hl => constant_respects hP value h.valid hl
  | .application f ps ts, l, pending, loose, h, hsize, hl => by
    have hresult := introduce_auxiliary_grows h.valid
    have hbelow := operands_grows ts hresult.valid
    have hsize₂ := Nat.le_trans (define_grows hbelow.valid _ f ps ts _).size_vars_le hsize
    have hpending := introduce_tidy .auxiliary rfl h (Nat.le_trans hbelow.size_vars_le hsize₂)
    simp only [Variable.pending, Variable.loose, List.append_nil] at hpending
    have hleaves := operands_leaves ts hpending hsize₂
    refine hP.posts hbelow.valid ?_ _ hleaves.tidy.accounted.scope_lt
    exact operands_respects hP ts hpending hsize₂ (hP.adds h.valid hl .auxiliary rfl)

theorem operands_respects (hP : Store.Respectful P) : ∀ (ts : List Term) {l : Lowering σ}
    {pending loose : List VariableId}, l.Tidy pending loose lone →
    (Store.vars (operands ts l).2.store).size ≤ UInt32.size → P l.store → P (operands ts l).2.store
  | [], _, _, _, _, _, hl => hl
  | t :: ts, l, pending, loose, h, hsize, hl => by
    have hgrows := operand_grows t h.valid
    have hsize₁ := Nat.le_trans (operands_grows ts hgrows.valid).size_vars_le hsize
    have hfirst := operand_leaves t h hsize₁
    exact operands_respects hP ts hfirst.tidy hsize (operand_respects hP t h hsize₁ hl)

end

theorem root_respects (hP : Store.Respectful P) (f : String) (ps : List Parameter) (ts : List Term)
    {l : Lowering σ} {pending loose : List VariableId} (h : l.Tidy pending loose lone)
    (hsize : (Store.vars (root f ps ts l).2.store).size ≤ UInt32.size) (hl : P l.store) :
    P (root f ps ts l).2.store := by
  have hbelow := operands_grows ts h.valid
  obtain ⟨hposts, _⟩ := LawfulStore.posts hbelow.valid (.general f ps (operands ts l).1)
  have hsize' : (Store.vars (operands ts l).2.store).size ≤ UInt32.size := hposts.vars ▸ hsize
  have hleaves := operands_leaves ts h hsize'
  refine hP.posts hbelow.valid (operands_respects hP ts h hsize' hl) _ ?_
  intro v hv
  exact hleaves.tidy.accounted.operand v (List.mem_append_right _ (List.mem_append_right _ hv))

end Lowering

namespace Session

theorem compile_respects (hP : Store.Respectful P) {s : Session σ} (h : s.Tidy [] [] lone)
    (text : String) (hsize : (Store.vars (s.compile text).2.store).size ≤ UInt32.size)
    (hs : P s.store) : P (s.compile text).2.store := by
  rcases s.compile_cases text with ⟨e, he⟩ | ⟨f, ps, ts, _, heq⟩
  · rw [he]
    exact hs
  · rw [heq] at hsize ⊢
    exact Lowering.root_respects (l := {toSession := s}) hP f ps ts h hsize hs

theorem serve_respects (hP : Store.Respectful P) (requests : List Request) {s : Session σ}
    (h : s.Tidy [] [] lone) (hsize : (Store.vars (s.serve requests).2.store).size ≤ UInt32.size)
    (hs : P s.store) : P (s.serve requests).2.store := by
  have hkept : Kept fun s : Session σ => s.Tidy [] [] lone ∧ P s.store := fun s text _ hsize h =>
    ⟨h.1.compile text hsize, compile_respects hP h.1 text hsize h.2⟩
  exact (serve_keeps hkept requests h.valid hsize ⟨h, hs⟩).2

end Session

namespace Store

theorem Respectful.operate (hP : Respectful P) {s : σ} (hvalid : LawfulStore.Valid s)
    (h : Accounted s [] [] (fun _ => False)) (o : Operation)
    (hsize : (vars (operate s o)).size ≤ UInt32.size) (hs : P s) : P (operate s o) := by
  cases o with
  | intern name => exact hP.interns hvalid hs name
  | post text =>
    have htidy := h.tidy hvalid .perOccurrence fun _ _ _ => id
    exact Session.compile_respects hP htidy text hsize hs
  | session sharing requests =>
    have htidy := h.tidy hvalid sharing fun _ _ _ => id
    exact Session.serve_respects hP requests htidy hsize hs

/-- What constraints in scope keep is kept by all operations. -/
theorem Respectful.operateAll (hP : Respectful P) (operations : List Operation) {s : σ}
    (hvalid : LawfulStore.Valid s) (h : Accounted s [] [] (fun _ => False))
    (hsize : (vars (operateAll s operations)).size ≤ UInt32.size) (hs : P s) :
    P (operateAll s operations) := by
  refine (operateAll_keeps (P := fun s => Accounted s [] [] (fun _ => False) ∧ P s) ?_ operations
    hvalid hsize ⟨h, hs⟩).2
  rintro t o ht hsize ⟨h, hs⟩
  exact ⟨(operate_accounted ht h o hsize).mono fun _ _ => False.elim, hP.operate ht h o hsize hs⟩

end Store

end

/-! ### Dated stores -/

/-- A store that keeps how many variables there were when each constraint was posted. -/
structure Dated (σ : Type) where
  store : σ
  dates : Array Nat := #[]

namespace Dated
variable {σ : Type} [Store σ]

instance : Store (Dated σ) where
  vars d := Store.vars d.store
  constraints d := Store.constraints d.store
  find? d := Store.find? d.store
  addVariable d x :=
    let r := Store.addVariable d.store x
    {id := r.id, store := {d with store := r.store}, events := r.events}
  addConstraint d c :=
    let r := Store.addConstraint d.store c
    {id := r.id, store := ⟨r.store, d.dates.push (Store.vars d.store).size⟩, events := r.events}
  intern d name :=
    let r := Store.intern d.store name
    {id := r.id, store := {d with store := r.store}, events := r.events}

/-- The dates are of no consequence. -/
theorem simulation : Store.Simulation fun (d : Dated σ) (s : σ) => d.store = s where
  adds := by
    rintro d s rfl x _
    exact ⟨rfl, rfl⟩
  posts := by
    rintro d s rfl c
    exact ⟨rfl, rfl⟩
  interns := by
    rintro d s rfl name
    exact ⟨rfl, rfl⟩

/-- A dated store is used as the store in it is. -/
theorem operateAll_store (operations : List Operation) (s : σ) :
    (Store.operateAll ({store := s} : Dated σ) operations).store = Store.operateAll s operations :=
  simulation.operateAll operations rfl

instance [LawfulStore σ] : LawfulStore (Dated σ) where
  Valid d := LawfulStore.Valid d.store ∧ d.dates.size = (Store.constraints d.store).size
  find?_eq h name := LawfulStore.find?_eq h.1 name
  adds := by
    intro d h x hx
    obtain ⟨hadds, hvalid⟩ := LawfulStore.adds h.1 x hx
    refine ⟨⟨hadds.id, hadds.vars, hadds.constraints⟩, hvalid, ?_⟩
    exact h.2.trans (congrArg Array.size hadds.constraints.symm)
  posts := by
    intro d h c
    obtain ⟨hposts, hvalid⟩ := LawfulStore.posts h.1 c
    refine ⟨⟨hposts.id, hposts.vars, hposts.constraints⟩, hvalid, ?_⟩
    show (d.dates.push _).size = (Store.constraints (Store.addConstraint d.store c).store).size
    rw [hposts.constraints, Array.size_push, Array.size_push, h.2]
  intern_found := by
    intro d h name v hv
    obtain ⟨hid, hstore⟩ := LawfulStore.intern_found h.1 hv
    refine ⟨hid, ?_⟩
    show Dated.mk (Store.intern d.store name).store d.dates = d
    rw [hstore]
  intern_new := by
    intro d h name hv
    obtain ⟨hadds, hvalid⟩ := LawfulStore.intern_new h.1 hv
    refine ⟨⟨hadds.id, hadds.vars, hadds.constraints⟩, hvalid, ?_⟩
    exact h.2.trans (congrArg Array.size hadds.constraints.symm)

/-- The scope of a constraint is older than the constraint. -/
def Timely (d : Dated σ) : Prop :=
  ∀ (k : Nat) c, (Store.constraints d)[k]? = some c →
    ∃ date, d.dates[k]? = some date ∧ ∀ v ∈ c.scope, v.toNat < date

theorem timely_respectful [LawfulStore σ] : Store.Respectful (Timely (σ := σ)) where
  adds := by
    intro d hvalid h x hx k c hc
    obtain ⟨hadds, _⟩ := LawfulStore.adds hvalid x hx
    rw [hadds.constraints] at hc
    exact h k c hc
  posts := by
    intro d hvalid h c hscope k e he
    obtain ⟨hposts, _⟩ := LawfulStore.posts hvalid c
    show ∃ date, (d.dates.push (Store.vars d).size)[k]? = some date ∧ _
    rw [hposts.constraints, Array.getElem?_push] at he
    rw [Array.getElem?_push, hvalid.2]
    split at he
    · next hk =>
      obtain rfl := Option.some.inj he
      exact ⟨_, if_pos hk, hscope⟩
    · next hk =>
      obtain ⟨date, hdate, hlt⟩ := h k e he
      exact ⟨date, (if_neg hk).trans hdate, hlt⟩
  interns := by
    intro d hvalid h name k c hc
    have hgrows : (Store.intern d name).store.dates = d.dates ∧
        Store.constraints (Store.intern d name).store = Store.constraints d := by
      refine ⟨rfl, ?_⟩
      cases hfind : Store.find? d name with
      | some v => rw [(LawfulStore.intern_found hvalid hfind).2]
      | none => exact (LawfulStore.intern_new hvalid hfind).1.constraints
    rw [hgrows.2] at hc
    exact h k c hc

/-- In a store that operations built up, the scope of each constraint was registered
before the constraint. -/
theorem operateAll_timely [BuildableStore σ] (operations : List Operation)
    (hsize : (Store.vars (Store.operateAll (BuildableStore.empty : σ) operations)).size ≤
      UInt32.size) :
    Timely (Store.operateAll ({store := BuildableStore.empty} : Dated σ) operations) := by
  have hvars : Store.vars ({store := BuildableStore.empty} : Dated σ) = #[] :=
    BuildableStore.vars_empty
  have hconstraints : Store.constraints ({store := BuildableStore.empty} : Dated σ) = #[] :=
    BuildableStore.constraints_empty
  refine timely_respectful.operateAll operations ⟨BuildableStore.valid_empty, ?_⟩
    (Store.accounted_empty hvars hconstraints _) ?_ ?_
  · exact congrArg Array.size hconstraints.symm
  · rw [← operateAll_store] at hsize
    exact hsize
  · intro k c hc
    rw [hconstraints] at hc
    cases hc

end Dated

end ConstraintNet
