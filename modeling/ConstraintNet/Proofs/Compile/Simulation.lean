import ConstraintNet.Proofs.Compile.Runs
import ConstraintNet.Proofs.Compile.Texts

/-! Stores that cannot be told apart.

Compiling uses a store through its registrations alone. If two stores are in a
relation that every registration keeps, and give the same number each time
(`Store.Simulation`), then nothing that is compiled into both tells them apart:
sessions give the same replies (`Session.alike_matching`), and the relation is kept
through all operations (`Store.Simulation.operateAll`). -/
namespace ConstraintNet

section
variable {σ τ : Type} [Store σ] [Store τ]

/-- A relation that registrations keep, with the same number on both sides. Of the
variables only those without a name are registered as they are. -/
structure Store.Simulation (R : σ → τ → Prop) : Prop where
  adds : ∀ {s t}, R s t → ∀ x : Variable, x.name? = none →
    (Store.addVariable s x).id = (Store.addVariable t x).id ∧
      R (Store.addVariable s x).store (Store.addVariable t x).store
  posts : ∀ {s t}, R s t → ∀ c,
    (Store.addConstraint s c).id = (Store.addConstraint t c).id ∧
      R (Store.addConstraint s c).store (Store.addConstraint t c).store
  interns : ∀ {s t}, R s t → ∀ name,
    (Store.intern s name).id = (Store.intern t name).id ∧
      R (Store.intern s name).store (Store.intern t name).store

/-- Two sessions over related stores, with the same constants if literals share any. -/
structure Session.Alike (R : σ → τ → Prop) (s : Session σ) (t : Session τ) : Prop where
  stores : R s.store t.store
  sharing : s.sharing = t.sharing
  constants : s.sharing = .perValue → s.constants = t.constants

variable {R : σ → τ → Prop}

/-! ### Operands -/

namespace Lowering

theorem introduce_alike (hR : Store.Simulation R) {l : Lowering σ} {m : Lowering τ}
    (h : Session.Alike R l.toSession m.toSession) {x : Variable} (hx : x.name? = none) :
    (l.introduce x).1 = (m.introduce x).1 ∧
      Session.Alike R (l.introduce x).2.toSession (m.introduce x).2.toSession := by
  obtain ⟨hid, hstores⟩ := hR.adds h.stores x hx
  exact ⟨hid, hstores, h.sharing, h.constants⟩

theorem constant_alike (hR : Store.Simulation R) {l : Lowering σ} {m : Lowering τ}
    (h : Session.Alike R l.toSession m.toSession) (value : Int64) :
    (l.constant value).1 = (m.constant value).1 ∧
      Session.Alike R (l.constant value).2.toSession (m.constant value).2.toSession := by
  have hnew := introduce_alike hR h (x := .constant value) rfl
  have hsharing := h.sharing
  cases hl : l.sharing with
  | perOccurrence =>
    rw [constant_perOccurrence hl, constant_perOccurrence (hsharing ▸ hl)]
    exact hnew
  | perValue =>
    have hm : m.sharing = .perValue := hsharing ▸ hl
    have hconstants := h.constants hl
    cases hv : l.constants[value]? with
    | some v =>
      rw [constant_found hl hv, constant_found hm (hconstants ▸ hv)]
      exact ⟨rfl, h⟩
    | none =>
      rw [constant_new hl hv, constant_new hm (hconstants ▸ hv)]
      refine ⟨hnew.1, hnew.2.stores, hsharing, fun _ => ?_⟩
      show l.constants.insert value _ = m.constants.insert value _
      rw [hconstants, hnew.1]

/-- What terms are noted for the operands makes no difference. -/
theorem define_alike (hR : Store.Simulation R) {l : Lowering σ} {m : Lowering τ}
    (h : Session.Alike R l.toSession m.toSession) (result : VariableId) (f : String)
    (ps : List Parameter) (ts us : List Term) (vs : List VariableId) :
    Session.Alike R (l.define result f ps ts vs).toSession (m.define result f ps us vs).toSession :=
  ⟨(hR.posts h.stores _).2, h.sharing, h.constants⟩

mutual

theorem operand_alike (hR : Store.Simulation R) : ∀ (t : Term) {l : Lowering σ} {m : Lowering τ},
    Session.Alike R l.toSession m.toSession →
    (operand t l).1 = (operand t m).1 ∧
      Session.Alike R (operand t l).2.toSession (operand t m).2.toSession
  | .name text, _, _, h => by
    obtain ⟨hid, hstores⟩ := hR.interns h.stores text
    exact ⟨hid, hstores, h.sharing, h.constants⟩
  | .literal _ value, _, _, h => constant_alike hR h value
  | .application f ps ts, l, m, h => by
    obtain ⟨hresult, h₁⟩ := introduce_alike hR h (x := .auxiliary) rfl
    obtain ⟨hbelow, h₂⟩ := operands_alike hR ts h₁
    refine ⟨hresult, ?_⟩
    simp only [operand]
    rw [hresult, hbelow]
    exact define_alike hR h₂ _ f ps ts ts _

theorem operands_alike (hR : Store.Simulation R) :
    ∀ (ts : List Term) {l : Lowering σ} {m : Lowering τ},
    Session.Alike R l.toSession m.toSession →
    (operands ts l).1 = (operands ts m).1 ∧
      Session.Alike R (operands ts l).2.toSession (operands ts m).2.toSession
  | [], _, _, h => ⟨rfl, h⟩
  | t :: ts, l, m, h => by
    obtain ⟨hfirst, h₁⟩ := operand_alike hR t h
    obtain ⟨hrest, h₂⟩ := operands_alike hR ts h₁
    refine ⟨?_, h₂⟩
    simp only [operands]
    rw [hfirst, hrest]

end

theorem root_alike (hR : Store.Simulation R) (f : String) (ps : List Parameter) (ts : List Term)
    {l : Lowering σ} {m : Lowering τ} (h : Session.Alike R l.toSession m.toSession) :
    (root f ps ts l).1 = (root f ps ts m).1 ∧
      Session.Alike R (root f ps ts l).2.toSession (root f ps ts m).2.toSession := by
  obtain ⟨hbelow, h₁⟩ := operands_alike hR ts h
  obtain ⟨hid, hstores⟩ := hR.posts h₁.stores (.general f ps (operands ts l).1)
  simp only [root]
  rw [← hbelow]
  exact ⟨hid, hstores, h₁.sharing, h₁.constants⟩

end Lowering

/-! ### Sessions -/

namespace Session

/-- Sessions over related stores cannot be told apart. -/
theorem alike_matching (hR : Store.Simulation R) : Matching (Alike R) := by
  intro s t text h
  unfold Session.compile
  split
  · exact ⟨rfl, h⟩
  · next f ps ts _ =>
    obtain ⟨hid, hroot⟩ := Lowering.root_alike hR f ps ts
      (l := {toSession := s}) (m := {toSession := t}) h
    exact ⟨congrArg Except.ok hid, hroot⟩
  · exact ⟨rfl, h⟩

end Session

/-! ### Stores -/

namespace Store

theorem Simulation.operate (hR : Simulation R) {s : σ} {t : τ} (h : R s t) (o : Operation) :
    R (operate s o) (operate t o) := by
  cases o with
  | intern name => exact (hR.interns h name).2
  | post text =>
    have hstart : Session.Alike R {store := s} {store := t} := ⟨h, rfl, fun _ => rfl⟩
    exact (Session.alike_matching hR _ _ text hstart).2.stores
  | session sharing requests =>
    have hstart : Session.Alike R {store := s, sharing} {store := t, sharing} :=
      ⟨h, rfl, fun _ => rfl⟩
    exact ((Session.alike_matching hR).serve requests hstart).2.stores

theorem Simulation.operateAll (hR : Simulation R) (operations : List Operation) {s : σ} {t : τ}
    (h : R s t) : R (operateAll s operations) (operateAll t operations) := by
  induction operations generalizing s t with
  | nil => exact h
  | cons o operations ih => exact ih (hR.operate h o)

theorem Simulation.eq : Simulation (Eq : σ → σ → Prop) where
  adds := by
    rintro s _ rfl x _
    exact ⟨rfl, rfl⟩
  posts := by
    rintro s _ rfl c
    exact ⟨rfl, rfl⟩
  interns := by
    rintro s _ rfl name
    exact ⟨rfl, rfl⟩

end Store

end

/-! ### Routes -/

namespace Network

/-- Without sharing it makes no difference whether texts share a session. -/
theorem postEach_eq (texts : List String) {s : Session Network} (hs : s.sharing = .perOccurrence) :
    postEach texts s.store = ((s.compileEach texts).1, (s.compileEach texts).2.store) := by
  induction texts generalizing s with
  | nil => rfl
  | cons text texts ih =>
    have halike : Session.Alike Eq ({store := s.store} : Session Network) s :=
      ⟨rfl, hs.symm, fun hshared => by cases hshared⟩
    obtain ⟨houtcome, hafter⟩ := Session.alike_matching Store.Simulation.eq _ _ text halike
    have hstore : (s.store.post text).2.1 = (s.compile text).2.store := hafter.stores
    have hrest := ih ((s.compile_sharing text).trans hs)
    simp only [postEach, Session.compileEach]
    rw [hstore, hrest]
    exact congrArg (fun outcome => (outcome :: _, _)) houtcome

/-- By either route texts come into the network through a session. -/
theorem extend_eq (route : Route) (texts : List String) (n : Network) :
    extend route texts n =
      ((Session.compileEach texts {store := n, sharing := route.sharing}).1,
        (Session.compileEach texts {store := n, sharing := route.sharing}).2.store) := by
  cases route with
  | post => exact postEach_eq texts (s := {store := n}) rfl
  | session sharing => rfl

end Network

end ConstraintNet
