import ConstraintNet.Compile.Session
import ConstraintNet.Proofs.Store.Lawful

/-! Compiling only ever adds to a store.

Each step of a lowering is one registration or none, so what was in a lawful
store before a term is lowered is in it afterwards, in the same place
(`Lowering.operand_grows`, `Lowering.root_grows`), and the same goes for a text
(`Session.compile_grows`). -/
namespace ConstraintNet
open Store (Grows)

section
variable {σ : Type}

namespace Lowering

/-! ### Steps -/

@[simp] theorem take_fst {ι : Type} (l : Lowering σ) (r : Registered σ ι) :
    (l.take r).1 = r.id := rfl

@[simp] theorem take_store {ι : Type} (l : Lowering σ) (r : Registered σ ι) :
    (l.take r).2.store = r.store := rfl

variable [Store σ]

@[simp] theorem introduce_store (l : Lowering σ) (x : Variable) :
    (l.introduce x).2.store = (Store.addVariable l.store x).store := rfl

/-- The variable of a literal is one that the session has for its value, or it is
introduced, and then the session may note it down. -/
theorem constant_cases (l : Lowering σ) (value : Int64) :
    (∃ v, l.constants[value]? = some v ∧ l.constant value = (v, l)) ∨
      (l.constant value).1 = (l.introduce (.constant value)).1 ∧
      (l.constant value).2.store = (l.introduce (.constant value)).2.store ∧
      ((l.constant value).2.constants = l.constants ∨
        (l.constant value).2.constants =
          l.constants.insert value (l.introduce (.constant value)).1) := by
  unfold constant
  split
  · exact .inr ⟨rfl, rfl, .inl rfl⟩
  · split
    · next v hv => exact .inl ⟨v, hv, rfl⟩
    · exact .inr ⟨rfl, rfl, .inr rfl⟩

/-! What is done for a literal depends on the sharing and on what the session has. -/

theorem constant_perOccurrence {l : Lowering σ} (h : l.sharing = .perOccurrence) (value : Int64) :
    l.constant value = l.introduce (.constant value) := by
  simp only [constant, h]

theorem constant_found {l : Lowering σ} (h : l.sharing = .perValue) {value : Int64} {v : VariableId}
    (hv : l.constants[value]? = some v) : l.constant value = (v, l) := by
  simp only [constant, h, hv]

theorem constant_new {l : Lowering σ} (h : l.sharing = .perValue) {value : Int64}
    (hv : l.constants[value]? = none) :
    l.constant value = ((l.introduce (.constant value)).1,
      {(l.introduce (.constant value)).2 with
        constants := l.constants.insert value (l.introduce (.constant value)).1}) := by
  simp only [constant, h, hv]
  rfl

/-- The new constant is found for its value, and for other values what was found before. -/
theorem getElem?_insert_constant (constants : Std.TreeMap Int64 VariableId) (value other : Int64)
    (v : VariableId) :
    (constants.insert value v)[other]? = if other = value then some v else constants[other]? := by
  rw [Std.TreeMap.getElem?_insert]
  simp only [Std.LawfulEqCmp.compare_eq_iff_eq, @eq_comm _ value]

/-! ### Sharing

Which literals share a constant is settled when a session begins. -/

theorem constant_sharing (l : Lowering σ) (value : Int64) :
    (l.constant value).2.sharing = l.sharing := by
  unfold constant
  split
  · rfl
  · split <;> rfl

mutual

theorem operand_sharing : ∀ (t : Term) (l : Lowering σ), (operand t l).2.sharing = l.sharing
  | .name _, _ => rfl
  | .literal _ value, l => constant_sharing l value
  | .application _ _ ts, l => operands_sharing ts (l.introduce .auxiliary).2

theorem operands_sharing : ∀ (ts : List Term) (l : Lowering σ), (operands ts l).2.sharing = l.sharing
  | [], _ => rfl
  | t :: ts, l => (operands_sharing ts (operand t l).2).trans (operand_sharing t l)

end

/-! ### Growth -/

variable [LawfulStore σ]

theorem constant_grows {l : Lowering σ} (h : LawfulStore.Valid l.store) (value : Int64) :
    Grows l.store (l.constant value).2.store := by
  rcases l.constant_cases value with ⟨v, _, hv⟩ | ⟨_, hstore, _⟩
  · rw [hv]
    exact Grows.refl h
  · rw [hstore, introduce_store]
    obtain ⟨hadds, hvalid⟩ := LawfulStore.adds h (.constant value) rfl
    exact hadds.grows hvalid

theorem introduce_auxiliary_grows {l : Lowering σ} (h : LawfulStore.Valid l.store) :
    Grows l.store (l.introduce .auxiliary).2.store := by
  obtain ⟨hadds, hvalid⟩ := LawfulStore.adds h .auxiliary rfl
  exact hadds.grows hvalid

theorem define_grows {l : Lowering σ} (h : LawfulStore.Valid l.store) (result : VariableId)
    (f : String) (ps : List Parameter) (ts : List Term) (vs : List VariableId) :
    Grows l.store (l.define result f ps ts vs).store := by
  obtain ⟨hposts, hvalid⟩ := LawfulStore.posts h (.functional result f ps vs)
  exact hposts.grows hvalid

mutual

theorem operand_grows : ∀ (t : Term) {l : Lowering σ}, LawfulStore.Valid l.store →
    Grows l.store (operand t l).2.store
  | .name text, _, h => Store.intern_grows h text
  | .literal _ value, _, h => constant_grows h value
  | .application f ps ts, l, h => by
    have hresult := introduce_auxiliary_grows h
    have hbelow := operands_grows ts hresult.valid
    exact (hresult.trans hbelow).trans (define_grows hbelow.valid _ f ps ts _)

theorem operands_grows : ∀ (ts : List Term) {l : Lowering σ}, LawfulStore.Valid l.store →
    Grows l.store (operands ts l).2.store
  | [], _, h => Grows.refl h
  | t :: ts, _, h => by
    have hfirst := operand_grows t h
    exact hfirst.trans (operands_grows ts hfirst.valid)

end

theorem root_grows (f : String) (ps : List Parameter) (ts : List Term) {l : Lowering σ}
    (h : LawfulStore.Valid l.store) : Grows l.store (root f ps ts l).2.store := by
  have hbelow := operands_grows ts h
  obtain ⟨hposts, hvalid⟩ :=
    LawfulStore.posts hbelow.valid (.general f ps (operands ts l).1)
  exact hbelow.trans (hposts.grows hvalid)

end Lowering

namespace Session
variable [Store σ]

/-- A text is in error and changes nothing, or it is an application and its root is
posted. -/
theorem compile_cases (text : String) (s : Session σ) :
    (∃ e, s.compile text = (.error e, s)) ∨
      ∃ f ps ts, Term.parse text = .ok (.application f ps ts) ∧
        s.compile text = (.ok (Lowering.root f ps ts {toSession := s}).1,
          (Lowering.root f ps ts {toSession := s}).2.toSession) := by
  unfold compile
  split
  · exact .inl ⟨_, rfl⟩
  · next f ps ts h => exact .inr ⟨f, ps, ts, h, rfl⟩
  · exact .inl ⟨_, rfl⟩

theorem compile_sharing (text : String) (s : Session σ) : (s.compile text).2.sharing = s.sharing := by
  rcases s.compile_cases text with ⟨e, he⟩ | ⟨f, ps, ts, _, heq⟩
  · rw [he]
  · rw [heq]
    exact Lowering.operands_sharing ts {toSession := s}

variable [LawfulStore σ]

theorem compile_grows (text : String) {s : Session σ} (h : LawfulStore.Valid s.store) :
    Grows s.store (s.compile text).2.store := by
  rcases s.compile_cases text with ⟨e, he⟩ | ⟨f, ps, ts, _, heq⟩
  · rw [he]
    exact Grows.refl h
  · rw [heq]
    exact Lowering.root_grows (l := {toSession := s}) f ps ts h

end Session

end

end ConstraintNet
