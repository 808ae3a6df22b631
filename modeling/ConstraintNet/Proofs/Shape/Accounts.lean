import ConstraintNet.Proofs.Store.Lawful

/-! Accounts of a store under construction.

In the end each auxiliary variable is the result of one constraint and an operand
at one place. In the middle of a term this is not so: a result is registered before
it is defined, and an operand before the constraint that it is for. The accounts of
a store (`Store.Accounted`) keep a list of either kind. With the results that are
pending, and the operands that are loose, everything adds up at every moment:
registering a variable opens an account (`Accounted.adds`), and posting a
constraint closes those of its result and of its operands (`Accounted.posts`).

Constants may be shared, so of constants only some are accounted for: those that
are meant for one place, the lone ones. -/
namespace ConstraintNet
open Store (Adds Posts)

/-- Whether a new variable is a result that is pending. -/
def Variable.pending : Variable → VariableId → List VariableId
  | .auxiliary, v => [v]
  | _, _ => []

/-- Whether a new variable is an operand that is loose. -/
def Variable.loose : Variable → VariableId → List VariableId
  | .constant _, v => [v]
  | _, _ => []

theorem Variable.eq_of_mem_pending {x : Variable} {v w : VariableId} (h : w ∈ x.pending v) :
    x = .auxiliary ∧ w = v := by
  cases x with
  | auxiliary => exact ⟨rfl, List.mem_singleton.mp h⟩
  | named => cases h
  | constant => cases h

theorem Variable.eq_of_mem_loose {x : Variable} {v w : VariableId} (h : w ∈ x.loose v) : w = v := by
  cases x with
  | auxiliary => cases h
  | named => cases h
  | constant => exact List.mem_singleton.mp h

/-- What is new does not count for any other variable. -/
theorem Variable.count_pending_of_ne (x : Variable) {v w : VariableId} (h : w ≠ v) :
    (x.pending v).count w = 0 :=
  List.count_eq_zero.mpr fun hmem => h (eq_of_mem_pending hmem).2

theorem Variable.count_loose_of_ne (x : Variable) {v w : VariableId} (h : w ≠ v) :
    (x.loose v).count w = 0 :=
  List.count_eq_zero.mpr fun hmem => h (eq_of_mem_loose hmem)

section
variable {σ : Type} [Store σ]

namespace Store

/-- The results of the constraints, in order. -/
def results (s : σ) : List VariableId :=
  (constraints s).toList.flatMap fun c => c.result?.toList

/-- The operands of the constraints, in order. -/
def uses (s : σ) : List VariableId :=
  (constraints s).toList.flatMap Constraint.operands

structure Accounted (s : σ) (pending loose : List VariableId) (lone : VariableId → Prop) : Prop where
  result : ∀ v ∈ results s ++ pending, (vars s)[v.toNat]? = some .auxiliary
  operand : ∀ v ∈ uses s ++ loose, v.toNat < (vars s).size
  defined : ∀ v : VariableId, (vars s)[v.toNat]? = some .auxiliary → (results s ++ pending).count v = 1
  used : ∀ v : VariableId, (vars s)[v.toNat]? = some .auxiliary →
    (uses s ++ loose ++ pending).count v = 1
  lone : ∀ (v : VariableId) value, (vars s)[v.toNat]? = some (.constant value) → lone v →
    (uses s ++ loose).count v = 1
  /-- Operands are defined by an earlier constraint. -/
  earlier : ∀ (k : Nat) c, (constraints s)[k]? = some c → ∀ v ∈ c.operands,
    (vars s)[v.toNat]? = some .auxiliary → ∃ j < k, ∃ d, (constraints s)[j]? = some d ∧ d.result? = some v
  /-- Operands are registered after the result. -/
  below : ∀ c ∈ constraints s, ∀ v ∈ c.operands, (vars s)[v.toNat]? = some .auxiliary →
    ∀ result, c.result? = some result → result.toNat < v.toNat

/-! ### Registrations -/

theorem Adds.toNat_id {s : σ} {x : Variable} {r : Registered σ VariableId} (hr : Adds s x r)
    (hsize : (Store.vars r.store).size ≤ UInt32.size) : r.id.toNat = (Store.vars s).size := by
  rw [hr.vars, Array.size_push] at hsize
  rw [hr.id, VariableId.toNat_ofNat (by omega)]

/-- The new variable is found under its number, and the others under theirs. -/
theorem Adds.getElem?_vars {s : σ} {x : Variable} {r : Registered σ VariableId} (hr : Adds s x r)
    (hsize : (Store.vars r.store).size ≤ UInt32.size) (v : VariableId) :
    (Store.vars r.store)[v.toNat]? = if v = r.id then some x else (Store.vars s)[v.toNat]? := by
  have hid := hr.toNat_id hsize
  have heq : v.toNat = (Store.vars s).size ↔ v = r.id := by
    constructor
    · intro h
      rw [← VariableId.ofNat_toNat v, h, hr.id]
    · rintro rfl
      exact hid
  rw [hr.vars, Array.getElem?_push]
  simp only [heq]

/-- What is found after a registration is new or was found before. -/
theorem Adds.cases {s : σ} {x y : Variable} {r : Registered σ VariableId} (hr : Adds s x r)
    (hsize : (Store.vars r.store).size ≤ UInt32.size) {v : VariableId}
    (hv : (Store.vars r.store)[v.toNat]? = some y) :
    v = r.id ∧ y = x ∨ v ≠ r.id ∧ (Store.vars s)[v.toNat]? = some y := by
  rw [hr.getElem?_vars hsize] at hv
  by_cases heq : v = r.id
  · rw [if_pos heq] at hv
    exact .inl ⟨heq, (Option.some.inj hv).symm⟩
  · rw [if_neg heq] at hv
    exact .inr ⟨heq, hv⟩

theorem Adds.uses {s : σ} {x : Variable} {r : Registered σ VariableId} (hr : Adds s x r) :
    Store.uses r.store = Store.uses s := by
  rw [Store.uses, Store.uses, hr.constraints]

theorem Adds.results {s : σ} {x : Variable} {r : Registered σ VariableId} (hr : Adds s x r) :
    Store.results r.store = Store.results s := by
  rw [Store.results, Store.results, hr.constraints]

theorem Posts.uses {s : σ} {c : Constraint} {r : Registered σ ConstraintId} (hr : Posts s c r) :
    Store.uses r.store = Store.uses s ++ c.operands := by
  rw [Store.uses, Store.uses, hr.constraints, Array.toList_push, List.flatMap_append,
    List.flatMap_singleton]

theorem Posts.results {s : σ} {c : Constraint} {r : Registered σ ConstraintId} (hr : Posts s c r) :
    Store.results r.store = Store.results s ++ c.result?.toList := by
  rw [Store.results, Store.results, hr.constraints, Array.toList_push, List.flatMap_append,
    List.flatMap_singleton]

/-- A constraint that was posted before is where it was. -/
theorem Posts.getElem?_constraints {s : σ} {c d : Constraint} {r : Registered σ ConstraintId}
    (hr : Posts s c r) {k : Nat} (hd : (Store.constraints s)[k]? = some d) :
    (Store.constraints r.store)[k]? = some d := by
  have hlt := (Array.getElem?_eq_some_iff.mp hd).1
  rw [hr.constraints, Array.getElem?_push, if_neg (Nat.ne_of_lt hlt), hd]

variable {s : σ} {pending loose : List VariableId} {lone : VariableId → Prop}

theorem Accounted.operand_lt (h : Accounted s pending loose lone) {c : Constraint}
    (hc : c ∈ constraints s) {v : VariableId} (hv : v ∈ c.operands) :
    v.toNat < (vars s).size :=
  h.operand v (List.mem_append_left _ (List.mem_flatMap.mpr ⟨c, Array.mem_toList_iff.mpr hc, hv⟩))

/-- There is no account of a variable that is not registered. -/
theorem Accounted.count_of_size_le (h : Accounted s pending loose lone) {v : VariableId}
    (hv : (vars s).size ≤ v.toNat) :
    (Store.results s ++ pending).count v = 0 ∧ (Store.uses s ++ loose).count v = 0 := by
  refine ⟨List.count_eq_zero.mpr fun hmem => ?_, List.count_eq_zero.mpr fun hmem => ?_⟩
  · have hx := h.result v hmem
    rw [Array.getElem?_eq_none hv] at hx
    cases hx
  · exact Nat.not_lt_of_le hv (h.operand v hmem)

/-- A new variable: a result is pending, a constant loose. -/
theorem Accounted.adds (h : Accounted s pending loose lone) {x : Variable}
    {r : Registered σ VariableId} (hr : Adds s x r) (hsize : (vars r.store).size ≤ UInt32.size) :
    Accounted r.store (pending ++ x.pending r.id) (loose ++ x.loose r.id) lone := by
  have hid := hr.toNat_id hsize
  have hgrown : (vars r.store).size = (vars s).size + 1 := by rw [hr.vars, Array.size_push]
  have hnew : (vars r.store)[r.id.toNat]? = some x := by rw [hr.getElem?_vars hsize, if_pos rfl]
  obtain ⟨hresults, huses⟩ := h.count_of_size_le (Nat.le_of_eq hid.symm)
  have hold : ∀ v : VariableId, v.toNat < (vars s).size →
      (vars r.store)[v.toNat]? = (vars s)[v.toNat]? := by
    intro v hv
    rw [hr.vars, Array.getElem?_push, if_neg (Nat.ne_of_lt hv)]
  simp only [List.count_append] at hresults huses
  refine ⟨?result, ?operand, ?defined, ?used, ?lone, ?earlier, ?below⟩
  case result =>
    intro v hv
    rw [hr.results, ← List.append_assoc, List.mem_append] at hv
    rcases hv with hv | hv
    · have hx := h.result v hv
      rw [hold v (Array.getElem?_eq_some_iff.mp hx).1, hx]
    · obtain ⟨rfl, rfl⟩ := Variable.eq_of_mem_pending hv
      exact hnew
  case operand =>
    intro v hv
    rw [hr.uses, ← List.append_assoc, List.mem_append] at hv
    rcases hv with hv | hv
    · exact hgrown ▸ Nat.lt_succ_of_lt (h.operand v hv)
    · rw [Variable.eq_of_mem_loose hv]
      exact (Array.getElem?_eq_some_iff.mp hnew).1
  case defined =>
    intro v hv
    simp only [hr.results, List.count_append]
    rcases hr.cases hsize hv with ⟨rfl, rfl⟩ | ⟨hne, hv⟩
    · have hone : (Variable.auxiliary.pending r.id).count r.id = 1 := List.count_singleton_self
      omega
    · have hdefined := h.defined v hv
      rw [List.count_append] at hdefined
      rw [x.count_pending_of_ne hne]
      exact hdefined
  case used =>
    intro v hv
    simp only [hr.uses, List.count_append]
    rcases hr.cases hsize hv with ⟨rfl, rfl⟩ | ⟨hne, hv⟩
    · have hone : (Variable.auxiliary.pending r.id).count r.id = 1 := List.count_singleton_self
      have hnone : (Variable.auxiliary.loose r.id).count r.id = 0 := rfl
      omega
    · have hused := h.used v hv
      simp only [List.count_append] at hused
      rw [x.count_pending_of_ne hne, x.count_loose_of_ne hne]
      exact hused
  case lone =>
    intro v value hv hlone
    simp only [hr.uses, List.count_append]
    rcases hr.cases hsize hv with ⟨rfl, rfl⟩ | ⟨hne, hv⟩
    · have hone : ((Variable.constant value).loose r.id).count r.id = 1 :=
        List.count_singleton_self
      omega
    · have hused := h.lone v value hv hlone
      rw [List.count_append] at hused
      rw [x.count_loose_of_ne hne]
      exact hused
  case earlier =>
    intro k c hc v hv haux
    rw [hr.constraints] at hc ⊢
    rw [hold v (h.operand_lt (Array.mem_of_getElem? hc) hv)] at haux
    exact h.earlier k c hc v hv haux
  case below =>
    intro c hc v hv haux
    rw [hr.constraints] at hc
    rw [hold v (h.operand_lt hc hv)] at haux
    exact h.below c hc v hv haux

/-- An operand that is loose is no result that is pending: it has its definition. -/
theorem Accounted.exists_definition (h : Accounted s pending loose lone) {v : VariableId}
    (hv : v ∈ loose) (haux : (vars s)[v.toNat]? = some .auxiliary) :
    ∃ (j : Nat) (d : Constraint), (constraints s)[j]? = some d ∧ d.result? = some v := by
  have hdefined := h.defined v haux
  have hused := h.used v haux
  have hcount := List.count_pos_iff.mpr hv
  simp only [List.count_append] at hdefined hused
  have hmem : v ∈ Store.results s := List.count_pos_iff.mp (by omega)
  obtain ⟨d, hd, hresult⟩ := List.mem_flatMap.mp hmem
  obtain ⟨j, hj⟩ := Array.mem_iff_getElem?.mp (Array.mem_toList_iff.mp hd)
  exact ⟨j, d, hj, Option.mem_toList.mp hresult⟩

/-- A constraint defines a pending result, if it has one, over loose operands. Then
the result is loose. -/
theorem Accounted.posts {c : Constraint} {r : Registered σ ConstraintId}
    (h : Accounted s (pending ++ c.result?.toList) (loose ++ c.operands) lone) (hr : Posts s c r)
    (hbelow : ∀ v ∈ c.operands, (vars s)[v.toNat]? = some .auxiliary →
      ∀ result, c.result? = some result → result.toNat < v.toNat) :
    Accounted r.store pending (loose ++ c.result?.toList) lone := by
  have hresult : ∀ v ∈ c.result?.toList, (vars s)[v.toNat]? = some .auxiliary := fun v hv =>
    h.result v (List.mem_append_right _ (List.mem_append_right _ hv))
  refine ⟨?result, ?operand, ?defined, ?used, ?lone, ?earlier, ?below⟩
  case result =>
    intro v hv
    rw [hr.vars]
    refine h.result v ?_
    simp only [hr.results, List.mem_append] at hv ⊢
    grind
  case operand =>
    intro v hv
    rw [hr.vars]
    simp only [hr.uses, ← List.append_assoc, List.mem_append] at hv
    rcases hv with hv | hv
    · refine h.operand v ?_
      simp only [List.mem_append]
      grind
    · exact (Array.getElem?_eq_some_iff.mp (hresult v hv)).1
  case defined =>
    intro v hv
    rw [hr.vars] at hv
    have hdefined := h.defined v hv
    simp only [hr.results, List.count_append] at hdefined ⊢
    omega
  case used =>
    intro v hv
    rw [hr.vars] at hv
    have hused := h.used v hv
    simp only [hr.uses, List.count_append] at hused ⊢
    omega
  case lone =>
    intro v value hv hlone
    rw [hr.vars] at hv
    have hused := h.lone v value hv hlone
    -- A result is no constant, so it takes nothing from the account.
    have hnone : c.result?.toList.count v = 0 := by
      refine List.count_eq_zero.mpr fun hmem => ?_
      cases hv.symm.trans (hresult v hmem)
    simp only [hr.uses, List.count_append] at hused ⊢
    omega
  case earlier =>
    intro k d hd v hv haux
    rw [hr.vars] at haux
    rw [hr.constraints, Array.getElem?_push] at hd
    split at hd
    · next hk =>
      obtain rfl := Option.some.inj hd
      obtain ⟨j, e, he, hdefines⟩ := h.exists_definition (List.mem_append_right _ hv) haux
      have hlt := (Array.getElem?_eq_some_iff.mp he).1
      exact ⟨j, hk ▸ hlt, e, hr.getElem?_constraints he, hdefines⟩
    · obtain ⟨j, hj, e, he, hdefines⟩ := h.earlier k d hd v hv haux
      exact ⟨j, hj, e, hr.getElem?_constraints he, hdefines⟩
  case below =>
    intro d hd v hv haux
    rw [hr.vars] at haux
    rw [hr.constraints, Array.mem_push] at hd
    rcases hd with hd | rfl
    · exact h.below d hd v hv haux
    · exact hbelow v hv haux

/-- A variable that is neither a result nor a lone constant is an operand as often as
one likes. -/
theorem Accounted.use (h : Accounted s pending loose lone) {v : VariableId} {x : Variable}
    (hv : (vars s)[v.toNat]? = some x) (hx : x ≠ .auxiliary)
    (hlone : ∀ value, x = .constant value → ¬lone v) : Accounted s pending (loose ++ [v]) lone := by
  refine ⟨h.result, ?_, h.defined, ?_, ?_, h.earlier, h.below⟩
  · intro w hw
    rw [← List.append_assoc, List.mem_append, List.mem_singleton] at hw
    rcases hw with hw | rfl
    · exact h.operand w hw
    · exact (Array.getElem?_eq_some_iff.mp hv).1
  · intro w hw
    have hne : v ≠ w := by
      rintro rfl
      exact hx (Option.some.inj (hv.symm.trans hw))
    have hused := h.used w hw
    simp only [List.count_append, List.count_singleton, beq_iff_eq, hne, if_false] at hused ⊢
    omega
  · intro w value hw hw'
    have hne : v ≠ w := by
      rintro rfl
      exact hlone value (Option.some.inj (hv.symm.trans hw)) hw'
    have hused := h.lone w value hw hw'
    simp only [List.count_append, List.count_singleton, beq_iff_eq, hne, if_false] at hused ⊢
    omega

/-- Which constants are lone matters only for those that there are. -/
theorem Accounted.mono (h : Accounted s pending loose lone) {lone' : VariableId → Prop}
    (hlone : ∀ v, v.toNat < (vars s).size → lone' v → lone v) :
    Accounted s pending loose lone' := by
  refine ⟨h.result, h.operand, h.defined, h.used, ?_, h.earlier, h.below⟩
  intro v value hv hlone'
  exact h.lone v value hv (hlone v (Array.getElem?_eq_some_iff.mp hv).1 hlone')

/-- The accounts of a store with nothing in it. -/
theorem accounted_empty (hvars : vars s = #[]) (hconstraints : constraints s = #[])
    (lone : VariableId → Prop) : Accounted s [] [] lone := by
  have hnone : ∀ (v : VariableId) x, (vars s)[v.toNat]? ≠ some x := by
    intro v x hx
    rw [hvars] at hx
    cases hx
  have hresults : Store.results s = [] := by rw [Store.results, hconstraints]; rfl
  have huses : Store.uses s = [] := by rw [Store.uses, hconstraints]; rfl
  refine ⟨?_, ?_, ?_, ?_, ?_, ?_, ?_⟩
  · rw [hresults]
    intro v hv
    cases hv
  · rw [huses]
    intro v hv
    cases hv
  · exact fun v hv => absurd hv (hnone v _)
  · exact fun v hv => absurd hv (hnone v _)
  · exact fun v value hv => absurd hv (hnone v _)
  · exact fun k c _ v _ hv => absurd hv (hnone v _)
  · exact fun c _ v _ hv => absurd hv (hnone v _)

end Store

end

end ConstraintNet
