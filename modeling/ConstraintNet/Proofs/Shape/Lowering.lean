import ConstraintNet.Proofs.Compile.Runs
import ConstraintNet.Proofs.Shape.Accounts

/-! The accounts are kept while terms are lowered.

Lowering an operand leaves it loose and everything else as it was
(`Lowering.operand_tidy`): a result is pending only until its own operands are
done, and these are the loose ones that its constraint takes. So between texts
nothing is pending or loose (`Session.Tidy.serve`, `Store.operateAll_accounted`).

The lone constants are those of sessions in which literals share none. In any other
session what is reused must not be lone, and of what is still to come nothing may be
(`Session.Tidy`). -/
namespace ConstraintNet
open Store (Adds Posts Grows Accounted)

section
variable {σ : Type} [Store σ] [LawfulStore σ] {pending loose : List VariableId}
  {lone : VariableId → Prop}

/-- A session in the middle of a term, with its accounts. -/
structure Session.Tidy (s : Session σ) (pending loose : List VariableId) (lone : VariableId → Prop) :
    Prop where
  valid : LawfulStore.Valid s.store
  accounted : Accounted s.store pending loose lone
  reused : s.sharing = .perValue → ∀ value v, s.constants[value]? = some v →
    (Store.vars s.store)[v.toNat]? = some (.constant value) ∧ ¬lone v
  ahead : s.sharing = .perValue → ∀ v : VariableId, (Store.vars s.store).size ≤ v.toNat → ¬lone v

/-- More of the store changes nothing for the constants of the session. -/
theorem Session.Tidy.grows {s t : Session σ} {pending' loose' : List VariableId}
    (h : s.Tidy pending loose lone) (hgrows : Grows s.store t.store) (hsharing : t.sharing = s.sharing)
    (hconstants : t.constants = s.constants) (hstore : Accounted t.store pending' loose' lone) :
    t.Tidy pending' loose' lone := by
  refine ⟨hgrows.valid, hstore, ?_, ?_⟩
  · intro ht value v hv
    rw [hconstants] at hv
    obtain ⟨hx, hlone⟩ := h.reused (hsharing ▸ ht) value v hv
    rw [hgrows.getElem?_vars (Array.getElem?_eq_some_iff.mp hx).1]
    exact ⟨hx, hlone⟩
  · intro ht v hv
    exact h.ahead (hsharing ▸ ht) v (Nat.le_trans hgrows.size_vars_le hv)

/-! ### Names -/

theorem Store.intern_accounted {s : σ} (hvalid : LawfulStore.Valid s)
    (h : Accounted s pending loose lone) (name : String)
    (hsize : (Store.vars (Store.intern s name).store).size ≤ UInt32.size) :
    Accounted (Store.intern s name).store pending loose lone ∧
      (Store.vars (Store.intern s name).store)[(Store.intern s name).id.toNat]? = some (.named name) := by
  cases hfind : Store.find? s name with
  | some v =>
    obtain ⟨hid, hstore⟩ := LawfulStore.intern_found hvalid hfind
    rw [hstore] at hsize
    rw [LawfulStore.find?_eq hvalid] at hfind
    rw [hid, hstore]
    exact ⟨h, getElem?_of_firstNamed hsize hfind⟩
  | none =>
    obtain ⟨hadds, _⟩ := LawfulStore.intern_new hvalid hfind
    refine ⟨?_, ?_⟩
    · simpa [Variable.pending, Variable.loose] using h.adds hadds hsize
    · rw [hadds.getElem?_vars hsize, if_pos rfl]

namespace Lowering

/-! ### Operands -/

/-- From `l` to `m`: the operand `v` is loose, and if it is a result, it is a new one. -/
structure Leaves (l m : Lowering σ) (pending loose : List VariableId) (vs : List VariableId)
    (lone : VariableId → Prop) : Prop where
  tidy : m.Tidy pending (loose ++ vs) lone
  recent : ∀ v ∈ vs, (Store.vars m.store)[v.toNat]? = some .auxiliary →
    (Store.vars l.store).size ≤ v.toNat

theorem name_leaves (text : String) {l : Lowering σ} (h : l.Tidy pending loose lone)
    (hsize : (Store.vars (operand (.name text) l).2.store).size ≤ UInt32.size) :
    Leaves l (operand (.name text) l).2 pending loose [(operand (.name text) l).1] lone := by
  obtain ⟨haccounted, hnamed⟩ := Store.intern_accounted h.valid h.accounted text hsize
  refine ⟨?_, ?_⟩
  · refine h.grows (Store.intern_grows h.valid text) rfl rfl ?_
    exact haccounted.use hnamed Variable.noConfusion fun value hx => Variable.noConfusion hx
  · intro v hv haux
    rw [List.mem_singleton.mp hv] at haux
    cases hnamed.symm.trans haux

theorem introduce_tidy (x : Variable) (hx : x.name? = none) {l : Lowering σ}
    (h : l.Tidy pending loose lone)
    (hsize : (Store.vars (l.introduce x).2.store).size ≤ UInt32.size) :
    (l.introduce x).2.Tidy (pending ++ x.pending (l.introduce x).1) (loose ++ x.loose (l.introduce x).1)
      lone := by
  obtain ⟨hadds, hvalid⟩ := LawfulStore.adds h.valid x hx
  exact h.grows (hadds.grows hvalid) rfl rfl (h.accounted.adds hadds hsize)

theorem constant_leaves (value : Int64) {l : Lowering σ} (h : l.Tidy pending loose lone)
    (hsize : (Store.vars (l.constant value).2.store).size ≤ UInt32.size) :
    Leaves l (l.constant value).2 pending loose [(l.constant value).1] lone := by
  obtain ⟨hadds, _⟩ := LawfulStore.adds h.valid (.constant value) rfl
  have hnew := introduce_tidy (.constant value) rfl h
  simp only [Variable.pending, Variable.loose, List.append_nil] at hnew
  cases hl : l.sharing with
  | perOccurrence =>
    rw [constant_perOccurrence hl] at hsize ⊢
    refine ⟨hnew hsize, ?_⟩
    intro v hv _
    rw [List.mem_singleton.mp hv]
    exact Nat.le_of_eq (hadds.toNat_id hsize).symm
  | perValue =>
    cases hv : l.constants[value]? with
    | some v =>
      rw [constant_found hl hv]
      obtain ⟨hx, hlone⟩ := h.reused hl value v hv
      refine ⟨⟨h.valid, ?_, h.reused, h.ahead⟩, ?_⟩
      · exact h.accounted.use hx Variable.noConfusion fun _ _ => hlone
      · intro w hw haux
        rw [List.mem_singleton.mp hw] at haux
        cases hx.symm.trans haux
    | none =>
      rw [constant_new hl hv] at hsize ⊢
      have hid := hadds.toNat_id hsize
      refine ⟨⟨(hnew hsize).valid, (hnew hsize).accounted, ?_, (hnew hsize).ahead⟩, ?_⟩
      · intro _ other w hw
        rw [getElem?_insert_constant] at hw
        split at hw
        · next hother =>
          obtain rfl := hother
          obtain rfl := Option.some.inj hw
          refine ⟨?_, h.ahead hl _ (Nat.le_of_eq hid.symm)⟩
          exact (hadds.getElem?_vars hsize _).trans (if_pos rfl)
        · exact (hnew hsize).reused hl other w hw
      · intro w hw _
        rw [List.mem_singleton.mp hw]
        exact Nat.le_of_eq hid.symm

/-- The result is pending until its constraint is posted, over operands that are newer. -/
theorem define_leaves {l m : Lowering σ} {f : String} {ps : List Parameter} {ts : List Term}
    {vs : List VariableId} (hvalid : LawfulStore.Valid l.store)
    (hsize : (Store.vars (l.introduce .auxiliary).2.store).size ≤ UInt32.size)
    (h : Leaves (l.introduce .auxiliary).2 m (pending ++ [(l.introduce .auxiliary).1]) loose vs lone) :
    Leaves l (m.define (l.introduce .auxiliary).1 f ps ts vs) pending loose
      [(l.introduce .auxiliary).1] lone := by
  obtain ⟨hadds, _⟩ := LawfulStore.adds hvalid .auxiliary rfl
  obtain ⟨hposts, _⟩ :=
    LawfulStore.posts h.tidy.valid (.functional (l.introduce .auxiliary).1 f ps vs)
  have hid := hadds.toNat_id hsize
  refine ⟨?_, ?_⟩
  · refine h.tidy.grows (define_grows h.tidy.valid _ f ps ts vs) rfl rfl ?_
    refine Accounted.posts h.tidy.accounted hposts ?_
    intro v hv haux result hresult
    obtain rfl := Option.some.inj hresult
    have hrecent := h.recent v hv haux
    rw [introduce_store, hadds.vars, Array.size_push] at hrecent
    exact Nat.lt_of_lt_of_le (Nat.lt_of_le_of_lt (Nat.le_of_eq hid) (Nat.lt_succ_self _)) hrecent
  · intro v hv _
    rw [List.mem_singleton.mp hv]
    exact Nat.le_of_eq hid.symm

mutual

/-- An operand that is lowered is loose. -/
theorem operand_leaves : ∀ (t : Term) {l : Lowering σ} {pending loose : List VariableId},
    l.Tidy pending loose lone → (Store.vars (operand t l).2.store).size ≤ UInt32.size →
    Leaves l (operand t l).2 pending loose [(operand t l).1] lone
  | .name text, _, _, _, h, hsize => name_leaves text h hsize
  | .literal _ value, _, _, _, h, hsize => constant_leaves value h hsize
  | .application f ps ts, l, pending, loose, h, hsize => by
    have hresult := introduce_auxiliary_grows h.valid
    have hbelow := operands_grows ts hresult.valid
    have hsize₂ := Nat.le_trans (define_grows hbelow.valid _ f ps ts _).size_vars_le hsize
    have hsize₁ := Nat.le_trans hbelow.size_vars_le hsize₂
    have hpending := introduce_tidy .auxiliary rfl h hsize₁
    simp only [Variable.pending, Variable.loose, List.append_nil] at hpending
    exact define_leaves h.valid hsize₁ (operands_leaves ts hpending hsize₂)

/-- Operands that are lowered are loose, from left to right. -/
theorem operands_leaves : ∀ (ts : List Term) {l : Lowering σ} {pending loose : List VariableId},
    l.Tidy pending loose lone → (Store.vars (operands ts l).2.store).size ≤ UInt32.size →
    Leaves l (operands ts l).2 pending loose (operands ts l).1 lone
  | [], l, pending, loose, h, _ => by
    refine ⟨?_, ?_⟩
    · show l.Tidy pending (loose ++ []) lone
      rwa [List.append_nil]
    · intro v hv
      cases hv
  | t :: ts, l, pending, loose, h, hsize => by
    have hgrows := operand_grows t h.valid
    have hgrows' := operands_grows ts hgrows.valid
    have hfirst := operand_leaves t h (Nat.le_trans hgrows'.size_vars_le hsize)
    have hrest := operands_leaves ts hfirst.tidy hsize
    refine ⟨?_, ?_⟩
    · have htidy := hrest.tidy
      rwa [List.append_assoc] at htidy
    · intro v hv haux
      rcases List.mem_cons.mp hv with rfl | hv
      · -- What the first operand became is there already before the others.
        have hlt := hfirst.tidy.accounted.operand _
          (List.mem_append_right _ (List.mem_append_right _ (List.mem_singleton_self _)))
        refine hfirst.recent _ (List.mem_singleton_self _) ?_
        rw [← hgrows'.getElem?_vars hlt]
        exact haux
      · exact Nat.le_trans hgrows.size_vars_le (hrest.recent v hv haux)

end

theorem root_tidy (f : String) (ps : List Parameter) (ts : List Term) {l : Lowering σ}
    (h : l.Tidy pending loose lone)
    (hsize : (Store.vars (root f ps ts l).2.store).size ≤ UInt32.size) :
    (root f ps ts l).2.Tidy pending loose lone := by
  have hbelow := operands_grows ts h.valid
  obtain ⟨hposts, hvalid⟩ := LawfulStore.posts hbelow.valid (.general f ps (operands ts l).1)
  have hsize' : (Store.vars (operands ts l).2.store).size ≤ UInt32.size := hposts.vars ▸ hsize
  have hleaves := operands_leaves ts h hsize'
  refine hleaves.tidy.grows (hposts.grows hvalid) rfl rfl ?_
  have haccounted : Accounted (operands ts l).2.store
      (pending ++ (Constraint.general f ps (operands ts l).1).result?.toList)
      (loose ++ (operands ts l).1) lone := by
    rw [Constraint.result?, Option.toList_none, List.append_nil]
    exact hleaves.tidy.accounted
  have hposted := haccounted.posts hposts fun v _ _ result hresult => by cases hresult
  rwa [Constraint.result?, Option.toList_none, List.append_nil] at hposted

end Lowering

/-! ### Sessions -/

namespace Session

theorem Tidy.compile {s : Session σ} (h : s.Tidy pending loose lone) (text : String)
    (hsize : (Store.vars (s.compile text).2.store).size ≤ UInt32.size) :
    (s.compile text).2.Tidy pending loose lone := by
  rcases s.compile_cases text with ⟨e, he⟩ | ⟨f, ps, ts, _, heq⟩
  · rw [he]
    exact h
  · rw [heq] at hsize ⊢
    exact Lowering.root_tidy (l := {toSession := s}) f ps ts h hsize

theorem Tidy.serve (requests : List Request) {s : Session σ} (h : s.Tidy pending loose lone)
    (hsize : (Store.vars (s.serve requests).2.store).size ≤ UInt32.size) :
    (s.serve requests).2.Tidy pending loose lone := by
  have hkept : Kept fun s : Session σ => s.Tidy pending loose lone :=
    fun _ text _ hsize h => h.compile text hsize
  exact serve_keeps hkept requests h.valid hsize h

end Session

/-! ### Operations -/

/-- Which literals of an operation share a constant, if it compiles any. -/
def Operation.sharing? : Operation → Option Sharing
  | .intern _ => none
  | .post _ => some .perOccurrence
  | .session sharing _ => some sharing

namespace Store

/-- A new session has no constants yet. -/
theorem Accounted.tidy {s : σ} (h : Accounted s pending loose lone) (hvalid : LawfulStore.Valid s)
    (sharing : Sharing)
    (hahead : sharing = .perValue → ∀ v : VariableId, (vars s).size ≤ v.toNat → ¬lone v) :
    Session.Tidy {store := s, sharing} pending loose lone := by
  refine ⟨hvalid, h, ?_, hahead⟩
  intro _ value v hv
  simp at hv

/-- After an operation the new constants are lone if its literals share none. -/
theorem operate_accounted {s : σ} (hvalid : LawfulStore.Valid s) (h : Accounted s [] [] lone)
    (o : Operation) (hsize : (vars (operate s o)).size ≤ UInt32.size) :
    Accounted (operate s o) [] []
      (fun v => if v.toNat < (vars s).size then lone v else o.sharing? = some .perOccurrence) := by
  have hstart : Accounted s [] []
      (fun v => if v.toNat < (vars s).size then lone v else o.sharing? = some .perOccurrence) := by
    refine h.mono ?_
    intro v hv hlone
    rwa [if_pos hv] at hlone
  cases o with
  | intern name => exact (intern_accounted hvalid hstart name hsize).1
  | post text =>
    have htidy := hstart.tidy hvalid .perOccurrence fun hsharing => by cases hsharing
    exact (htidy.compile text hsize).accounted
  | session sharing requests =>
    have htidy := hstart.tidy hvalid sharing ?_
    · exact (htidy.serve requests hsize).accounted
    · rintro rfl v hv hlone
      rw [if_neg (Nat.not_lt.mpr hv)] at hlone
      cases hlone

/-- Operations leave what was lone before them as it was. -/
theorem operateAll_accounted (operations : List Operation) {s : σ} {lone : VariableId → Prop}
    (hvalid : LawfulStore.Valid s) (h : Accounted s [] [] lone)
    (hsize : (vars (operateAll s operations)).size ≤ UInt32.size) :
    Accounted (operateAll s operations) [] [] (fun v => v.toNat < (vars s).size ∧ lone v) := by
  have hkept : ∀ (t : σ) o, LawfulStore.Valid t → (vars (operate t o)).size ≤ UInt32.size →
      (vars s).size ≤ (vars t).size ∧ Accounted t [] [] (fun v => v.toNat < (vars s).size ∧ lone v) →
      (vars s).size ≤ (vars (operate t o)).size ∧
        Accounted (operate t o) [] [] (fun v => v.toNat < (vars s).size ∧ lone v) := by
    rintro t o ht hsize ⟨hle, h⟩
    refine ⟨Nat.le_trans hle (operate_grows o ht).size_vars_le, ?_⟩
    refine (operate_accounted ht h o hsize).mono ?_
    intro v _ hlone
    rwa [if_pos (Nat.lt_of_lt_of_le hlone.1 hle)]
  exact (operateAll_keeps hkept operations hvalid hsize
    ⟨Nat.le_refl _, h.mono fun _ _ hlone => hlone.2⟩).2

end Store

end

end ConstraintNet
