import ConstraintNet.Proofs.Compile.Growth
import ConstraintNet.Proofs.Meaning.Explanation

/-! A lowering explains what it registers.

Whatever a lowering adds to a store that has an explanation, it comes with its own:
a result is explained by the application it is introduced for, which is known
before anything below it is lowered. So the explanation is complete at every
moment, while of the results only those are defined whose operands are done; that
is why definedness is counted from where a term began (`DefinedFrom`).

All this needs numbers that are not used twice, hence no more variables in the
end than there are numbers. -/
namespace ConstraintNet
open Store (Adds Posts Grows)

section
variable {σ : Type} [Store σ]

/-! ### Registrations -/

theorem Explains.adds {s : σ} {terms roots : List Term} (h : Explains s terms roots) {x : Variable}
    {r : Registered σ VariableId} (hr : Adds s x r) {t : Term} (ht : x.Fits t) :
    Explains r.store (terms ++ [t]) roots := by
  have hkept : terms <+: terms ++ [t] := List.prefix_append ..
  refine ⟨?_, ?_, ?_, ?_, ?_⟩
  · rw [hr.vars, List.length_append, Array.size_push, h.length]
    rfl
  · intro i y u hy hu
    rw [hr.vars, Array.getElem?_push] at hy
    split at hy
    · next hi =>
      rw [hi, ← h.length, List.getElem?_concat_length] at hu
      rwa [← Option.some.inj hy, ← Option.some.inj hu]
    · obtain ⟨hlt, _⟩ := Array.getElem?_eq_some_iff.mp hy
      rw [List.getElem?_append_left (h.length ▸ hlt)] at hu
      exact h.fits i y u hy hu
  · intro c hc v hresult
    obtain ⟨u, hu, hv⟩ := h.result c (hr.constraints ▸ hc) v hresult
    exact ⟨u, hu.mono hkept, hv.mono hkept⟩
  · intro c hc hresult
    obtain ⟨u, hroot, hu⟩ := h.general c (hr.constraints ▸ hc) hresult
    exact ⟨u, hroot, hu.mono hkept⟩
  · intro u hroot
    obtain ⟨c, hc, hresult, hu⟩ := h.posted u hroot
    exact ⟨c, hr.constraints ▸ hc, hresult, hu.mono hkept⟩

/-- The new variable stands for the term put last, if its number is its own. -/
theorem Explains.standsFor_id {s : σ} {terms roots : List Term} (h : Explains s terms roots)
    {x : Variable} {r : Registered σ VariableId} (hr : Adds s x r) (t : Term)
    (hsize : (Store.vars r.store).size ≤ UInt32.size) : StandsFor (terms ++ [t]) r.id t := by
  rw [hr.vars, Array.size_push] at hsize
  rw [StandsFor, hr.id, VariableId.toNat_ofNat (by omega), ← h.length, List.getElem?_concat_length]

/-- A constraint may be posted that states what its result stands for, or else what
becomes a root. -/
theorem Explains.posts {s : σ} {terms roots more : List Term} (h : Explains s terms roots)
    {c : Constraint} {r : Registered σ ConstraintId} (hr : Posts s c r)
    (hresult : ∀ v, c.result? = some v → ∃ t, c.States terms t ∧ StandsFor terms v t)
    (hgeneral : c.result? = none → ∃ t ∈ more, c.States terms t)
    (hmore : ∀ t ∈ more, c.result? = none ∧ c.States terms t) :
    Explains r.store terms (roots ++ more) := by
  refine ⟨?_, ?_, ?_, ?_, ?_⟩
  · rw [hr.vars, h.length]
  · rw [hr.vars]
    exact h.fits
  · intro d hd v hv
    rw [hr.constraints, Array.mem_push] at hd
    rcases hd with hd | rfl
    · exact h.result d hd v hv
    · exact hresult v hv
  · intro d hd hnone
    rw [hr.constraints, Array.mem_push] at hd
    rcases hd with hd | rfl
    · obtain ⟨t, ht, hstates⟩ := h.general d hd hnone
      exact ⟨t, List.mem_append_left _ ht, hstates⟩
    · obtain ⟨t, ht, hstates⟩ := hgeneral hnone
      exact ⟨t, List.mem_append_right _ ht, hstates⟩
  · intro t ht
    rcases List.mem_append.mp ht with ht | ht
    · obtain ⟨d, hd, hnone⟩ := h.posted t ht
      exact ⟨d, hr.constraints ▸ Array.mem_push_of_mem _ hd, hnone⟩
    · exact ⟨c, hr.constraints ▸ Array.mem_push_self, hmore t ht⟩

/-! ### Definedness -/

theorem DefinedFrom.trans [LawfulStore σ] {s t : σ} {n : Nat} (h : DefinedFrom s n)
    (hgrows : Grows s t) (h' : DefinedFrom t (Store.vars s).size) : DefinedFrom t n := by
  intro i hn hi
  by_cases hlt : i < (Store.vars s).size
  · rw [hgrows.getElem?_vars hlt] at hi
    obtain ⟨c, hc, hresult⟩ := h i hn hi
    exact ⟨c, hgrows.mem_constraints hc, hresult⟩
  · exact h' i (Nat.le_of_not_lt hlt) hi

theorem definedFrom_size (s : σ) : DefinedFrom s (Store.vars s).size := by
  intro i hn hi
  rw [Array.getElem?_eq_none hn] at hi
  cases hi

/-- Nothing is owed for a variable that is not auxiliary. -/
theorem Store.Adds.definedFrom {s : σ} {x : Variable} {r : Registered σ VariableId} (hr : Adds s x r)
    (hx : x ≠ .auxiliary) : DefinedFrom r.store (Store.vars s).size := by
  intro i hn hi
  rw [hr.vars, Array.getElem?_push] at hi
  split at hi
  · exact absurd (Option.some.inj hi) hx
  · rw [Array.getElem?_eq_none hn] at hi
    cases hi

/-! ### Operands -/

variable [LawfulStore σ]

/-- An explanation of the store in which the constants of the session have their
values. -/
structure Session.Explained (s : Session σ) (terms roots : List Term) : Prop where
  explains : Explains s.store terms roots
  constants : ∀ value v, s.constants[value]? = some v → StandsFor terms v (.integer value)

/-- From `l` to `m` the explanation has grown, and all new results are defined. -/
structure Lowering.Lowers (l m : Lowering σ) (terms terms' roots : List Term) : Prop where
  kept : terms <+: terms'
  explained : m.Explained terms' roots
  defined : DefinedFrom m.store (Store.vars l.store).size

namespace Lowering

theorem name_lowers (text : String) {l : Lowering σ} {terms roots : List Term}
    (hvalid : LawfulStore.Valid l.store) (h : l.Explained terms roots)
    (hsize : (Store.vars (operand (.name text) l).2.store).size ≤ UInt32.size) :
    ∃ terms', Lowers l (operand (.name text) l).2 terms terms' roots ∧
      StandsFor terms' (operand (.name text) l).1 (.name text) := by
  simp only [operand, take_fst, take_store] at hsize ⊢
  cases hfind : Store.find? l.store text with
  | some v =>
    obtain ⟨hid, hstore⟩ := LawfulStore.intern_found hvalid hfind
    rw [hstore] at hsize
    rw [LawfulStore.find?_eq hvalid] at hfind
    refine ⟨terms, ⟨List.prefix_rfl, ⟨?_, h.constants⟩, ?_⟩, ?_⟩
    · rw [take_store, hstore]
      exact h.explains
    · rw [take_store, hstore]
      exact definedFrom_size l.store
    · rw [hid]
      exact h.explains.named (getElem?_of_firstNamed hsize hfind)
  | none =>
    obtain ⟨hadds, _⟩ := LawfulStore.intern_new hvalid hfind
    refine ⟨terms ++ [.name text], ⟨List.prefix_append .., ⟨?_, ?_⟩, ?_⟩, ?_⟩
    · exact h.explains.adds hadds rfl
    · intro value v hv
      exact (h.constants value v hv).mono (List.prefix_append ..)
    · exact hadds.definedFrom Variable.noConfusion
    · exact h.explains.standsFor_id hadds _ hsize

theorem constant_lowers (value : Int64) {l : Lowering σ} {terms roots : List Term}
    (hvalid : LawfulStore.Valid l.store) (h : l.Explained terms roots)
    (hsize : (Store.vars (l.constant value).2.store).size ≤ UInt32.size) :
    ∃ terms', Lowers l (l.constant value).2 terms terms' roots ∧
      StandsFor terms' (l.constant value).1 (.integer value) := by
  rcases l.constant_cases value with ⟨v, hv, heq⟩ | ⟨hid, hstore, hconstants⟩
  · rw [heq]
    exact ⟨terms, ⟨List.prefix_rfl, h, definedFrom_size l.store⟩, h.constants value v hv⟩
  · obtain ⟨hadds, _⟩ := LawfulStore.adds hvalid (.constant value) rfl
    have hkept : terms <+: terms ++ [.integer value] := List.prefix_append ..
    rw [hstore, introduce_store] at hsize
    have hnew := h.explains.standsFor_id hadds (.integer value) hsize
    refine ⟨terms ++ [.integer value], ⟨hkept, ⟨?_, ?_⟩, ?_⟩, ?_⟩
    · rw [hstore]
      exact h.explains.adds hadds rfl
    · intro other v hv
      rcases hconstants with hconstants | hconstants
      · rw [hconstants] at hv
        exact (h.constants other v hv).mono hkept
      · rw [hconstants, getElem?_insert_constant] at hv
        split at hv
        · next hother =>
          obtain rfl := Option.some.inj hv
          exact hother ▸ hnew
        · exact (h.constants other v hv).mono hkept
    · rw [hstore]
      exact hadds.definedFrom Variable.noConfusion
    · rw [hid]
      exact hnew

theorem introduce_auxiliary_explained (t : Term) {l : Lowering σ} {terms roots : List Term}
    (hvalid : LawfulStore.Valid l.store) (h : l.Explained terms roots)
    (hsize : (Store.vars (l.introduce .auxiliary).2.store).size ≤ UInt32.size) :
    (l.introduce .auxiliary).2.Explained (terms ++ [t]) roots ∧
      StandsFor (terms ++ [t]) (l.introduce .auxiliary).1 t := by
  obtain ⟨hadds, _⟩ := LawfulStore.adds hvalid .auxiliary rfl
  refine ⟨⟨h.explains.adds hadds trivial, ?_⟩, h.explains.standsFor_id hadds t hsize⟩
  intro value v hv
  exact (h.constants value v hv).mono (List.prefix_append ..)

/-- The result is defined once its operands are lowered. -/
theorem define_lowers {l m : Lowering σ} {f : String} {ps : List Parameter} {ts us : List Term}
    {vs : List VariableId} {terms terms₁ terms' roots : List Term}
    (hvalid : LawfulStore.Valid l.store) (hvalid' : LawfulStore.Valid m.store)
    (hkept : terms <+: terms₁) (h : Lowers (l.introduce .auxiliary).2 m terms₁ terms' roots)
    (hv : StandsFor terms' (l.introduce .auxiliary).1 (.application f ps us))
    (hvs : StandFor terms' vs us) :
    Lowers l (m.define (l.introduce .auxiliary).1 f ps ts vs) terms terms' roots := by
  obtain ⟨hadds, _⟩ := LawfulStore.adds hvalid .auxiliary rfl
  obtain ⟨hposts, _⟩ :=
    LawfulStore.posts hvalid' (.functional (l.introduce .auxiliary).1 f ps vs)
  refine ⟨hkept.trans h.kept, ⟨?_, h.explained.constants⟩, ?_⟩
  · rw [← List.append_nil roots]
    refine h.explained.explains.posts hposts ?_ ?_ ?_
    · intro v heq
      obtain rfl := Option.some.inj heq
      exact ⟨_, ⟨us, rfl, hvs⟩, hv⟩
    · intro hnone
      cases hnone
    · intro t ht
      cases ht
  · intro i hn hi
    by_cases hfirst : i = (Store.vars l.store).size
    · refine ⟨.functional (l.introduce .auxiliary).1 f ps vs, ?_, ?_⟩
      · exact hposts.constraints ▸ Array.mem_push_self
      · rw [hfirst, ← hadds.id]
        rfl
    · have hlater : (Store.vars (l.introduce .auxiliary).2.store).size ≤ i := by
        rw [introduce_store, hadds.vars, Array.size_push]
        omega
      obtain ⟨c, hc, hresult⟩ := h.defined i hlater (hposts.vars ▸ hi)
      exact ⟨c, hposts.constraints ▸ Array.mem_push_of_mem _ hc, hresult⟩

mutual

/-- An operand comes out as a variable that stands for it, literals in plain form. -/
theorem operand_lowers : ∀ (t : Term) {l : Lowering σ} {terms roots : List Term},
    LawfulStore.Valid l.store → l.Explained terms roots →
    (Store.vars (operand t l).2.store).size ≤ UInt32.size →
    ∃ terms', Lowers l (operand t l).2 terms terms' roots ∧
      StandsFor terms' (operand t l).1 t.plain
  | .name text, _, _, _, hvalid, h, hsize => name_lowers text hvalid h hsize
  | .literal _ value, _, _, _, hvalid, h, hsize => constant_lowers value hvalid h hsize
  | .application f ps ts, l, terms, roots, hvalid, h, hsize => by
    have hresult := introduce_auxiliary_grows hvalid
    have hbelow := operands_grows ts hresult.valid
    have hsize₂ := Nat.le_trans (define_grows hbelow.valid _ f ps ts _).size_vars_le hsize
    have hsize₁ := Nat.le_trans hbelow.size_vars_le hsize₂
    -- The whole application explains the result before its operands are lowered.
    obtain ⟨hexplained, hv⟩ :=
      introduce_auxiliary_explained (Term.plain (.application f ps ts)) hvalid h hsize₁
    obtain ⟨terms', hlowers, hvs⟩ := operands_lowers ts hresult.valid hexplained hsize₂
    have hv' := hv.mono hlowers.kept
    exact ⟨terms', define_lowers hvalid hbelow.valid (List.prefix_append ..) hlowers hv' hvs, hv'⟩

theorem operands_lowers : ∀ (ts : List Term) {l : Lowering σ} {terms roots : List Term},
    LawfulStore.Valid l.store → l.Explained terms roots →
    (Store.vars (operands ts l).2.store).size ≤ UInt32.size →
    ∃ terms', Lowers l (operands ts l).2 terms terms' roots ∧
      StandFor terms' (operands ts l).1 (Term.plainAll ts)
  | [], l, terms, _, _, h, _ => ⟨terms, ⟨List.prefix_rfl, h, definedFrom_size l.store⟩, rfl⟩
  | t :: ts, l, terms, roots, hvalid, h, hsize => by
    have hgrows := operand_grows t hvalid
    have hgrows' := operands_grows ts hgrows.valid
    have hsize₁ := Nat.le_trans hgrows'.size_vars_le hsize
    obtain ⟨terms₁, hfirst, hv⟩ := operand_lowers t hvalid h hsize₁
    obtain ⟨terms₂, hrest, hvs⟩ := operands_lowers ts hgrows.valid hfirst.explained hsize
    refine ⟨terms₂, ⟨hfirst.kept.trans hrest.kept, hrest.explained, ?_⟩, ?_⟩
    · exact hfirst.defined.trans hgrows' hrest.defined
    · exact standFor_cons.mpr ⟨hv.mono hrest.kept, hvs⟩

end

end Lowering

end

end ConstraintNet
