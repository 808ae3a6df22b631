import ConstraintNet.Proofs.Meaning.Interpretation

/-! Explanations of a store.

An explanation lists a term for each variable, in order of registration: a name
for itself, a constant for its literal, and an auxiliary variable for the
application whose result it is (`Explains`). The operands of a constraint stand
for the operands of its application, so each result is explained by smaller
terms and nothing is defined in a circle. The roots are the terms that were
compiled, each of which is a general constraint and the other way round.

With an explanation a store is solved by the values of the terms and by nothing
else: they do solve it if the roots hold (`Explains.solves`), and whatever solves
it gives each variable the value of its term, so long as every auxiliary variable
is a result (`Explains.value_eq`). -/
namespace ConstraintNet

/-- The variable is explained by the term. -/
def StandsFor (terms : List Term) (v : VariableId) (t : Term) : Prop :=
  terms[v.toNat]? = some t

/-- The variables are explained by the terms, one by one. -/
def StandFor (terms : List Term) (vs : List VariableId) (ts : List Term) : Prop :=
  vs.map (fun v => terms[v.toNat]?) = ts.map some

/-- The term that a constraint states: its operator over what its operands stand for. -/
def Constraint.States (terms : List Term) (c : Constraint) (t : Term) : Prop :=
  ∃ ts, t = .application c.operator c.parameters ts ∧ StandFor terms c.operands ts

/-- What may explain a variable: only an auxiliary one is free to choose. -/
def Variable.Fits : Variable → Term → Prop
  | .named name, t => t = .name name
  | .constant value, t => t = .integer value
  | .auxiliary, _ => True

section Explanations
variable {σ : Type} [Store σ]

/-- The `terms` explain the variables, and the constraints state the terms of their
results and the roots. -/
structure Explains (s : σ) (terms roots : List Term) : Prop where
  length : terms.length = (Store.vars s).size
  fits : ∀ (i : Nat) x t, (Store.vars s)[i]? = some x → terms[i]? = some t → x.Fits t
  result : ∀ c ∈ Store.constraints s, ∀ v, c.result? = some v →
    ∃ t, c.States terms t ∧ StandsFor terms v t
  general : ∀ c ∈ Store.constraints s, c.result? = none → ∃ t ∈ roots, c.States terms t
  posted : ∀ t ∈ roots, ∃ c ∈ Store.constraints s, c.result? = none ∧ c.States terms t

/-- The auxiliary variables from the place `n` on are results. -/
def DefinedFrom (s : σ) (n : Nat) : Prop :=
  ∀ i, n ≤ i → (Store.vars s)[i]? = some .auxiliary →
    ∃ c ∈ Store.constraints s, c.result? = some (.ofNat i)

theorem Explains.fits_of {s : σ} {terms roots : List Term} (h : Explains s terms roots)
    {i : Nat} {x : Variable} (hx : (Store.vars s)[i]? = some x) :
    ∃ t, terms[i]? = some t ∧ x.Fits t := by
  obtain ⟨hlt, _⟩ := Array.getElem?_eq_some_iff.mp hx
  have ht := List.getElem?_eq_getElem (l := terms) (h.length ▸ hlt)
  exact ⟨_, ht, h.fits _ _ _ hx ht⟩

theorem Explains.named {s : σ} {terms roots : List Term} (h : Explains s terms roots)
    {v : VariableId} {name : String} (hx : (Store.vars s)[v.toNat]? = some (.named name)) :
    StandsFor terms v (.name name) := by
  obtain ⟨t, ht, rfl⟩ := h.fits_of hx
  exact ht

theorem Explains.constant {s : σ} {terms roots : List Term} (h : Explains s terms roots)
    {v : VariableId} {value : Int64} (hx : (Store.vars s)[v.toNat]? = some (.constant value)) :
    StandsFor terms v (.integer value) := by
  obtain ⟨t, ht, rfl⟩ := h.fits_of hx
  exact ht

/-! ### Longer explanations -/

theorem StandsFor.mono {terms terms' : List Term} (h : terms <+: terms') {v : VariableId} {t : Term}
    (hv : StandsFor terms v t) : StandsFor terms' v t := by
  obtain ⟨more, rfl⟩ := h
  obtain ⟨hlt, _⟩ := List.getElem?_eq_some_iff.mp hv
  rw [StandsFor, List.getElem?_append_left hlt]
  exact hv

theorem standFor_cons {terms : List Term} {v : VariableId} {t : Term} {vs : List VariableId}
    {ts : List Term} :
    StandFor terms (v :: vs) (t :: ts) ↔ StandsFor terms v t ∧ StandFor terms vs ts := by
  simp only [StandFor, StandsFor, List.map_cons, List.cons.injEq]

theorem StandFor.mono {terms terms' : List Term} (h : terms <+: terms') {vs : List VariableId}
    {ts : List Term} (hv : StandFor terms vs ts) : StandFor terms' vs ts := by
  induction vs generalizing ts with
  | nil => exact hv
  | cons v vs ih =>
    cases ts with
    | nil => cases hv
    | cons t ts =>
      obtain ⟨hfirst, hrest⟩ := standFor_cons.mp hv
      exact standFor_cons.mpr ⟨hfirst.mono h, ih hrest⟩

theorem Constraint.States.mono {terms terms' : List Term} (h : terms <+: terms') {c : Constraint}
    {t : Term} (ht : c.States terms t) : c.States terms' t := by
  obtain ⟨ts, hroot, hvs⟩ := ht
  exact ⟨ts, hroot, hvs.mono h⟩

/-! ### Values -/

/-- Where a variable comes from, by what explains it. -/
theorem Explains.origin {s : σ} {terms roots : List Term} (h : Explains s terms roots)
    (hdef : DefinedFrom s 0) {v : VariableId} {t : Term} (hv : StandsFor terms v t) :
    (∃ name, (Store.vars s)[v.toNat]? = some (.named name) ∧ t = .name name) ∨
      (∃ value, (Store.vars s)[v.toNat]? = some (.constant value) ∧ t = .integer value) ∨
      ∃ c ∈ Store.constraints s, c.result? = some v ∧ c.States terms t := by
  have hlt : v.toNat < (Store.vars s).size := h.length ▸ (List.getElem?_eq_some_iff.mp hv).1
  have hx := Array.getElem?_eq_getElem hlt
  generalize (Store.vars s)[v.toNat] = x at hx
  cases x with
  | named name => exact .inl ⟨name, hx, h.fits _ _ _ hx hv⟩
  | constant value => exact .inr (.inl ⟨value, hx, h.fits _ _ _ hx hv⟩)
  | auxiliary =>
    obtain ⟨c, hc, hresult⟩ := hdef _ (Nat.zero_le _) hx
    rw [VariableId.ofNat_toNat] at hresult
    obtain ⟨u, hu, hvu⟩ := h.result c hc v hresult
    obtain rfl := Option.some.inj (hv.symm.trans hvu)
    exact .inr (.inr ⟨c, hc, hresult, hu⟩)

section Values
variable {D : Type} (I : Interpretation D) (names : String → D) {s : σ} {terms roots : List Term}

mutual

/-- Whatever solves a store gives each variable the value of its term. -/
theorem Explains.value_eq (h : Explains s terms roots) (hdef : DefinedFrom s 0)
    {values : VariableId → D} (hs : Store.Solves I s names values) :
    ∀ (t : Term) (v : VariableId), StandsFor terms v t → values v = t.eval I names
  | .name _, v, hv => by
    rcases h.origin hdef hv with ⟨_, hx, ht⟩ | ⟨_, _, ht⟩ | ⟨_, _, _, _, ht, _⟩
    · cases ht
      exact hs.named v _ hx
    · cases ht
    · cases ht
  | .literal _ _, v, hv => by
    rcases h.origin hdef hv with ⟨_, _, ht⟩ | ⟨_, hx, ht⟩ | ⟨_, _, _, _, ht, _⟩
    · cases ht
    · cases ht
      exact hs.constant v _ hx
    · cases ht
  | .application _ _ ts, v, hv => by
    rcases h.origin hdef hv with ⟨_, _, ht⟩ | ⟨_, _, ht⟩ | ⟨c, hc, hresult, _, ht, hvs⟩
    · cases ht
    · cases ht
    · cases ht
      have hholds := hs.constraint c hc
      rw [Constraint.Holds, hresult] at hholds
      rw [hholds, Term.eval, h.values_eq hdef hs ts c.operands hvs]

theorem Explains.values_eq (h : Explains s terms roots) (hdef : DefinedFrom s 0)
    {values : VariableId → D} (hs : Store.Solves I s names values) :
    ∀ (ts : List Term) (vs : List VariableId), StandFor terms vs ts →
      vs.map values = Term.evalAll I names ts
  | [], [], _ => rfl
  | t :: ts, v :: vs, hv => by
    obtain ⟨hfirst, hrest⟩ := standFor_cons.mp hv
    rw [List.map_cons, Term.evalAll, h.value_eq hdef hs t v hfirst, h.values_eq hdef hs ts vs hrest]
  | [], _ :: _, hv => by cases hv
  | _ :: _, [], hv => by cases hv

end

/-- The value of the term that explains a variable. -/
def valueOf (terms : List Term) (v : VariableId) : D :=
  (terms[v.toNat]?.map (Term.eval I names)).getD (I.integer 0)

theorem valueOf_eq {v : VariableId} {t : Term} (h : StandsFor terms v t) :
    valueOf I names terms v = t.eval I names := by
  have ht : terms[v.toNat]? = some t := h
  rw [valueOf, ht]
  rfl

theorem map_valueOf {vs : List VariableId} {ts : List Term} (h : StandFor terms vs ts) :
    vs.map (valueOf I names terms) = Term.evalAll I names ts := by
  induction vs generalizing ts with
  | nil =>
    cases ts with
    | nil => rfl
    | cons => cases h
  | cons v vs ih =>
    cases ts with
    | nil => cases h
    | cons t ts =>
      obtain ⟨hfirst, hrest⟩ := standFor_cons.mp h
      rw [List.map_cons, Term.evalAll, valueOf_eq I names hfirst, ih hrest]

/-- If the roots hold, the values of the terms solve the store. -/
theorem Explains.solves (h : Explains s terms roots) (hroots : ∀ t ∈ roots, t.Holds I names) :
    Store.Solves I s names (valueOf I names terms) where
  named v name hv := valueOf_eq I names (h.named hv)
  constant v value hv := valueOf_eq I names (h.constant hv)
  constraint c hc := by
    unfold Constraint.Holds
    split
    · next v hresult =>
      obtain ⟨t, ⟨ts, rfl, hvs⟩, hv⟩ := h.result c hc v hresult
      rw [map_valueOf I names hvs, valueOf_eq I names hv]
      rfl
    · next hresult =>
      obtain ⟨t, ht, ts, rfl, hvs⟩ := h.general c hc hresult
      rw [map_valueOf I names hvs]
      exact hroots _ ht

/-- A store that is solved is one whose roots hold. -/
theorem Explains.holds (h : Explains s terms roots) (hdef : DefinedFrom s 0)
    {values : VariableId → D} (hs : Store.Solves I s names values) : ∀ t ∈ roots, t.Holds I names := by
  intro t ht
  obtain ⟨c, hc, hresult, ts, rfl, hvs⟩ := h.posted t ht
  have hholds := hs.constraint c hc
  rw [Constraint.Holds, hresult] at hholds
  rw [Term.Holds, ← h.values_eq I names hdef hs ts c.operands hvs]
  exact hholds

end Values

end Explanations

end ConstraintNet
