import ConstraintNet.Proofs.Store.Lasting

/-! The constraints that a variable is in.

A network tells them in order, and they are those with the variable in their scope
(`Network.mem_constraintsOf`).

What a text adds to them can be told from its term. The variable of a name joins one
constraint for each application that has the name among its operands, however often it is
there (`Term.occurrences`). A variable that is neither that of a name in the text nor a
constant that is used again joins none, for any other operand gets a variable of its own
(`Network.hold_compile_joins`). -/
namespace ConstraintNet

/-- The numbers of the applications in a term that have the name among their operands, if each
comes after those in its operands and the first has the number `k`. -/
def Term.occurrences (t : Term) (x : String) (k : Nat) : List ConstraintId :=
  ((t.applied.zipIdx k).filter fun a => a.1.operands.contains (.name x)).map fun a => .ofNat a.2

namespace Network
variable {n n' : Network} {v : VariableId}

/-! ### Questions -/

theorem mem_constraintsOf (hsize : n.constraints.size ≤ UInt32.size) {c : ConstraintId} :
    c ∈ n.constraintsOf v ↔
      ∃ k, n.constraintAt? c = some k ∧ (k.result? = some v ∨ v ∈ k.operands) := by
  have hnumber : ∀ i, i < n.constraints.toList.length → (ConstraintId.ofNat i).toNat = i :=
    fun i hi => ConstraintId.toNat_ofNat (Nat.lt_of_lt_of_le hi hsize)
  have hmem := mem_numbers (p := fun k : Constraint => k.involves v) hnumber
    ConstraintId.ofNat_toNat (j := c)
  simp only [Constraint.involves_iff, Array.getElem?_toList] at hmem
  exact hmem

/-- The constraints are told in order. -/
theorem pairwise_constraintsOf (hsize : n.constraints.size ≤ UInt32.size) :
    (n.constraintsOf v).Pairwise fun c d => c.toNat < d.toNat :=
  pairwise_numbers (p := fun k : Constraint => k.involves v) fun _ hi =>
    ConstraintId.toNat_ofNat (Nat.lt_of_lt_of_le hi hsize)

/-- Constraints that are added are told after those that were there. -/
theorem constraintsOf_append {cs : List Constraint}
    (h : n'.constraints.toList = n.constraints.toList ++ cs) :
    n'.constraintsOf v = n.constraintsOf v ++
      ((cs.zipIdx n.constraints.size).filter fun c => c.1.involves v).map fun c => .ofNat c.2 := by
  rw [constraintsOf, constraintsOf, h, List.zipIdx_append, List.filter_append, List.map_append,
    Nat.zero_add, Array.length_toList]

end Network

/-! ### Texts -/

section
variable {σ : Type} [Store σ] {s s' : Session σ} {t u : Term} {x : String} {v : VariableId} {p : Nat}

/-- A place that has the variable of a name has the name. -/
theorem Session.Lays.eq_name (h : s.Lays t s') (hsize : (Store.vars s'.store).size ≤ UInt32.size)
    (hx : firstNamed (Store.vars s'.store) x = some v) (hu : t.row[p]? = some u)
    (hp : s.numberAt t.row p = v) : u = .name x := by
  subst hp
  have hnamed := getElem?_of_firstNamed hsize hx
  cases u with
  | name y =>
    rw [getElem?_of_firstNamed hsize (h.names p y hu)] at hnamed
    cases hnamed
    rfl
  | literal text value =>
    rw [h.literals p text value hu] at hnamed
    cases hnamed
  | application f ps ts =>
    rw [h.results p f ps ts hu] at hnamed
    cases hnamed

/-- Where operands have their places, each of these places has one. -/
theorem exists_operand {row : List Term} {places : List Nat} {us : List Term}
    (hplaces : places.map (row[·]?) = us.map some) (hp : p ∈ places) :
    ∃ u ∈ us, row[p]? = some u := by
  have hmem : row[p]? ∈ us.map some := hplaces ▸ List.mem_map_of_mem hp
  obtain ⟨u, hu, heq⟩ := List.mem_map.mp hmem
  exact ⟨u, hu, heq.symm⟩

/-- The variable of a name is among those of operands exactly if the name is an operand. -/
theorem Session.Lays.mem_operands_iff (h : s.Lays t s')
    (hsize : (Store.vars s'.store).size ≤ UInt32.size)
    (hx : firstNamed (Store.vars s'.store) x = some v) {places : List Nat} {us : List Term}
    (hplaces : places.map (t.row[·]?) = us.map some) :
    v ∈ places.map (s.numberAt t.row) ↔ .name x ∈ us := by
  rw [List.mem_map]
  constructor
  · rintro ⟨p, hp, hv⟩
    obtain ⟨u, hus, hu⟩ := exists_operand hplaces hp
    rwa [← h.eq_name hsize hx hu hv]
  · intro hus
    have hmem : some (.name x) ∈ places.map (t.row[·]?) := hplaces ▸ List.mem_map_of_mem hus
    obtain ⟨p, hp, hu⟩ := List.mem_map.mp hmem
    have hnumber := h.names p x hu
    rw [hx] at hnumber
    exact ⟨p, hp, (Option.some.inj hnumber).symm⟩

/-- An application that has a constraint stands at its place. -/
theorem Session.Lays.application (h : s.Lays t s') {a : Term × Nat}
    (ha : a ∈ Term.applicationsOf t.operands 0) : a.1.isLeaf = false ∧ t.row[a.2]? = some a.1 := by
  obtain ⟨hrow, hleaf⟩ := List.mem_filter.mp (h.applications.subset ha)
  exact ⟨by simpa using hleaf, List.mem_zipIdx_iff_getElem?.mp hrow⟩

/-- The variable of a name is in the constraints of the applications with the name among their
operands. -/
theorem Session.Lays.map_involves (h : s.Lays t s')
    (hsize : (Store.vars s'.store).size ≤ UInt32.size)
    (hx : firstNamed (Store.vars s'.store) x = some v) :
    (t.constraints (s.numberAt t.row)).map (·.involves v) =
      t.applied.map fun a => a.operands.contains (.name x) := by
  have hbelow : ∀ a ∈ Term.applicationsOf t.operands 0,
      (Term.constraintAt (s.numberAt t.row) a).involves v = a.1.operands.contains (.name x) := by
    intro a ha
    obtain ⟨hleaf, hrow⟩ := h.application ha
    have hresult : s.numberAt t.row a.2 ≠ v := by
      intro heq
      rw [h.eq_name hsize hx hrow heq] at hleaf
      cases hleaf
    rw [Bool.eq_iff_iff, Constraint.involves_iff, List.contains_iff_mem,
      ← h.mem_operands_iff hsize hx (h.operands a ha)]
    exact or_iff_right fun heq => hresult (Option.some.inj heq)
  have hroot : (Constraint.general t.text t.parameters
      ((Term.placesOf t.operands 0).map (s.numberAt t.row))).involves v =
        t.operands.contains (.name x) := by
    rw [Bool.eq_iff_iff, Constraint.involves_iff, List.contains_iff_mem,
      ← h.mem_operands_iff hsize hx h.rootOperands]
    exact or_iff_right nofun
  rw [Term.constraints, Term.applied, List.map_append, List.map_append, List.map_map, List.map_map,
    List.map_singleton, List.map_singleton, hroot]
  exact congrArg (· ++ _) (List.map_congr_left hbelow)

/-- Constraints of a term are over variables of its places. -/
theorem Session.Lays.exists_place (h : s.Lays t s') {c : Constraint}
    (hc : c ∈ t.constraints (s.numberAt t.row)) (hv : c.involves v = true) :
    ∃ p u, t.row[p]? = some u ∧ s.numberAt t.row p = v := by
  have hoperand : ∀ {places : List Nat} {us : List Term}, places.map (t.row[·]?) = us.map some →
      v ∈ places.map (s.numberAt t.row) → ∃ p u, t.row[p]? = some u ∧ s.numberAt t.row p = v := by
    intro places us hplaces hmem
    obtain ⟨p, hp, heq⟩ := List.mem_map.mp hmem
    obtain ⟨u, -, hu⟩ := exists_operand hplaces hp
    exact ⟨p, u, hu, heq⟩
  rw [Constraint.involves_iff] at hv
  rcases List.mem_append.mp hc with hc | hc
  · obtain ⟨a, ha, rfl⟩ := List.mem_map.mp hc
    rcases hv with hresult | hmem
    · exact ⟨a.2, a.1, (h.application ha).2, Option.some.inj hresult⟩
    · exact hoperand (h.operands a ha) hmem
  · obtain rfl := List.mem_singleton.mp hc
    rcases hv with hresult | hmem
    · cases hresult
    · exact hoperand h.rootOperands hmem

end

/-! ### Sessions -/

/-- What becomes of the variables of `s` in the constraints that the term `t` adds to make `s'`. -/
structure Session.Joins (s : Session Network) (t : Term) (s' : Session Network) : Prop where
  /-- For each application there is one more constraint. -/
  constraints : ∃ cs, s'.store.constraints.toList = s.store.constraints.toList ++ cs ∧
    List.Forall₂ (Store.Resolves s.store s'.store) t.applied cs
  /-- A name joins those of the applications that it is an operand of. -/
  names : ∀ x v, Store.find? s'.store x = some v →
    s'.store.constraintsOf v =
      s.store.constraintsOf v ++ t.occurrences x s.store.constraints.size
  /-- A variable that was there joins none, unless it is that of a name in the text or a
  constant that is used again for a literal. -/
  others : ∀ v, v.toNat < s.store.vars.size → (∀ u ∈ t.row, s.held? u ≠ some v) →
    s'.store.constraintsOf v = s.store.constraintsOf v

section
variable {s : Session Network} {g : Ground} {os : List Origin} {ds : List Draft} {i : Nat}
  {text : String} {t u : Term} {v : VariableId} {p : Nat}

/-- A place has a variable that is new, or that is held for its operand. -/
theorem Session.Realises.numberAt_ne (h : s.Realises g os ds) (hi : NewText i os ds)
    (ht : stated text = .ok t) (hsize : (s.compile text).2.store.vars.size ≤ UInt32.size)
    (hv : v.toNat < s.store.vars.size) (hu : t.row[p]? = some u) (hheld : s.held? u ≠ some v) :
    s.numberAt t.row p ≠ v := by
  rintro rfl
  cases hw : s.held? u with
  | none =>
    have hle := h.le_numberAt (hi.ahead 1) (h.compile_row hi ht).store hsize hu hw
    exact absurd hv (Nat.not_lt.mpr hle)
  | some w =>
    refine hheld ?_
    rw [Session.numberAt, hu, Option.bind_some, hw, Option.getD_some]

theorem Session.Realises.joins (h : s.Realises g os ds) (hi : NewText i os ds)
    (ht : stated text = .ok t) (hconstants : ∀ value, g.constants value = none)
    (hnumbered : Store.Numbered (s.compile text).2.store) : s.Joins t (s.compile text).2 := by
  have hlays := h.lays hi ht hconstants hnumbered.vars
  have hgrows := Session.compile_grows text h.store.valid
  refine ⟨⟨_, hlays.constraints, hlays.resolves h.store.valid hgrows⟩, ?names, ?others⟩
  case names =>
    intro x v hx
    rw [LawfulStore.find?_eq hgrows.valid] at hx
    rw [Network.constraintsOf_append hlays.constraints,
      numbers_congr (hlays.map_involves hnumbered.vars hx)]
    rfl
  case others =>
    intro v hv hheld
    rw [Network.constraintsOf_append hlays.constraints, List.filter_eq_nil_iff.mpr]
    · exact List.append_nil _
    · intro c hc hinvolves
      have hmem := List.fst_mem_of_mem_zipIdx hc
      obtain ⟨p, u, hu, hp⟩ := hlays.exists_place hmem hinvolves
      exact h.numberAt_ne hi ht hnumbered.vars hv hu (hheld u (List.mem_of_getElem? hu)) hp

end

/-- **The constraints of a variable are those that it is in.** They are told in order, whatever
was done to the network. A text that is compiled adds to those of a name one for each application
that the name is an operand of. It adds none to those of any other variable that was there, unless
it is a constant that is used again. -/
theorem Network.hold_compile_joins {n : Network} (hreachable : Store.Reachable n) :
    (Store.Numbered n → ∀ v, (n.constraintsOf v).Pairwise (fun c d => c.toNat < d.toNat) ∧
      ∀ c, c ∈ n.constraintsOf v ↔
        ∃ k, n.constraintAt? c = some k ∧ (k.result? = some v ∨ v ∈ k.operands)) ∧
    ∀ (sharing : Sharing) (requests : List Request) (s : Session Network),
      (Store.hold n sharing requests).2 = s → ∀ text c, (s.compile text).1 = .ok c →
        Store.Numbered (s.compile text).2.store →
          ∃ t, Term.parse text = .ok t ∧ s.Joins t (s.compile text).2 := by
  refine ⟨fun hnumbered v => ⟨pairwise_constraintsOf hnumbered.constraints,
    fun c => mem_constraintsOf hnumbered.constraints⟩, ?_⟩
  intro sharing requests s hs text c hc hnumbered
  obtain ⟨_, ds, i, -, h, hi⟩ := Store.hold_realises hreachable sharing requests
  rw [hs] at h
  obtain ⟨t, ht⟩ := s.exists_stated hc
  have hnone := Ground.constants_ground n sharing
  exact ⟨t, (stated_eq_ok_iff.mp ht).1, h.joins hi ht hnone hnumbered⟩

/-- "lt(x,sub(abs(sub(x,x)),2))" once "lt(x,2)" has been compiled. The `x` is twice an operand of
the first application and once of the last. Nothing is added to the constraint of the `7`. -/
theorem Network.hold_compile_joins_difference :
    let s := (Store.hold equation .perValue [.compile "lt(x,2)", .compile "neq(x"]).2
    let s' := (s.compile "lt(x,sub(abs(sub(x,x)),2))").2
    Store.Reachable equation ∧ Store.Numbered equation ∧
      (∀ c, c ∈ equation.constraintsOf (.ofNat 1) ↔ ∃ k, equation.constraintAt? c = some k ∧
        (k.result? = some (.ofNat 1) ∨ .ofNat 1 ∈ k.operands)) ∧
      (s.compile "lt(x,sub(abs(sub(x,x)),2))").1 = .ok (.ofNat 5) ∧ Store.Numbered s'.store ∧
      s'.store.constraintsOf (.ofNat 0) =
        s.store.constraintsOf (.ofNat 0) ++ [.ofNat 2, .ofNat 5] ∧
      s'.store.constraintsOf (.ofNat 1) = s.store.constraintsOf (.ofNat 1) := by
  intro s s'
  have hreachable : Store.Reachable equation := ⟨_, rfl⟩
  have hnumbered : Store.Numbered equation := ⟨by decide +kernel, by decide +kernel⟩
  have hcompiled : (s.compile "lt(x,sub(abs(sub(x,x)),2))").1 = .ok (.ofNat 5) := by decide +kernel
  have hnumbered' : Store.Numbered s'.store := ⟨by decide +kernel, by decide +kernel⟩
  obtain ⟨htold, hjoins⟩ := hold_compile_joins hreachable
  obtain ⟨t, hparse, h⟩ := hjoins .perValue [.compile "lt(x,2)", .compile "neq(x"] s rfl _ _
    hcompiled hnumbered'
  have hterm : Term.parse "lt(x,sub(abs(sub(x,x)),2))" = .ok (.application "lt" []
      [.name "x", .application "sub" [] [.application "abs" []
        [.application "sub" [] [.name "x", .name "x"]], .literal "2" 2]]) := by decide +kernel
  obtain rfl := Except.ok.inj (hparse.symm.trans hterm)
  have hoccurrences : Term.occurrences (.application "lt" []
      [.name "x", .application "sub" [] [.application "abs" []
        [.application "sub" [] [.name "x", .name "x"]], .literal "2" 2]]) "x"
      s.store.constraints.size = [.ofNat 2, .ofNat 5] := by decide +kernel
  refine ⟨hreachable, hnumbered, (htold hnumbered _).2, hcompiled, hnumbered', ?_, ?_⟩
  · rw [← hoccurrences]
    exact h.names "x" (.ofNat 0) (by decide +kernel)
  · exact h.others (.ofNat 1) (by decide +kernel) (by decide +kernel)

end ConstraintNet
