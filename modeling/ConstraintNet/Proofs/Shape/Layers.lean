import ConstraintNet.Proofs.Shape.Scope
import Mathlib.Logic.ExistsUnique
import Mathlib.Logic.Relation

/-! The shape of a network.

In a store that operations built up, every auxiliary variable is defined by one
constraint and used at one place, by a later constraint; only auxiliary variables
are defined at all; and so nothing is defined in a circle (`Store.Layered`,
`Store.operateAll_layered`). All of it is read off the accounts, which are closed
when no text is being compiled (`Store.Accounted.layered`). -/
namespace ConstraintNet
open Store (Accounted)

/-! ### What counts once has one place -/

theorem existsUnique_getElem? {α : Type} [DecidableEq α] {l : List α} {a : α} (h : l.count a = 1) :
    ∃! i : Nat, l[i]? = some a := by
  induction l with
  | nil => cases h
  | cons x l ih =>
    by_cases hx : x = a
    · subst hx
      rw [List.count_cons_self] at h
      have hnone : x ∉ l := List.count_eq_zero.mp (by omega)
      refine ⟨0, rfl, ?_⟩
      intro i hi
      cases i with
      | zero => rfl
      | succ i =>
        rw [List.getElem?_cons_succ] at hi
        exact absurd (List.mem_of_getElem? hi) hnone
    · rw [List.count_cons_of_ne hx] at h
      obtain ⟨i, hi, hunique⟩ := ih h
      refine ⟨i + 1, hi, ?_⟩
      intro j hj
      cases j with
      | zero => exact absurd (Option.some.inj hj) hx
      | succ j => rw [hunique j hj]

theorem existsUnique_flatMap {α β : Type} [DecidableEq β] {l : List α} {f : α → List β} {b : β}
    (h : (l.flatMap f).count b = 1) :
    ∃! p : Nat × Nat, ∃ a, l[p.1]? = some a ∧ (f a)[p.2]? = some b := by
  induction l with
  | nil => cases h
  | cons x l ih =>
    rw [List.flatMap_cons, List.count_append] at h
    have hcases : (f x).count b = 1 ∧ (l.flatMap f).count b = 0 ∨
        (f x).count b = 0 ∧ (l.flatMap f).count b = 1 := by omega
    rcases hcases with ⟨hfirst, hrest⟩ | ⟨hfirst, hrest⟩
    · obtain ⟨j, hj, hunique⟩ := existsUnique_getElem? hfirst
      refine ⟨(0, j), ⟨x, rfl, hj⟩, ?_⟩
      rintro ⟨i, j'⟩ ⟨a, ha, hb⟩
      cases i with
      | zero =>
        obtain rfl := Option.some.inj ha
        rw [hunique j' hb]
      | succ i =>
        have hmem : b ∈ l.flatMap f :=
          List.mem_flatMap.mpr ⟨a, List.mem_of_getElem? ha, List.mem_of_getElem? hb⟩
        exact absurd hmem (List.count_eq_zero.mp hrest)
    · obtain ⟨⟨i, j⟩, ⟨a, ha, hb⟩, hunique⟩ := ih hrest
      refine ⟨(i + 1, j), ⟨a, ha, hb⟩, ?_⟩
      rintro ⟨i', j'⟩ ⟨a', ha', hb'⟩
      cases i' with
      | zero =>
        obtain rfl := Option.some.inj ha'
        exact absurd (List.mem_of_getElem? hb') (List.count_eq_zero.mp hfirst)
      | succ i' =>
        cases hunique (i', j') ⟨a', ha', hb'⟩
        rfl

namespace Store
variable {σ : Type} [Store σ]

/-! ### Layers -/

/-- The variable is the result of the constraint. -/
def Defines (s : σ) (k : ConstraintId) (v : VariableId) : Prop :=
  ∃ c, (constraints s)[k.toNat]? = some c ∧ c.result? = some v

/-- The variable is an operand of the constraint, at the place `i`. -/
def UsedAt (s : σ) (k : ConstraintId) (i : Nat) (v : VariableId) : Prop :=
  ∃ c, (constraints s)[k.toNat]? = some c ∧ c.operands[i]? = some v

/-- The one variable is defined over the other. -/
def DefinedOver (s : σ) (v w : VariableId) : Prop :=
  ∃ k i, Defines s k v ∧ UsedAt s k i w

structure Layered (s : σ) : Prop where
  /-- Auxiliary variables have one definition. -/
  defined : ∀ v : VariableId, (vars s)[v.toNat]? = some .auxiliary → ∃! k, Defines s k v
  /-- Auxiliary variables have one use. -/
  used : ∀ v : VariableId, (vars s)[v.toNat]? = some .auxiliary →
    ∃! p : ConstraintId × Nat, UsedAt s p.1 p.2 v
  /-- The definition comes before the use. -/
  earlier : ∀ (v : VariableId) j k i, (vars s)[v.toNat]? = some .auxiliary → Defines s j v →
    UsedAt s k i v → j.toNat < k.toNat
  /-- What is defined by the use is registered before the variable. -/
  below : ∀ (v : VariableId) k i w, (vars s)[v.toNat]? = some .auxiliary → UsedAt s k i v →
    Defines s k w → w.toNat < v.toNat
  /-- Nothing else is defined: no name, no constant. -/
  result : ∀ k v, Defines s k v → (vars s)[v.toNat]? = some .auxiliary
  acyclic : ∀ v, ¬Relation.TransGen (DefinedOver s) v v

variable {s : σ} {lone : VariableId → Prop}

/-- What is defined over has the earlier definition. -/
theorem definition_lt (hearlier : ∀ (v : VariableId) j k i, Defines s j v → UsedAt s k i v →
    j.toNat < k.toNat) {v w : VariableId} (h : Relation.TransGen (DefinedOver s) v w) :
    ∃ k, Defines s k v ∧ ∀ j, Defines s j w → j.toNat < k.toNat := by
  induction h with
  | single hstep =>
    obtain ⟨k, i, hk, hi⟩ := hstep
    exact ⟨k, hk, fun j hj => hearlier _ j k i hj hi⟩
  | tail _ hstep ih =>
    obtain ⟨k, hk, hlt⟩ := ih
    obtain ⟨k', i, hk', hi⟩ := hstep
    exact ⟨k, hk, fun j hj => Nat.lt_trans (hearlier _ j k' i hj hi) (hlt k' hk')⟩

theorem toNat_ofNat_of_getElem? (hsize : (constraints s).size ≤ UInt32.size) {k : Nat}
    {c : Constraint} (hc : (constraints s)[k]? = some c) : (ConstraintId.ofNat k).toNat = k :=
  ConstraintId.toNat_ofNat (Nat.lt_of_lt_of_le (Array.getElem?_eq_some_iff.mp hc).1 hsize)

/-- What counts once in the constraints has one place in one of them. -/
theorem existsUnique_place (hsize : (constraints s).size ≤ UInt32.size)
    {f : Constraint → List VariableId} {v : VariableId}
    (h : ((constraints s).toList.flatMap f).count v = 1) :
    ∃! p : ConstraintId × Nat,
      ∃ c, (constraints s)[p.1.toNat]? = some c ∧ (f c)[p.2]? = some v := by
  obtain ⟨⟨k, i⟩, ⟨c, hc, hi⟩, hunique⟩ := existsUnique_flatMap h
  rw [Array.getElem?_toList] at hc
  refine ⟨(.ofNat k, i), ⟨c, by rw [toNat_ofNat_of_getElem? hsize hc, hc], hi⟩, ?_⟩
  rintro ⟨k', i'⟩ ⟨d, hd, hi'⟩
  rw [← Array.getElem?_toList] at hd
  cases hunique (k'.toNat, i') ⟨d, hd, hi'⟩
  rw [ConstraintId.ofNat_toNat]

theorem existsUnique_usedAt (hsize : (constraints s).size ≤ UInt32.size) {v : VariableId}
    (h : (uses s).count v = 1) : ∃! p : ConstraintId × Nat, UsedAt s p.1 p.2 v :=
  existsUnique_place hsize h

theorem existsUnique_defines (hsize : (constraints s).size ≤ UInt32.size) {v : VariableId}
    (h : (results s).count v = 1) : ∃! k, Defines s k v := by
  obtain ⟨⟨k, i⟩, ⟨c, hc, hi⟩, hunique⟩ := existsUnique_place hsize h
  refine ⟨k, ⟨c, hc, Option.mem_toList.mp (List.mem_of_getElem? hi)⟩, ?_⟩
  rintro k' ⟨d, hd, hresult⟩
  have hplace : d.result?.toList[0]? = some v := by
    rw [hresult]
    rfl
  exact congrArg Prod.fst (hunique (k', 0) ⟨d, hd, hplace⟩)

/-- Closed accounts make layers. -/
theorem Accounted.layered (h : Accounted s [] [] lone) (hsize : (constraints s).size ≤ UInt32.size) :
    Layered s := by
  have hresult : ∀ k v, Defines s k v → (vars s)[v.toNat]? = some .auxiliary := by
    rintro k v ⟨c, hc, hv⟩
    refine h.result v (List.mem_append_left _ (List.mem_flatMap.mpr ⟨c, ?_, ?_⟩))
    · exact Array.mem_toList_iff.mpr (Array.mem_of_getElem? hc)
    · exact Option.mem_toList.mpr hv
  have hdefined : ∀ v : VariableId, (vars s)[v.toNat]? = some .auxiliary → ∃! k, Defines s k v := by
    intro v hv
    have hcount := h.defined v hv
    rw [List.append_nil] at hcount
    exact existsUnique_defines hsize hcount
  have hearlier : ∀ (v : VariableId) j k i, Defines s j v → UsedAt s k i v → j.toNat < k.toNat := by
    rintro v j k i hj ⟨c, hc, hi⟩
    have hv := hresult j v hj
    obtain ⟨j', hlt, d, hd, hd'⟩ := h.earlier k.toNat c hc v (List.mem_of_getElem? hi) hv
    have hj' := toNat_ofNat_of_getElem? hsize hd
    rw [(hdefined v hv).unique hj ⟨d, by rw [hj', hd], hd'⟩, hj']
    exact hlt
  refine ⟨hdefined, ?_, fun v j k i _ => hearlier v j k i, ?_, hresult, ?_⟩
  · intro v hv
    have hcount := h.used v hv
    rw [List.append_nil, List.append_nil] at hcount
    exact existsUnique_usedAt hsize hcount
  · rintro v k i w hv ⟨c, hc, hi⟩ ⟨d, hd, hw⟩
    cases hc.symm.trans hd
    exact h.below c (Array.mem_of_getElem? hc) v (List.mem_of_getElem? hi) hv w hw
  · intro v hcycle
    obtain ⟨k, hk, hlt⟩ := definition_lt hearlier hcycle
    exact Nat.lt_irrefl _ (hlt k hk)

/-! ### Stores that operations built up -/

variable [BuildableStore σ]

theorem operateAll_empty_accounted (operations : List Operation)
    (hvars : (vars (operateAll (BuildableStore.empty : σ) operations)).size ≤ UInt32.size) :
    Accounted (operateAll (BuildableStore.empty : σ) operations) [] [] (fun _ => False) := by
  have hempty : Accounted (BuildableStore.empty : σ) [] [] (fun _ => False) :=
    accounted_empty BuildableStore.vars_empty BuildableStore.constraints_empty _
  exact (operateAll_accounted operations BuildableStore.valid_empty hempty hvars).mono
    fun _ _ => False.elim

/-- The constants that an operation adds without sharing are used at one place,
whatever is done before and after it. -/
theorem constant_used_once (earlier later : List Operation) (o : Operation)
    (ho : o.sharing? = some .perOccurrence)
    (hvars : (vars (operateAll (BuildableStore.empty : σ) (earlier ++ o :: later))).size ≤ UInt32.size)
    (hconstraints : (constraints (operateAll (BuildableStore.empty : σ) (earlier ++ o :: later))).size ≤
      UInt32.size)
    {v : VariableId} {value : Int64}
    (hv : (vars (operateAll (BuildableStore.empty : σ) (earlier ++ o :: later)))[v.toNat]? =
      some (.constant value))
    (hge : (vars (operateAll (BuildableStore.empty : σ) earlier)).size ≤ v.toNat)
    (hlt : v.toNat < (vars (operateAll (BuildableStore.empty : σ) (earlier ++ [o]))).size) :
    ∃! p : ConstraintId × Nat,
      UsedAt (operateAll (BuildableStore.empty : σ) (earlier ++ o :: later)) p.1 p.2 v := by
  rw [List.append_cons, operateAll_append _ _ later] at hvars hconstraints hv ⊢
  have hvalid₁ := (operateAll_grows earlier (BuildableStore.valid_empty (σ := σ))).valid
  have hgrows := operateAll_grows (earlier ++ [o]) (BuildableStore.valid_empty (σ := σ))
  have hsize₂ := Nat.le_trans (operateAll_grows later hgrows.valid).size_vars_le hvars
  rw [operateAll_append] at hgrows hsize₂ hlt hvars hconstraints hv ⊢
  have hsize₁ := Nat.le_trans (operate_grows o hvalid₁).size_vars_le hsize₂
  have hfirst := operate_accounted hvalid₁ (operateAll_empty_accounted earlier hsize₁) o hsize₂
  have hlast := operateAll_accounted later hgrows.valid hfirst hvars
  refine existsUnique_usedAt hconstraints ?_
  have hcount := hlast.lone v value hv ⟨hlt, ?_⟩
  · rwa [List.append_nil] at hcount
  · rw [if_neg (Nat.not_lt.mpr hge)]
    exact ho

/-- **The shape of every network that operations build up.** Definitions come in
layers, each constraint after all that is in its scope, and the constants of an
operation without sharing are used at one place. -/
theorem operateAll_layered (operations : List Operation)
    (hvars : (vars (operateAll (BuildableStore.empty : σ) operations)).size ≤ UInt32.size)
    (hconstraints : (constraints (operateAll (BuildableStore.empty : σ) operations)).size ≤
      UInt32.size) :
    Layered (operateAll (BuildableStore.empty : σ) operations) ∧
    ((operateAll ({store := BuildableStore.empty} : Dated σ) operations).store =
        operateAll BuildableStore.empty operations ∧
      (operateAll ({store := BuildableStore.empty} : Dated σ) operations).Timely) ∧
    ∀ earlier o later, operations = earlier ++ o :: later → o.sharing? = some .perOccurrence →
      ∀ (v : VariableId) value,
        (vars (operateAll (BuildableStore.empty : σ) operations))[v.toNat]? = some (.constant value) →
        (vars (operateAll (BuildableStore.empty : σ) earlier)).size ≤ v.toNat →
        v.toNat < (vars (operateAll (BuildableStore.empty : σ) (earlier ++ [o]))).size →
        ∃! p : ConstraintId × Nat,
          UsedAt (operateAll (BuildableStore.empty : σ) operations) p.1 p.2 v := by
  refine ⟨(operateAll_empty_accounted operations hvars).layered hconstraints, ?_, ?_⟩
  · exact ⟨Dated.operateAll_store operations _, Dated.operateAll_timely operations hvars⟩
  · rintro earlier o later rfl ho v value hv hge hlt
    exact constant_used_once earlier later o ho hvars hconstraints hv hge hlt

/-- Two texts that share the constant 2, one in error, and one that shares nothing. -/
def distances : List Operation :=
  [.intern "y",
    .session .perValue [.compileAll ["neq(abs(sub(x,y)),2)", "neq(y,002)", "neq(x"], .compile "x"],
    .post "eq(add(x,2),2)"]

/-- The constant that `add` is over is used there alone, whereas the one that is shared
is not. -/
theorem operateAll_layered_distances :
    (vars (operateAll (BuildableStore.empty : Network) distances)).size ≤ UInt32.size ∧
      (constraints (operateAll (BuildableStore.empty : Network) distances)).size ≤ UInt32.size ∧
      Layered (operateAll (BuildableStore.empty : Network) distances) ∧
      ∃! p : ConstraintId × Nat,
        UsedAt (operateAll (BuildableStore.empty : Network) distances) p.1 p.2 (.ofNat 6) := by
  have hvars : (vars (operateAll (BuildableStore.empty : Network) distances)).size ≤ UInt32.size := by
    decide +kernel
  have hconstraints : (constraints (operateAll (BuildableStore.empty : Network) distances)).size ≤
      UInt32.size := by decide +kernel
  obtain ⟨hlayered, _, hlone⟩ := operateAll_layered (σ := Network) distances hvars hconstraints
  refine ⟨hvars, hconstraints, hlayered, ?_⟩
  exact hlone (distances.take 2) (.post "eq(add(x,2),2)") [] rfl rfl (.ofNat 6) 2
    (by decide +kernel) (by decide +kernel) (by decide +kernel)

end Store

end ConstraintNet
