import ConstraintNet.Proofs.Listing.Labels

/-! Variables that are written alike.

A listing writes a name as it is, and a result as its number behind an underscore. But that
is a name as well, and anybody may use it. So a variable that was named may be written like
a result. That is the only case: no two names are written alike and no two results, and a
name is written like a result only if it is the number of just this result
(`Network.label_eq_iff_clash`). -/
namespace ConstraintNet

namespace Network
variable {v w : VariableId} {x y : Variable}

/-- The first is a result, and the second has the number of the first for a name. -/
def Clash (v : VariableId) (x y : Variable) : Prop :=
  x = .auxiliary ∧ y = .named v.text

instance : Decidable (Clash v x y) := inferInstanceAs (Decidable (_ ∧ _))

/-- Labels are the same if the names are, or the numbers of the results, or the one is the
other. -/
theorem labelOf_eq_iff (hx : x.isConstant = false) (hy : y.isConstant = false) :
    labelOf v x = labelOf w y ↔ x = y ∧ (x = .auxiliary → v = w) ∨ Clash v x y ∨ Clash w y x := by
  cases x with
  | named name =>
    cases y with
    | named other => simp [labelOf, Clash]
    | auxiliary => simp [labelOf, Clash]
    | constant value => cases hy
  | auxiliary =>
    cases y with
    | named other => simp [labelOf, Clash, eq_comm]
    | auxiliary =>
      have hnumbers : v.text = w.text ↔ v = w := ⟨VariableId.text_inj, congrArg VariableId.text⟩
      simp [labelOf, Clash, hnumbers]
    | constant value => cases hy
  | constant value => cases hx

/-- **Labels are clear but for names that are numbers.** In a network that texts were posted
to, two variables that are no constants are written alike exactly if one is a result and the
other has its number for a name. -/
theorem label_eq_iff_clash {n : Network} {texts : List String} (hn : (build .post texts).2 = n)
    (hv : n.variableAt? v = some x) (hw : n.variableAt? w = some y)
    (hx : x.isConstant = false) (hy : y.isConstant = false) (hne : v ≠ w) :
    n.label v = n.label w ↔ Clash v x y ∨ Clash w y x := by
  have hposted := posted_build texts
  rw [hn] at hposted
  have hdistinct := (reachable_unambiguous hposted.reachable).distinct
  rw [label_eq hv, label_eq hw, labelOf_eq_iff hx hy, or_iff_right]
  rintro ⟨rfl, hresult⟩
  cases x with
  | named name =>
    have hplace := hdistinct _ _ name hv hw
    refine hne ?_
    rw [← VariableId.ofNat_toNat v, hplace, VariableId.ofNat_toNat]
  | auxiliary => exact hne (hresult rfl)
  | constant value => cases hx

/-- Two texts that share the name `_2`, which is the number of the result of `g` too. The name
`y` is no number, so it stays apart. -/
theorem label_eq_iff_clash_shared : ∃ n, (build .post ["p(_2,y)", "q(g(y),_2)"]).2 = n ∧
    n.variableAt? (.ofNat 2) = some .auxiliary ∧ n.variableAt? (.ofNat 0) = some (.named "_2") ∧
    n.variableAt? (.ofNat 1) = some (.named "y") ∧ n.label (.ofNat 2) = n.label (.ofNat 0) ∧
    n.label (.ofNat 2) ≠ n.label (.ofNat 1) := by
  refine ⟨_, rfl, by decide +kernel, by decide +kernel, by decide +kernel, ?alike, ?apart⟩
  case alike =>
    exact (label_eq_iff_clash rfl (by decide +kernel) (by decide +kernel) rfl rfl
      (by decide)).mpr (.inl ⟨rfl, rfl⟩)
  case apart =>
    rw [ne_eq, label_eq_iff_clash rfl (x := .auxiliary) (y := .named "y") (by decide +kernel)
      (by decide +kernel) rfl rfl (by decide)]
    decide +kernel

/-- A name may be the number of a result that comes before it. -/
theorem labels_alike :
    ¬∀ texts : List String, (build .post texts).2.vars.size ≤ UInt32.size →
      ∀ v w x y, (build .post texts).2.variableAt? v = some x →
        (build .post texts).2.variableAt? w = some y → x.isConstant = false →
        y.isConstant = false → v ≠ w →
        (build .post texts).2.label v ≠ (build .post texts).2.label w := by
  intro h
  have hapart := h ["neq(f(x),_0)"] (by decide +kernel) (.ofNat 0) (.ofNat 2) .auxiliary (.named "_0")
    (by decide +kernel) (by decide +kernel) rfl rfl (by decide)
  exact hapart (by decide +kernel)

end Network

end ConstraintNet
