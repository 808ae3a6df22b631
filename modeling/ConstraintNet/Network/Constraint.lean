import ConstraintNet.Network.Variable
import ConstraintNet.Term.Canonical

/-! Constraints of a network.

A constraint puts an operator over an ordered list of variables, its operands. A
functional constraint defines one more variable, the result, as the value of the
operator; a general constraint states that the operator, as a relation, holds.
Constraints hold numbers of variables only, and are numbered as variables are. -/
namespace ConstraintNet

/-- The number of a constraint. -/
structure ConstraintId where
  index : UInt32
deriving DecidableEq, Repr

namespace ConstraintId

/-- The number of the constraint registered after `n` others. -/
def ofNat (n : Nat) : ConstraintId :=
  ⟨UInt32.ofNat n⟩

def toNat (c : ConstraintId) : Nat :=
  c.index.toNat

theorem toNat_ofNat {n : Nat} (h : n < UInt32.size) : (ofNat n).toNat = n :=
  UInt32.toNat_ofNat_of_lt h

@[simp] theorem ofNat_toNat (c : ConstraintId) : ofNat c.toNat = c := by
  simp [ofNat, toNat]

end ConstraintId

inductive Constraint where
  | functional (result : VariableId) (operator : String) (parameters : List Parameter)
      (operands : List VariableId)
  | general (operator : String) (parameters : List Parameter) (operands : List VariableId)
deriving DecidableEq, Repr

namespace Constraint

/-- What a functional constraint defines. -/
def result? : Constraint → Option VariableId
  | .functional result .. => some result
  | .general .. => none

def operator : Constraint → String
  | .functional _ operator _ _ => operator
  | .general operator _ _ => operator

def parameters : Constraint → List Parameter
  | .functional _ _ parameters _ => parameters
  | .general _ parameters _ => parameters

def operands : Constraint → List VariableId
  | .functional _ _ _ operands => operands
  | .general _ _ operands => operands

/-- The result, if there is one, before the operands. -/
def scope (c : Constraint) : List VariableId :=
  c.result?.toList ++ c.operands

def involves (c : Constraint) (v : VariableId) : Bool :=
  c.scope.contains v

theorem involves_iff (c : Constraint) (v : VariableId) :
    c.involves v = true ↔ c.result? = some v ∨ v ∈ c.operands := by
  simp [involves, scope]

end Constraint

end ConstraintNet
