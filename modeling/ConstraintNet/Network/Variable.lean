import ConstraintNet.Text.Decimal

/-! Variables of a network.

A variable is one that the user named, one that was introduced to hold the result
of an application, or one that was introduced to hold a constant. The last two
are auxiliary: they have no name.

Variables are referred to by number. Numbers are words of 32 bits, given out in
order of registration; nothing stops one from being used where no variable has
it. -/
namespace ConstraintNet

/-- The number of a variable. -/
structure VariableId where
  index : UInt32
deriving DecidableEq, Repr

namespace VariableId

/-- The number of the variable registered after `n` others. -/
def ofNat (n : Nat) : VariableId :=
  ⟨UInt32.ofNat n⟩

def toNat (v : VariableId) : Nat :=
  v.index.toNat

/-- An underscore and the number. -/
def text (v : VariableId) : String :=
  "_" ++ Text.Decimal.text v.toNat

theorem toNat_ofNat {n : Nat} (h : n < UInt32.size) : (ofNat n).toNat = n :=
  UInt32.toNat_ofNat_of_lt h

@[simp] theorem ofNat_toNat (v : VariableId) : ofNat v.toNat = v := by
  simp [ofNat, toNat]

end VariableId

inductive Variable where
  | named (name : String)
  | auxiliary
  | constant (value : Int64)
deriving DecidableEq, Repr

namespace Variable

def name? : Variable → Option String
  | .named name => some name
  | _ => none

def value? : Variable → Option Int64
  | .constant value => some value
  | _ => none

def isConstant (x : Variable) : Bool :=
  x.value?.isSome

/-- Introduced, not named: constants are auxiliary too. -/
def isAuxiliary (x : Variable) : Bool :=
  x.name?.isNone

end Variable

end ConstraintNet
