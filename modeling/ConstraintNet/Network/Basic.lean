import ConstraintNet.Network.Store
import Std.Data.TreeMap

/-! Networks.

A network is a store that keeps an index of its names. A name belongs to one
variable, the first that was registered under it: adding another is noted and
gives that one, and interning a name looks it up and adds it in one step. -/
namespace ConstraintNet

structure Network where
  vars : Array Variable := #[]
  constraints : Array Constraint := #[]
  /-- The variable of each name. -/
  index : Std.TreeMap String VariableId := {}

namespace Network

def find? (n : Network) (name : String) : Option VariableId :=
  n.index[name]?

/-- The number that the next variable gets. -/
def fresh (n : Network) : VariableId :=
  .ofNat n.vars.size

/-- The network with one more variable, under a name that has none. -/
def insert (n : Network) (name : String) : Network :=
  {n with vars := n.vars.push (.named name), index := n.index.insert name n.fresh}

def addVariable (n : Network) : Variable → Registered Network VariableId
  | .named name =>
    match n.find? name with
    | some v => ⟨v, n, [.alreadyRegistered name v]⟩
    | none => ⟨n.fresh, n.insert name, []⟩
  | x => ⟨n.fresh, {n with vars := n.vars.push x}, []⟩

def addConstraint (n : Network) (c : Constraint) : Registered Network ConstraintId where
  id := .ofNat n.constraints.size
  store := {n with constraints := n.constraints.push c}

def intern (n : Network) (name : String) : Registered Network VariableId :=
  match n.find? name with
  | some v => ⟨v, n, []⟩
  | none => ⟨n.fresh, n.insert name, [.registering name]⟩

instance : Store Network where
  vars := vars
  constraints := constraints
  find? := find?
  addVariable := addVariable
  addConstraint := addConstraint
  intern := intern

/-! ### Questions -/

def variableAt? (n : Network) (v : VariableId) : Option Variable :=
  n.vars[v.toNat]?

def constraintAt? (n : Network) (c : ConstraintId) : Option Constraint :=
  n.constraints[c.toNat]?

/-- The numbers of the variables of a kind, in order. -/
def variablesThat (n : Network) (p : Variable → Bool) : List VariableId :=
  (n.vars.toList.zipIdx.filter fun x => p x.1).map fun x => .ofNat x.2

/-- The variables that have a name. -/
def namedVariables (n : Network) : List VariableId :=
  n.variablesThat fun x => x.name?.isSome

/-- The variables that hold results and constants. -/
def auxiliaryVariables (n : Network) : List VariableId :=
  n.variablesThat Variable.isAuxiliary

/-- The constraints with a variable in their scope, in order. -/
def constraintsOf (n : Network) (v : VariableId) : List ConstraintId :=
  (n.constraints.toList.zipIdx.filter fun c => c.1.involves v).map fun c => .ofNat c.2

/-! ### After a registration -/

@[simp] theorem find?_insert_self (n : Network) (name : String) :
    (n.insert name).find? name = some n.fresh := by
  simp [find?, insert]

theorem find?_insert_of_ne (n : Network) {name other : String} (h : name ≠ other) :
    (n.insert name).find? other = n.find? other := by
  simp [find?, insert, Std.TreeMap.getElem?_insert, h]

end Network

end ConstraintNet
