import ConstraintNet.Network.Store

/-! The plain store: two lists, written down one after the other.

A ledger takes whatever it is given, also a name that it has; the first variable
of a name is the one that is found. -/
namespace ConstraintNet

structure Ledger where
  vars : Array Variable := #[]
  constraints : Array Constraint := #[]
deriving DecidableEq, Repr

namespace Ledger

/-- The first variable of a name. -/
def find? (l : Ledger) (name : String) : Option VariableId :=
  (l.vars.findIdx? fun x => x.name? == some name).map VariableId.ofNat

def addVariable (l : Ledger) (x : Variable) : Registered Ledger VariableId where
  id := .ofNat l.vars.size
  store := {l with vars := l.vars.push x}

def addConstraint (l : Ledger) (c : Constraint) : Registered Ledger ConstraintId where
  id := .ofNat l.constraints.size
  store := {l with constraints := l.constraints.push c}

instance : Store Ledger where
  vars := vars
  constraints := constraints
  find? := find?
  addVariable := addVariable
  addConstraint := addConstraint

end Ledger

end ConstraintNet
