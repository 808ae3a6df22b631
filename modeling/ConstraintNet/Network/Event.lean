import ConstraintNet.Network.Variable
import ConstraintNet.Term.Canonical

/-! What is worth noting while a network is built.

Events are values; whoever runs the operations decides where their texts go. -/
namespace ConstraintNet

/-- How much an event matters. -/
inductive Level where
  | trace
  | debug
  | warn
deriving DecidableEq, Repr

inductive Event where
  /-- A name that was new became a variable. -/
  | registering (name : String)
  /-- A variable was to be added under a name that has one, which stays. -/
  | alreadyRegistered (name : String) (kept : VariableId)
  /-- An application inside a term got its result and, next, its constraint. -/
  | defining (result : VariableId) (application : Term)
  /-- A term became a constraint, at the price of so many auxiliary variables. -/
  | compiled (root : Term) (auxiliaries : Nat)
deriving DecidableEq, Repr

namespace Event
open Text

def level : Event → Level
  | .registering _ => .trace
  | .alreadyRegistered _ _ => .warn
  | .defining _ _ => .trace
  | .compiled _ _ => .debug

def message : Event → String
  | .registering name => "registering variable '" ++ name ++ "'"
  | .alreadyRegistered name kept =>
    "variable '" ++ name ++ "' is already registered, keeping " ++ kept.text
  | .defining result application => "defining " ++ result.text ++ " as '" ++ application.canonical ++ "'"
  | .compiled root auxiliaries =>
    "compiled '" ++ root.canonical ++ "' (" ++ Decimal.text root.operands.length ++ " operands, "
      ++ Decimal.text root.leaves ++ " leaves, depth " ++ Decimal.text root.depth ++ ") with "
      ++ Decimal.text auxiliaries ++ " auxiliary variables"

end Event

end ConstraintNet
