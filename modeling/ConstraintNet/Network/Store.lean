import ConstraintNet.Network.Constraint
import ConstraintNet.Network.Event

/-! What terms are compiled into.

A store owns variables and constraints and gives out their numbers. It can find
the variable of a name, take a variable or a constraint, and intern a name: find
its variable, or else add one. A store that has no better way to intern a name
does just that. -/
namespace ConstraintNet

/-- What a registration gives: the number, the store after it, and what there is
to note, in order. -/
structure Registered (σ ι : Type) where
  id : ι
  store : σ
  events : List Event := []

class Store (σ : Type) where
  /-- The variables, in order of registration. -/
  vars : σ → Array Variable
  /-- The constraints, in order of registration. -/
  constraints : σ → Array Constraint
  /-- The variable of a name. -/
  find? : σ → String → Option VariableId
  addVariable : σ → Variable → Registered σ VariableId
  addConstraint : σ → Constraint → Registered σ ConstraintId
  /-- The variable of a name, which is added if there is none. -/
  intern : σ → String → Registered σ VariableId := fun s name =>
    match find? s name with
    | some v => ⟨v, s, []⟩
    | none => addVariable s (.named name)

end ConstraintNet
