import ConstraintNet.Network.Basic

/-! A network as text.

The variables come first and then the constraints, one a line and in order of
registration. A variable is written as its label: its name, the numeral of a
constant, and its number if it has neither. -/
namespace ConstraintNet.Network

/-- What stands for a variable. A number that no variable has stands for itself. -/
def label (n : Network) (v : VariableId) : String :=
  match n.variableAt? v with
  | some (.named name) => name
  | some (.constant value) => Text.Decimal.text value.toInt
  | some .auxiliary => v.text
  | none => v.text

/-- The remark behind the label of a variable. -/
def remark : Variable → String
  | .named _ => ""
  | .auxiliary => " (auxiliary)"
  | .constant _ => " (constant)"

def variableLine (n : Network) (x : Variable × Nat) : String :=
  "  " ++ n.label (.ofNat x.2) ++ remark x.1 ++ "\n"

def parameterBlock : List Parameter → String
  | [] => ""
  | parameters => "\x7b" ++ ", ".intercalate (parameters.map Parameter.text) ++ "\x7d"

def constraintLine (n : Network) (c : Constraint) : String :=
  "  " ++ (c.result?.elim "" fun v => n.label v ++ " = ") ++ c.operator ++ parameterBlock c.parameters
    ++ "(" ++ ", ".intercalate (c.operands.map n.label) ++ ")\n"

def listing (n : Network) : String :=
  "variables:\n" ++ String.join (n.vars.toList.zipIdx.map n.variableLine)
    ++ "constraints:\n" ++ String.join (n.constraints.toList.map n.constraintLine)

end ConstraintNet.Network
