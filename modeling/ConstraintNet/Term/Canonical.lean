import ConstraintNet.Term.Basic

/-! The canonical form of a term.

It is the term on one line without blanks: a leaf is its text, an application its
operator, its parameters between braces unless there are none, and its operands
between parentheses, with commas between. A literal operand is written as its
text says, an integer parameter in its shortest numeral. -/
namespace ConstraintNet

def Parameter.chars : Parameter → List Char
  | .integer value => Text.Decimal.chars value.toInt
  | .symbol name => name.toList

/-- What a parameter is written as. -/
def Parameter.text (parameter : Parameter) : String :=
  String.ofList parameter.chars

/-- The parameters between braces, or nothing. -/
def Parameter.block : List Parameter → List Char
  | [] => []
  | parameters => '{' :: [','].intercalate (parameters.map Parameter.chars) ++ ['}']

namespace Term

mutual

def chars : Term → List Char
  | .name text => text.toList
  | .literal text _ => text.toList
  | .application operator parameters operands =>
    operator.toList ++ Parameter.block parameters ++ '(' :: [','].intercalate (charsOf operands) ++ [')']

/-- Each of some terms in canonical form. -/
def charsOf : List Term → List (List Char)
  | [] => []
  | term :: terms => term.chars :: charsOf terms

end

theorem charsOf_eq_map (terms : List Term) : charsOf terms = terms.map chars := by
  induction terms with
  | nil => rfl
  | cons t ts ih => rw [charsOf, ih, List.map_cons]

/-- A term in canonical form. -/
def canonical (term : Term) : String :=
  String.ofList term.chars

@[simp] theorem toList_canonical (t : Term) : t.canonical.toList = t.chars :=
  String.toList_ofList

end Term

end ConstraintNet
