import ConstraintNet.Network.Store

/-! What terms and constraints mean.

An interpretation says which values there are for the integers, and gives every
operator with its parameters a function and a relation on lists of values. With a
value for each name a term has a value (`Term.eval`), and a term that is compiled
holds or does not: its root is the relation over the values of its operands
(`Term.Holds`). With a value for each variable a constraint holds or does not
(`Constraint.Holds`). An assignment to variables solves a store (`Store.Solves`)
when names and constants have their values and all constraints hold.

The text of a literal has no meaning beyond its value: a term and its plain form
have the same value (`Term.eval_plain`). -/
namespace ConstraintNet

/-- Values for the integers, and what operators do to lists of values. -/
structure Interpretation (D : Type) where
  integer : Int → D
  function : String → List Parameter → List D → D
  relation : String → List Parameter → List D → Prop

/-! ### Terms -/

namespace Term

mutual

/-- The term with each literal in its shortest numeral. -/
def plain : Term → Term
  | .name text => .name text
  | .literal _ value => .integer value
  | .application operator parameters operands => .application operator parameters (plainAll operands)

/-- Some terms, each in plain form. -/
def plainAll : List Term → List Term
  | [] => []
  | term :: terms => term.plain :: plainAll terms

end

mutual

theorem depth_plain : ∀ t : Term, t.plain.depth = t.depth
  | .name _ => rfl
  | .literal _ _ => rfl
  | .application _ _ ts => congrArg (1 + ·) (deepest_plainAll ts)

theorem deepest_plainAll : ∀ ts : List Term, deepest (plainAll ts) = deepest ts
  | [] => rfl
  | t :: ts => by rw [plainAll, deepest, deepest, depth_plain t, deepest_plainAll ts]

end

section Values
variable {D : Type} (I : Interpretation D) (names : String → D)

mutual

/-- The value of a term. -/
def eval : Term → D
  | .name text => names text
  | .literal _ value => I.integer value.toInt
  | .application operator parameters operands => I.function operator parameters (evalAll operands)

/-- The values of some terms, in order. -/
def evalAll : List Term → List D
  | [] => []
  | term :: terms => term.eval :: evalAll terms

end

/-- The relation at the root holds of the operands. A leaf states nothing. -/
def Holds : Term → Prop
  | .application operator parameters operands =>
    I.relation operator parameters (evalAll I names operands)
  | _ => True

mutual

theorem eval_plain : ∀ t : Term, t.plain.eval I names = t.eval I names
  | .name _ => rfl
  | .literal _ _ => rfl
  | .application f ps ts => congrArg (I.function f ps) (evalAll_plainAll ts)

theorem evalAll_plainAll : ∀ ts : List Term, evalAll I names (plainAll ts) = evalAll I names ts
  | [] => rfl
  | t :: ts => by rw [plainAll, evalAll, evalAll, eval_plain t, evalAll_plainAll ts]

end

theorem holds_plain (t : Term) : t.plain.Holds I names ↔ t.Holds I names := by
  cases t with
  | name => rfl
  | literal => rfl
  | application f ps ts => simp only [plain, Holds, evalAll_plainAll]

end Values

end Term

/-! ### Constraints and stores -/

section Values
variable {D : Type} (I : Interpretation D)

/-- The result is the value of the function or, where there is none, the relation
holds. -/
def Constraint.Holds (values : VariableId → D) (c : Constraint) : Prop :=
  match c.result? with
  | some result => values result = I.function c.operator c.parameters (c.operands.map values)
  | none => I.relation c.operator c.parameters (c.operands.map values)

/-- Values for the variables of a store that extend those for the names, fit the
constants and satisfy all constraints. -/
structure Store.Solves {σ : Type} [Store σ] (s : σ) (names : String → D) (values : VariableId → D) :
    Prop where
  named : ∀ v name, (Store.vars s)[v.toNat]? = some (.named name) → values v = names name
  constant : ∀ v value, (Store.vars s)[v.toNat]? = some (.constant value) →
    values v = I.integer value.toInt
  constraint : ∀ c ∈ Store.constraints s, c.Holds I values

end Values

end ConstraintNet
