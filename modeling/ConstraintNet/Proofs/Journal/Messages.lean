import ConstraintNet.Network.Event
import Mathlib.Data.List.Chain
import Mathlib.Order.Bounds.Defs

/-! What is told of an event.

An event is told at its level, in words (`Event.told`). A trace is told of a name that became a
variable and of an application that got its result (`Event.IsTrace`).

A root is told with its size: how many operands and leaves it has, and how deep it is. Its depth
is that of the longest way down, both ends counted (`Term.isGreatest_depth`). -/
namespace ConstraintNet

/-! ### Events -/

namespace Event

/-- The name that is registered. -/
def registered? : Event → Option String
  | .registering name => some name
  | _ => none

/-- The application that is defined, with the number of its result. -/
def defined? : Event → Option (VariableId × Term)
  | .defining result application => some (result, application)
  | _ => none

/-- How much an event matters, and what it says. -/
def told (e : Event) : Level × String :=
  (e.level, e.message)

/-- A trace gives the name that is registered, or else the number of the result that is defined
and the application in canonical form. -/
def IsTrace (e : Event) : Prop :=
  (∃ name, e.registered? = some name ∧
    e.told = (.trace, "registering variable '" ++ name ++ "'")) ∨
  ∃ result application, e.defined? = some (result, application) ∧
    e.told = (.trace, "defining " ++ result.text ++ " as '" ++ application.canonical ++ "'")

theorem isTrace_registering (name : String) : (registering name).IsTrace :=
  .inl ⟨name, rfl, rfl⟩

theorem isTrace_defining (result : VariableId) (application : Term) :
    (defining result application).IsTrace :=
  .inr ⟨result, application, rfl, rfl⟩

end Event

/-! ### Ways down -/

namespace Term

/-- A way down from a term: one of its operands, one of the operands of that, and so on. -/
def WayDown (t : Term) (us : List Term) : Prop :=
  (t :: us).IsChain fun u v => v ∈ u.operands

theorem WayDown.length_lt_depth {t : Term} {us : List Term} (h : t.WayDown us) :
    us.length < t.depth := by
  induction us generalizing t with
  | nil => exact t.depth_pos
  | cons u us ih =>
    obtain ⟨hu, hrest⟩ := List.isChain_cons_cons.mp h
    have hlt := ih hrest
    have hle := depth_le_deepest hu
    rw [t.depth_eq, List.length_cons]
    omega

/-- It is the longest that goes to the deepest operand each time. -/
theorem exists_wayDown (t : Term) : ∃ us, t.WayDown us ∧ us.length + 1 = t.depth := by
  by_cases h : t.operands = []
  · refine ⟨[], .singleton t, ?_⟩
    rw [t.depth_eq, h]
    rfl
  · obtain ⟨u, hu, hdeepest⟩ := exists_deepest h
    have hdepth : t.depth = u.depth + 1 := by
      rw [t.depth_eq, hdeepest, Nat.add_comm]
    obtain ⟨us, hway, hlength⟩ := exists_wayDown u
    exact ⟨u :: us, .cons_cons hu hway, by rw [hdepth, List.length_cons, hlength]⟩
termination_by t.depth

/-- A term is as deep as the longest way down has terms. -/
theorem isGreatest_depth (t : Term) :
    IsGreatest {n | ∃ us, t.WayDown us ∧ us.length + 1 = n} t.depth := by
  refine ⟨t.exists_wayDown, ?_⟩
  rintro n ⟨us, hway, rfl⟩
  exact hway.length_lt_depth

end Term

end ConstraintNet
