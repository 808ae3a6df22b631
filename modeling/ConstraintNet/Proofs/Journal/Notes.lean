import ConstraintNet.Proofs.Journal.Messages
import ConstraintNet.Proofs.Layout.Progress

/-! What there is to note for a term.

What will be noted for a term can be told before it is lowered: a name that is added is
noted where it is added for the first time, and an application once its operands are done,
with the number that its place will have (`Session.notes`).

So the names that are noted are those of the variables that are added, in order
(`Session.registered_notes`). The applications that are noted are those that have
constraints, in the order of the constraints (`Session.defined_notes`), and what is noted
for an application stands right behind what is noted for its operands
(`Session.notes_behind`). -/
namespace ConstraintNet

/-! ### Notes -/

namespace Session
variable {σ : Type} [Store σ]

mutual

/-- What there is to note for an operand at the place `p` in a row. -/
def notes (s : Session σ) (row : List Term) : Term → Nat → List Event
  | .name x, p => if s.added? (row.take p) (.name x) = none then [] else [.registering x]
  | .literal _ _, _ => []
  | .application f ps ts, p =>
    s.notesOf row ts (p + 1) ++ [.defining (s.numberAt row p) (.application f ps ts)]

/-- What there is to note for operands of which the first is at the place `p`. -/
def notesOf (s : Session σ) (row : List Term) : List Term → Nat → List Event
  | [], _ => []
  | t :: ts, p => s.notes row t p ++ s.notesOf row ts (p + t.subterms.length)

end

variable {s : Session σ} {row : List Term}

/-- Whatever is added for an operand is its entry. -/
theorem added?_eq {earlier : List Term} {t : Term} {x : Variable} (h : s.added? earlier t = some x) :
    x = t.entry := by
  unfold added? at h
  split at h
  · exact (Option.some.inj h).symm
  · cases h

/-- What has no name adds none. -/
theorem names_added? {earlier : List Term} {t : Term} (ht : t.entry.name? = none) :
    (s.added? earlier t).toList.filterMap Variable.name? = [] := by
  cases hx : s.added? earlier t with
  | none => rfl
  | some x =>
    rw [added?_eq hx, Option.toList_some, List.filterMap_cons_none ht]
    rfl

mutual

/-- The names that are noted are those that are added. -/
theorem registered_notes : ∀ (t : Term) {p : Nat}, Term.StandAt row p t.subterms →
    (s.notes row t p).filterMap Event.registered? =
      (s.additions (row.take p) t.subterms).filterMap Variable.name?
  | .name x, p, _ => by
    rw [notes, Term.subterms, additions, additions, List.append_nil]
    cases hx : s.added? (row.take p) (.name x) with
    | none => rfl
    | some y =>
      rw [added?_eq hx]
      rfl
  | .literal text value, p, _ => by
    rw [Term.subterms, additions, additions, List.append_nil, names_added? rfl]
    rfl
  | .application f ps ts, p, h => by
    have hbelow := registered_notesOf ts h.tail
    rw [← h.take_concat] at hbelow
    rw [notes, Term.subterms, additions, List.filterMap_append, List.filterMap_append, hbelow,
      names_added? rfl]
    exact List.append_nil _

theorem registered_notesOf : ∀ (ts : List Term) {p : Nat},
    Term.StandAt row p (Term.subtermsOf ts) →
    (s.notesOf row ts p).filterMap Event.registered? =
      (s.additions (row.take p) (Term.subtermsOf ts)).filterMap Variable.name?
  | [], _, _ => rfl
  | t :: ts, p, h => by
    rw [Term.subtermsOf] at h
    have htake := h.left.take_append
    rw [notesOf, Term.subtermsOf, additions_append, List.filterMap_append, List.filterMap_append,
      registered_notes t h.left, htake, registered_notesOf ts h.right]

end

mutual

/-- The applications that are noted are all that there are, in order. -/
theorem defined_notes : ∀ (t : Term) (p : Nat), (s.notes row t p).filterMap Event.defined? =
    (t.applications p).map fun a => (s.numberAt row a.2, a.1)
  | .name x, p => by
    rw [notes]
    split <;> rfl
  | .literal _ _, _ => rfl
  | .application f ps ts, p => by
    rw [notes, Term.applications, List.filterMap_append, List.map_append, defined_notesOf ts]
    rfl

theorem defined_notesOf : ∀ (ts : List Term) (p : Nat),
    (s.notesOf row ts p).filterMap Event.defined? =
      (Term.applicationsOf ts p).map fun a => (s.numberAt row a.2, a.1)
  | [], _ => rfl
  | t :: ts, p => by
    rw [notesOf, Term.applicationsOf, List.filterMap_append, List.map_append, defined_notes t,
      defined_notesOf ts]

end

mutual

/-- An application is noted right behind all that is noted for its operands. -/
theorem notes_behind : ∀ (t : Term) {p : Nat} {a : Term × Nat}, a ∈ t.applications p →
    s.notesOf row a.1.operands (a.2 + 1) ++ [.defining (s.numberAt row a.2) a.1] <:+: s.notes row t p
  | .name _, _, _, ha => by cases ha
  | .literal _ _, _, _, ha => by cases ha
  | .application f ps ts, p, a, ha => by
    rw [Term.applications, List.mem_append, List.mem_singleton] at ha
    rw [notes]
    cases ha with
    | inl hbelow => exact (notesOf_behind ts hbelow).trans (List.prefix_append ..).isInfix
    | inr hself =>
      rw [hself]
      exact List.infix_rfl

theorem notesOf_behind : ∀ (ts : List Term) {p : Nat} {a : Term × Nat},
    a ∈ Term.applicationsOf ts p →
    s.notesOf row a.1.operands (a.2 + 1) ++ [.defining (s.numberAt row a.2) a.1] <:+:
      s.notesOf row ts p
  | [], _, _, ha => by cases ha
  | t :: ts, p, a, ha => by
    rw [Term.applicationsOf, List.mem_append] at ha
    rw [notesOf]
    cases ha with
    | inl hfirst => exact (notes_behind t hfirst).trans (List.prefix_append ..).isInfix
    | inr hrest => exact (notesOf_behind ts hrest).trans (List.suffix_append ..).isInfix

end

mutual

theorem isTrace_of_mem_notes : ∀ (t : Term) {p : Nat} {e : Event}, e ∈ s.notes row t p → e.IsTrace
  | .name x, p, e, he => by
    rw [notes] at he
    split at he
    · cases he
    · rw [List.mem_singleton.mp he]
      exact Event.isTrace_registering x
  | .literal _ _, _, _, he => by cases he
  | .application f ps ts, p, e, he => by
    rw [notes, List.mem_append, List.mem_singleton] at he
    cases he with
    | inl hbelow => exact isTrace_of_mem_notesOf ts hbelow
    | inr hself =>
      rw [hself]
      exact Event.isTrace_defining ..

theorem isTrace_of_mem_notesOf : ∀ (ts : List Term) {p : Nat} {e : Event},
    e ∈ s.notesOf row ts p → e.IsTrace
  | [], _, _, he => by cases he
  | t :: ts, p, e, he => by
    rw [notesOf, List.mem_append] at he
    cases he with
    | inl hfirst => exact isTrace_of_mem_notes t hfirst
    | inr hrest => exact isTrace_of_mem_notesOf ts hrest

end

end Session

end ConstraintNet
