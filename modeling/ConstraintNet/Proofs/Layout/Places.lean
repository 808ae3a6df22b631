import ConstraintNet.Proofs.Layout.Origins
import Mathlib.Data.List.Perm.Basic

/-! Places in a term.

The subterms of a term stand in a row, each before its operands, and so each has a
place. The operands of an application are found further on: the first one right
behind it, and each other behind all that is in those before (`Term.placesOf`).

Its applications can be told in another order as well, each after those in its
operands (`Term.applications`). They are the same ones, each once and with its place
in the row (`Term.perm_applicationsOf`, `Term.standAt_of_mem_applicationsOf`).

In these two orders a term is laid out: it refers to the origins of its row, place by
place (`Ground.visitsOf_eq`), and it has a draft for each of its applications, those of
the operands first (`Ground.draftsOf_eq`). -/
namespace ConstraintNet

namespace Term

/-- The places of terms of which the first is at `p`, the next behind all that is in it,
and so on. -/
def placesOf : List Term → Nat → List Nat
  | [], _ => []
  | t :: ts, p => p :: placesOf ts (p + t.subterms.length)

mutual

/-- The applications in a term at the place `p`, each with its place and after those in
its operands. -/
def applications : Term → Nat → List (Term × Nat)
  | .name _, _ => []
  | .literal _ _, _ => []
  | .application f ps ts, p => applicationsOf ts (p + 1) ++ [(.application f ps ts, p)]

/-- The applications in terms of which the first is at `p`, from left to right. -/
def applicationsOf : List Term → Nat → List (Term × Nat)
  | [], _ => []
  | t :: ts, p => applications t p ++ applicationsOf ts (p + t.subterms.length)

end

/-- The terms `part` stand next to each other in `row`, from the place `p` on. -/
def StandAt (row : List Term) (p : Nat) (part : List Term) : Prop :=
  ∀ i u, part[i]? = some u → row[p + i]? = some u

theorem subterms_eq (t : Term) : t.subterms = t :: subtermsOf t.operands := by
  cases t <;> rfl

section Rows
variable {row part more : List Term} {p : Nat} {t : Term}

theorem standAt_self (row : List Term) : StandAt row 0 row := by
  intro i u h
  rwa [Nat.zero_add]

theorem StandAt.head (h : StandAt row p (t :: part)) : row[p]? = some t :=
  h 0 t rfl

theorem StandAt.tail (h : StandAt row p (t :: part)) : StandAt row (p + 1) part := by
  intro i u hi
  rw [Nat.add_assoc, Nat.add_comm 1]
  exact h (i + 1) u hi

theorem StandAt.left (h : StandAt row p (part ++ more)) : StandAt row p part := by
  intro i u hi
  refine h i u ?_
  rw [List.getElem?_append_left (List.getElem?_eq_some_iff.mp hi).1, hi]

theorem StandAt.right (h : StandAt row p (part ++ more)) : StandAt row (p + part.length) more := by
  intro i u hi
  rw [Nat.add_assoc]
  refine h _ u ?_
  rw [List.getElem?_append_right (Nat.le_add_right ..), Nat.add_sub_cancel_left, hi]

/-- Operands are found at their places. -/
theorem map_placesOf (ts : List Term) {p : Nat} (h : StandAt row p (subtermsOf ts)) :
    (placesOf ts p).map (row[·]?) = ts.map some := by
  induction ts generalizing p with
  | nil => rfl
  | cons t ts ih =>
    rw [subtermsOf] at h
    have hfirst := h.left
    rw [subterms_eq] at hfirst
    rw [placesOf, List.map_cons, List.map_cons, hfirst.head, ih h.right]

end Rows

/-! ### Applications -/

mutual

/-- An application stands at its place, with all that is in it. -/
theorem standAt_of_mem_applications {row : List Term} : ∀ (t : Term) {p : Nat} {a : Term × Nat},
    StandAt row p t.subterms → a ∈ applications t p →
    a.1.isLeaf = false ∧ StandAt row a.2 a.1.subterms
  | .name _, _, _, _, ha => by cases ha
  | .literal _ _, _, _, _, ha => by cases ha
  | .application f ps ts, p, a, h, ha => by
    rw [applications, List.mem_append, List.mem_singleton] at ha
    rcases ha with ha | rfl
    · rw [subterms] at h
      exact standAt_of_mem_applicationsOf ts h.tail ha
    · exact ⟨rfl, h⟩

theorem standAt_of_mem_applicationsOf {row : List Term} : ∀ (ts : List Term) {p : Nat}
    {a : Term × Nat}, StandAt row p (subtermsOf ts) → a ∈ applicationsOf ts p →
    a.1.isLeaf = false ∧ StandAt row a.2 a.1.subterms
  | [], _, _, _, ha => by cases ha
  | t :: ts, p, a, h, ha => by
    rw [applicationsOf, List.mem_append] at ha
    rw [subtermsOf] at h
    rcases ha with ha | ha
    · exact standAt_of_mem_applications t h.left ha
    · exact standAt_of_mem_applicationsOf ts h.right ha

end

mutual

/-- The applications in a term are its subterms that are no leaves, in another order. -/
theorem perm_applications : ∀ (t : Term) (p : Nat),
    (applications t p).Perm ((t.subterms.zipIdx p).filter fun a => !a.1.isLeaf)
  | .name _, _ => .refl _
  | .literal _ _, _ => .refl _
  | .application f ps ts, p => by
    rw [applications, subterms, List.zipIdx_cons, List.filter_cons_of_pos rfl]
    exact List.perm_append_comm.trans ((perm_applicationsOf ts (p + 1)).cons _)

theorem perm_applicationsOf : ∀ (ts : List Term) (p : Nat),
    (applicationsOf ts p).Perm (((subtermsOf ts).zipIdx p).filter fun a => !a.1.isLeaf)
  | [], _ => .refl _
  | t :: ts, p => by
    rw [applicationsOf, subtermsOf, List.zipIdx_append, List.filter_append]
    exact (perm_applications t p).append (perm_applicationsOf ts _)

end

end Term

/-! ### Layouts by place -/

namespace Ground
variable {g : Ground}

/-- The origins of what stands in a row from the place `p` on. -/
def originsIn (g : Ground) (p : Site) (row : List Term) : List Origin :=
  row.mapIdx fun i t => g.origin (p.shift i) t

/-- The draft of an application that stands so many places behind `p`. -/
def draftAt (g : Ground) (p : Site) (a : Term × Nat) : Draft :=
  .functional (p.shift a.2) a.1.text a.1.parameters (g.originsOf (p.shift (a.2 + 1)) a.1.operands)

theorem originsIn_append (p : Site) (row more : List Term) :
    g.originsIn p (row ++ more) = g.originsIn p row ++ g.originsIn (p.shift row.length) more := by
  simp only [originsIn, List.mapIdx_append, Site.shift_shift, Nat.add_comm]

theorem originsIn_cons (p : Site) (t : Term) (row : List Term) :
    g.originsIn p (t :: row) = g.origin p t :: g.originsIn (p.shift 1) row :=
  originsIn_append p [t] row

mutual

theorem visits_eq : ∀ (t : Term) (p : Site), g.visits p t = g.originsIn p t.subterms
  | .name _, _ => rfl
  | .literal _ _, _ => rfl
  | .application f ps ts, p => by
    rw [visits, Term.subterms, originsIn_cons, visitsOf_eq ts]
    rfl

/-- Terms refer to the origins of all that is in them, in order. -/
theorem visitsOf_eq : ∀ (ts : List Term) (p : Site),
    g.visitsOf p ts = g.originsIn p (Term.subtermsOf ts)
  | [], _ => rfl
  | t :: ts, p => by
    rw [visitsOf, Term.subtermsOf, originsIn_append, visits_eq t, visitsOf_eq ts]

end

mutual

theorem drafts_eq (p : Site) : ∀ (t : Term) (k : Nat),
    g.drafts (p.shift k) t = (t.applications k).map (g.draftAt p)
  | .name _, _ => rfl
  | .literal _ _, _ => rfl
  | .application f ps ts, k => by
    rw [drafts, Term.applications, List.map_append, Site.shift_shift, draftsOf_eq p ts]
    rfl

/-- Terms have a draft for each application that is in them, in order. -/
theorem draftsOf_eq (p : Site) : ∀ (ts : List Term) (k : Nat),
    g.draftsOf (p.shift k) ts = (Term.applicationsOf ts k).map (g.draftAt p)
  | [], _ => rfl
  | t :: ts, k => by
    rw [draftsOf, Term.applicationsOf, List.map_append, Site.shift_shift, drafts_eq p t,
      draftsOf_eq p ts]

end

theorem origin_mem_originsIn {p : Site} {row : List Term} {t : Term} {i : Nat}
    (ht : row[i]? = some t) : g.origin (p.shift i) t ∈ g.originsIn p row := by
  obtain ⟨hlt, rfl⟩ := List.getElem?_eq_some_iff.mp ht
  exact List.mem_mapIdx.mpr ⟨i, hlt, rfl⟩

/-- If a place has the number of its origin, then operands have the numbers of their places. -/
theorem map_originsOf {row : List Term} {p : Site} {numbers : Origin → VariableId}
    {numberAt : Nat → VariableId}
    (hnumbers : ∀ i t, row[i]? = some t → numbers (g.origin (p.shift i) t) = numberAt i)
    (ts : List Term) {k : Nat} (h : Term.StandAt row k (Term.subtermsOf ts)) :
    (g.originsOf (p.shift k) ts).map numbers = (Term.placesOf ts k).map numberAt := by
  induction ts generalizing k with
  | nil => rfl
  | cons t ts ih =>
    rw [Term.subtermsOf] at h
    have hfirst := h.left
    rw [Term.subterms_eq] at hfirst
    rw [originsOf, Term.placesOf, List.map_cons, List.map_cons, hnumbers k t hfirst.head,
      Site.shift_shift, ih h.right]

end Ground

end ConstraintNet
