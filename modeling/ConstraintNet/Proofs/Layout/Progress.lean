import ConstraintNet.Proofs.Layout.Additions

/-! How far a row has been lowered.

The subterms of a term are lowered in a row, from left to right, so at any time the row has
been lowered up to some place, and the origins that stand before it are registered
(`Ground.reached`). Nothing is registered for that place yet. An operand takes the row from
its own place to the end of all that is in it, and gets the number that its place has
(`Lowering.operand_reaches`). -/
namespace ConstraintNet

/-! ### Rows -/

namespace Term
variable {row part : List Term} {p : Nat}

theorem StandAt.le_length {t : Term} (h : StandAt row p (t :: part)) : p ≤ row.length :=
  Nat.le_of_lt (List.getElem?_eq_some_iff.mp h.head).1

/-- What is before a part, and the part itself, is what is before the end of it. -/
theorem StandAt.take_append (h : StandAt row p part) :
    row.take p ++ part = row.take (p + part.length) := by
  rw [List.take_add]
  refine congrArg _ (List.ext_getElem? fun i => ?_)
  by_cases hi : i < part.length
  · rw [List.getElem?_take_of_lt hi, List.getElem?_drop, List.getElem?_eq_getElem hi]
    exact (h i _ (List.getElem?_eq_getElem hi)).symm
  · have hlength := List.length_take_le part.length (row.drop p)
    rw [List.getElem?_eq_none (Nat.le_of_not_lt hi), List.getElem?_eq_none (by omega)]

theorem StandAt.take_concat {t : Term} (h : StandAt row p (t :: part)) :
    row.take p ++ [t] = row.take (p + 1) :=
  (show StandAt row p ([t] ++ part) from h).left.take_append

end Term

/-! ### Layouts -/

namespace Ground
variable {g : Ground}

/-- What is registered when a row has been lowered up to the place `p`. -/
def reached (g : Ground) (os : List Origin) (b : Site) (row : List Term) (p : Nat) : List Origin :=
  gather os (g.originsIn b (row.take p))

variable {os : List Origin} {ds : List Draft} {b : Site} {row part : List Term} {t : Term} {p q : Nat}

theorem reached_zero : g.reached os b row 0 = os := by
  rw [reached, List.take_zero]
  rfl

/-- Once the next part is lowered, the end of it is reached. -/
theorem gather_reached (h : Term.StandAt row p part) :
    gather (g.reached os b row p) (g.originsIn (b.shift p) part) =
      g.reached os b row (p + part.length) := by
  cases part with
  | nil => rfl
  | cons t part =>
    have hlength : (row.take p).length = p := by
      rw [List.length_take, Nat.min_eq_left h.le_length]
    rw [reached, reached, ← h.take_append, originsIn_append, gather_append, hlength]

theorem reached_kept (p : Nat) : g.reached os b row p <+: gather os (g.originsIn b row) := by
  rw [reached]
  conv_rhs => rw [← List.take_append_drop p row, originsIn_append, gather_append]
  exact prefix_gather ..

/-- What stands in a row has its own place, or none. -/
theorem site?_origin {r : Site} (h : (g.origin b t).site? = some r) : r = b := by
  cases t with
  | name x =>
    rw [origin, site?_name] at h
    cases h
  | literal text value => exact eq_of_site?_constant h
  | application f ps ts => exact (Option.some.inj h).symm

/-- Nothing is registered yet for the place that is reached. -/
theorem ahead_reached (hb : Ahead os b) (p : Nat) : Ahead (g.reached os b row p) (b.shift p) := by
  refine hb.gather fun o ho r hr => ?_
  obtain ⟨i, hi, rfl⟩ := List.mem_mapIdx.mp ho
  obtain rfl := site?_origin hr
  rw [List.length_take] at hi
  exact ⟨rfl, Nat.le_add_right .., Nat.add_lt_add_left (by omega) b.place⟩

end Ground

section
variable {σ : Type} [Store σ] [LawfulStore σ] {s : Session σ} {g : Ground} {os : List Origin}
  {ds ds' : List Draft} {b : Site} {row : List Term} {t : Term} {p q : Nat}

namespace Session.Realises

/-- The variable at the place that is reached is new if one is added for the place. -/
theorem added?_eq_none_iff (h : s.Realises g os ds) (hb : Ahead os b) :
    s.added? (row.take p) t = none ↔ g.origin (b.shift p) t ∈ g.reached os b row p := by
  have hnew := h.origin_notMem_iff hb (t := t) (List.length_take_le p row)
  rw [Ground.reached, added?]
  split
  · next hadd => simpa using hnew.mpr hadd
  · next hadd => simpa using fun hnot => hadd (hnew.mp hnot)

/-- A place that has been lowered has its number. -/
theorem number_reached (h : s.Realises g os ds) (hb : Ahead os b) (hp : row[p]? = some t)
    (hmem : g.origin (b.shift p) t ∈ g.reached os b row q) :
    number (g.reached os b row q) (g.origin (b.shift p) t) = s.numberAt row p := by
  rw [← h.number_eq hb hp]
  exact (number_of_kept (Ground.reached_kept q) hmem).symm

end Session.Realises

/-! ### Operands -/

namespace Lowering
variable {l : Lowering σ}

/-- An operand is lowered up to the end of what is in it, and gets the number of its place. -/
theorem operand_reaches (h : s.Realises g os ds) (hb : Ahead os b)
    (hp : Term.StandAt row p t.subterms) (hl : l.Realises g (g.reached os b row p) ds') :
    (operand t l).2.Realises g (g.reached os b row (p + t.subterms.length))
        (ds' ++ g.drafts (b.shift p) t) ∧
      (operand t l).1 = s.numberAt row p := by
  obtain ⟨hafter, hid⟩ := operand_realises t hl (Ground.ahead_reached hb p)
  have hmem := mem_gather.mpr
    (.inr (Ground.origin_mem_visits (g := g) (b.shift p) t) : _ ∈ g.reached os b row p ∨ _)
  have hplace := Term.subterms_eq t ▸ hp
  rw [Ground.visits_eq, Ground.gather_reached hp] at hafter hid hmem
  exact ⟨hafter, hid.trans (h.number_reached hb hplace.head hmem)⟩

/-- The result of an application is registered first. -/
theorem result_reaches {f : String} {ps : List Parameter} {ts : List Term} (hb : Ahead os b)
    (hp : Term.StandAt row p (Term.application f ps ts).subterms)
    (hl : l.Realises g (g.reached os b row p) ds') :
    (l.introduce .auxiliary).2.Realises g (g.reached os b row (p + 1)) ds' := by
  have hnew : Origin.result (b.shift p) ∉ g.reached os b row p :=
    (Ground.ahead_reached hb p).notMem rfl
  obtain ⟨hresult, -⟩ := introduce_realises hl hnew (x := .auxiliary) rfl rfl
    (fun y => Ground.name_ne_result y) fun _ value => Ground.shared_ne_result value
  rw [← gather_singleton_of_notMem hnew] at hresult
  have hfirst : Term.StandAt row p [.application f ps ts] :=
    (show Term.StandAt row p ([.application f ps ts] ++ Term.subtermsOf ts) from hp).left
  have hnext : gather (g.reached os b row p) [.result (b.shift p)] = g.reached os b row (p + 1) :=
    Ground.gather_reached hfirst
  rwa [hnext] at hresult

end Lowering

end

end ConstraintNet
