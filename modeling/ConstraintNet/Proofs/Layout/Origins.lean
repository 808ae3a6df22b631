import ConstraintNet.Compile.Session
import Mathlib.Data.List.Nodup

/-! Where variables come from.

The number of a variable is an accident of all that was registered before it. Its
origin is not (`Origin`): it was given from the start, or it belongs to a name, to
a value, or to one place in one of the texts.

So what a text becomes can be laid out without a store. There are the origins that
its term refers to, in the order in which lowering comes to them (`Ground.visits`),
and its constraints over origins instead of numbers, in the order in which they are
posted (`Ground.drafts`). An origin gets a variable when it is referred to for the
first time (`gather`), and then its number is its place in the list (`number`).

All that has to be known of the store is what was given: its entries, which names
and values have a variable already, and which literals share one (`Ground`). -/
namespace ConstraintNet

/-! ### Origins -/

/-- One place in one of some texts: a subterm, by its place among all of them. -/
structure Site where
  text : Nat
  place : Nat
deriving DecidableEq, Repr

namespace Site

/-- So many places further on. -/
def shift (p : Site) (n : Nat) : Site :=
  {p with place := p.place + n}

theorem shift_shift (p : Site) (m n : Nat) : (p.shift m).shift n = p.shift (m + n) := by
  simp only [shift, Nat.add_assoc]

theorem shift_ne {p : Site} {m n : Nat} (h : m < n) : p.shift m ≠ p.shift n :=
  fun heq => Nat.ne_of_lt h (Nat.add_left_cancel (congrArg place heq))

/-- Among the first `n` places from `p` on. -/
def Within (p : Site) (n : Nat) (q : Site) : Prop :=
  q.text = p.text ∧ p.place ≤ q.place ∧ q.place < p.place + n

theorem Within.mono {p q r : Site} {m n : Nat} (h : Within q m r) (htext : q.text = p.text)
    (hfirst : p.place ≤ q.place) (hlast : q.place + m ≤ p.place + n) : Within p n r := by
  obtain ⟨hr, hge, hlt⟩ := h
  exact ⟨hr.trans htext, by omega, by omega⟩

end Site

inductive Origin where
  /-- The variable that was there before `i` others from the start. -/
  | given (i : Nat)
  | name (name : String)
  | result (site : Site)
  /-- A constant, with the place that it is for unless it is shared. -/
  | constant (site? : Option Site) (value : Int64)
deriving DecidableEq, Repr

def Origin.site? : Origin → Option Site
  | .result site => some site
  | .constant site? _ => site?
  | _ => none

/-- A constraint over origins. The result of a functional one is that of its place. -/
inductive Draft where
  /-- The constraint that was there before `k` others from the start. -/
  | given (k : Nat)
  | functional (site : Site) (operator : String) (parameters : List Parameter)
      (operands : List Origin)
  | general (site : Site) (operator : String) (parameters : List Parameter) (operands : List Origin)
deriving DecidableEq, Repr

namespace Draft

def site? : Draft → Option Site
  | .given _ => none
  | .functional site .. => some site
  | .general site .. => some site

/-- The origins in its scope. -/
def mentions : Draft → List Origin
  | .given _ => []
  | .functional site _ _ operands => .result site :: operands
  | .general _ _ _ operands => operands

end Draft

/-! ### What is given -/

structure Ground where
  sharing : Sharing
  vars : Array Variable
  constraints : Array Constraint
  /-- The variables of names. -/
  names : String → Option VariableId
  /-- The constants that literals share. -/
  constants : Int64 → Option VariableId

/-- What is given to those who go on with a session. -/
def Session.ground {σ : Type} [Store σ] (s : Session σ) : Ground where
  sharing := s.sharing
  vars := Store.vars s.store
  constraints := Store.constraints s.store
  names := Store.find? s.store
  constants value := s.constants[value]?

/-- What is given to a new session. -/
def Store.ground {σ : Type} [Store σ] (s : σ) (sharing : Sharing) : Ground :=
  Session.ground {store := s, sharing}

namespace Ground
variable (g : Ground)

/-- The origins of the variables that are given. -/
def givens : List Origin :=
  (List.range g.vars.size).map .given

/-- The constraints that are given. -/
def posted : List Draft :=
  (List.range g.constraints.size).map .given

/-- What is registered for an origin. -/
def content : Origin → Option Variable
  | .given i => g.vars[i]?
  | .name name => some (.named name)
  | .result _ => some .auxiliary
  | .constant _ value => some (.constant value)

/-- The constraint of a draft, once its origins have numbers. -/
def build (numbers : Origin → VariableId) : Draft → Option Constraint
  | .given k => g.constraints[k]?
  | .functional site operator parameters operands =>
    some (.functional (numbers (.result site)) operator parameters (operands.map numbers))
  | .general _ operator parameters operands =>
    some (.general operator parameters (operands.map numbers))

/-! ### The layout of a term -/

def name (name : String) : Origin :=
  match g.names name with
  | some v => .given v.toNat
  | none => .name name

/-- A constant that literals share. -/
def shared (value : Int64) : Origin :=
  match g.constants value with
  | some v => .given v.toNat
  | none => .constant none value

def constant (p : Site) (value : Int64) : Origin :=
  match g.sharing with
  | .perOccurrence => .constant (some p) value
  | .perValue => g.shared value

/-- The origin of what an operand becomes. -/
def origin (p : Site) : Term → Origin
  | .name text => g.name text
  | .literal _ value => g.constant p value
  | .application .. => .result p

def originsOf : Site → List Term → List Origin
  | _, [] => []
  | p, t :: ts => g.origin p t :: originsOf (p.shift t.subterms.length) ts

mutual

/-- The origins that an operand refers to, on the way down. -/
def visits : Site → Term → List Origin
  | _, .name text => [g.name text]
  | p, .literal _ value => [g.constant p value]
  | p, .application _ _ ts => .result p :: visitsOf (p.shift 1) ts

def visitsOf : Site → List Term → List Origin
  | _, [] => []
  | p, t :: ts => visits p t ++ visitsOf (p.shift t.subterms.length) ts

end

mutual

/-- The constraints of an operand, on the way up. -/
def drafts : Site → Term → List Draft
  | _, .name _ => []
  | _, .literal _ _ => []
  | p, .application operator parameters ts =>
    draftsOf (p.shift 1) ts ++ [.functional p operator parameters (g.originsOf (p.shift 1) ts)]

def draftsOf : Site → List Term → List Draft
  | _, [] => []
  | p, t :: ts => drafts p t ++ draftsOf (p.shift t.subterms.length) ts

end

variable {g} {p q : Site}

/-- The same numbers for all that is in its scope give the same constraint. -/
theorem build_congr {numbers numbers' : Origin → VariableId} {d : Draft}
    (h : ∀ o ∈ d.mentions, numbers o = numbers' o) : g.build numbers d = g.build numbers' d := by
  cases d with
  | given k => rfl
  | functional site f ps os =>
    rw [build, build, h _ List.mem_cons_self,
      List.map_congr_left fun o ho => h o (List.mem_cons_of_mem _ ho)]
  | general site f ps os =>
    rw [build, build, List.map_congr_left (l := os) h]

/-! ### Kinds -/

theorem name_of_some {x : String} {v : VariableId} (h : g.names x = some v) :
    g.name x = .given v.toNat := by
  rw [Ground.name, h]

theorem name_of_none {x : String} (h : g.names x = none) : g.name x = .name x := by
  rw [Ground.name, h]

theorem shared_of_some {value : Int64} {v : VariableId} (h : g.constants value = some v) :
    g.shared value = .given v.toNat := by
  rw [shared, h]

theorem shared_of_none {value : Int64} (h : g.constants value = none) :
    g.shared value = .constant none value := by
  rw [shared, h]

theorem name_eq_name_iff {x y : String} : g.name y = .name x ↔ g.names y = none ∧ y = x := by
  unfold Ground.name
  split <;> simp_all

theorem name_ne_result (x : String) : g.name x ≠ .result p := by
  unfold Ground.name
  split <;> exact Origin.noConfusion

theorem name_ne_constant (x : String) (site? : Option Site) (value : Int64) :
    g.name x ≠ .constant site? value := by
  unfold Ground.name
  split <;> exact Origin.noConfusion

/-- A new session has no constants that literals share. -/
theorem constants_ground {σ : Type} [Store σ] (s : σ) (sharing : Sharing) (value : Int64) :
    (Store.ground s sharing).constants value = none := by
  simp [Store.ground, Session.ground]

theorem shared_ground {σ : Type} [Store σ] (s : σ) (sharing : Sharing) (value : Int64) :
    (Store.ground s sharing).shared value = .constant none value :=
  shared_of_none (constants_ground s sharing value)

theorem shared_eq_constant_iff {value other : Int64} :
    g.shared other = .constant none value ↔ g.constants other = none ∧ other = value := by
  unfold shared
  split <;> simp_all

theorem shared_ne_result (value : Int64) : g.shared value ≠ .result p := by
  unfold shared
  split <;> exact Origin.noConfusion

theorem shared_ne_name (value : Int64) (x : String) : g.shared value ≠ .name x := by
  unfold shared
  split <;> exact Origin.noConfusion

theorem constant_perOccurrence (h : g.sharing = .perOccurrence) (p : Site) (value : Int64) :
    g.constant p value = .constant (some p) value := by
  rw [constant, h]

theorem constant_perValue (h : g.sharing = .perValue) (p : Site) (value : Int64) :
    g.constant p value = g.shared value := by
  rw [constant, h]

/-! ### Places -/

theorem site?_name (name : String) : (g.name name).site? = none := by
  unfold Ground.name
  split <;> rfl

theorem site?_shared (value : Int64) : (g.shared value).site? = none := by
  unfold shared
  split <;> rfl

theorem eq_of_site?_constant {value : Int64} (h : (g.constant p value).site? = some q) : q = p := by
  unfold constant at h
  split at h
  · exact (Option.some.inj h).symm
  · rw [site?_shared] at h
    cases h

mutual

/-- A term refers to no places but its own. -/
theorem within_of_mem_visits : ∀ (t : Term) {p : Site} {o : Origin}, o ∈ g.visits p t →
    o.site? = some q → p.Within t.subterms.length q
  | .name text, p, o, ho, hq => by
    rw [visits, List.mem_singleton] at ho
    rw [ho, site?_name] at hq
    cases hq
  | .literal _ value, p, o, ho, hq => by
    rw [visits, List.mem_singleton] at ho
    rw [ho] at hq
    rw [eq_of_site?_constant hq]
    exact ⟨rfl, Nat.le_refl _, Nat.lt_succ_self _⟩
  | .application f ps ts, p, o, ho, hq => by
    rw [visits, List.mem_cons] at ho
    rw [Term.subterms, List.length_cons]
    rcases ho with rfl | ho
    · cases hq
      exact ⟨rfl, Nat.le_refl _, by omega⟩
    · exact (within_of_mem_visitsOf ts ho hq).mono rfl (Nat.le_succ p.place)
        (by simp only [Site.shift]; omega)

theorem within_of_mem_visitsOf : ∀ (ts : List Term) {p : Site} {o : Origin}, o ∈ g.visitsOf p ts →
    o.site? = some q → p.Within (Term.subtermsOf ts).length q
  | [], p, o, ho, hq => by cases ho
  | t :: ts, p, o, ho, hq => by
    rw [visitsOf, List.mem_append] at ho
    rw [Term.subtermsOf, List.length_append]
    rcases ho with ho | ho
    · exact (within_of_mem_visits t ho hq).mono rfl (Nat.le_refl _) (by omega)
    · exact (within_of_mem_visitsOf ts ho hq).mono rfl (Nat.le_add_right p.place _)
        (by simp only [Site.shift]; omega)

end

mutual

/-- The constraints of a term are for places of its own. -/
theorem site_of_mem_drafts : ∀ (t : Term) {p : Site} {d : Draft}, d ∈ g.drafts p t →
    ∃ q, d.site? = some q ∧ p.Within t.subterms.length q
  | .name _, p, d, hd => by cases hd
  | .literal _ _, p, d, hd => by cases hd
  | .application f ps ts, p, d, hd => by
    rw [drafts, List.mem_append, List.mem_singleton] at hd
    rw [Term.subterms, List.length_cons]
    rcases hd with hd | rfl
    · obtain ⟨q, hq, hwithin⟩ := site_of_mem_draftsOf ts hd
      exact ⟨q, hq, hwithin.mono rfl (Nat.le_succ p.place) (by simp only [Site.shift]; omega)⟩
    · exact ⟨p, rfl, rfl, Nat.le_refl _, by omega⟩

theorem site_of_mem_draftsOf : ∀ (ts : List Term) {p : Site} {d : Draft}, d ∈ g.draftsOf p ts →
    ∃ q, d.site? = some q ∧ p.Within (Term.subtermsOf ts).length q
  | [], p, d, hd => by cases hd
  | t :: ts, p, d, hd => by
    rw [draftsOf, List.mem_append] at hd
    rw [Term.subtermsOf, List.length_append]
    rcases hd with hd | hd
    · obtain ⟨q, hq, hwithin⟩ := site_of_mem_drafts t hd
      exact ⟨q, hq, hwithin.mono rfl (Nat.le_refl _) (by omega)⟩
    · obtain ⟨q, hq, hwithin⟩ := site_of_mem_draftsOf ts hd
      exact ⟨q, hq, hwithin.mono rfl (Nat.le_add_right p.place _) (by simp only [Site.shift]; omega)⟩

end

mutual

/-- No two constraints of a term are for the same place. -/
theorem nodup_drafts : ∀ (t : Term) (p : Site), (g.drafts p t).Nodup
  | .name _, _ => List.nodup_nil
  | .literal _ _, _ => List.nodup_nil
  | .application f ps ts, p => by
    refine (nodup_draftsOf ts (p.shift 1)).append (List.nodup_singleton _) ?_
    intro d hd hd'
    obtain ⟨q, hq, _, hfirst, _⟩ := site_of_mem_draftsOf ts hd
    obtain rfl := List.mem_singleton.mp hd'
    cases hq
    simp only [Site.shift] at hfirst
    omega

theorem nodup_draftsOf : ∀ (ts : List Term) (p : Site), (g.draftsOf p ts).Nodup
  | [], _ => List.nodup_nil
  | t :: ts, p => by
    refine (nodup_drafts t p).append (nodup_draftsOf ts _) ?_
    intro d hd hd'
    obtain ⟨q, hq, _, _, hlast⟩ := site_of_mem_drafts t hd
    obtain ⟨q', hq', _, hfirst, _⟩ := site_of_mem_draftsOf ts hd'
    obtain rfl := Option.some.inj (hq.symm.trans hq')
    simp only [Site.shift] at hfirst
    omega

end

theorem origin_mem_visits (p : Site) (t : Term) : g.origin p t ∈ g.visits p t := by
  cases t with
  | name => exact List.mem_singleton_self _
  | literal => exact List.mem_singleton_self _
  | application => exact List.mem_cons_self

theorem mem_visitsOf_of_mem_originsOf {o : Origin} (ts : List Term) {p : Site}
    (ho : o ∈ g.originsOf p ts) : o ∈ g.visitsOf p ts := by
  induction ts generalizing p with
  | nil => cases ho
  | cons t ts ih =>
    rw [originsOf, List.mem_cons] at ho
    rw [visitsOf, List.mem_append]
    rcases ho with rfl | ho
    · exact .inl (origin_mem_visits p t)
    · exact .inr (ih ho)

end Ground

/-! ### Numbers -/

/-- Registers origins that are referred to, each at the first time. -/
def gather (os : List Origin) (refs : List Origin) : List Origin :=
  refs.foldl (fun os o => if o ∈ os then os else os ++ [o]) os

/-- The number of an origin: its place among those that are registered. -/
def number (os : List Origin) (o : Origin) : VariableId :=
  .ofNat (os.idxOf o)

/-- The number of an origin if it is registered. -/
def numberOf? (os : List Origin) (o : Origin) : Option VariableId :=
  if o ∈ os then some (number os o) else none

section Numbers
variable {os refs : List Origin} {o : Origin}

theorem gather_singleton_of_mem (h : o ∈ os) : gather os [o] = os := by
  simp [gather, h]

theorem gather_singleton_of_notMem (h : o ∉ os) : gather os [o] = os ++ [o] := by
  simp [gather, h]

theorem gather_append (os refs more : List Origin) :
    gather os (refs ++ more) = gather (gather os refs) more :=
  List.foldl_append

theorem gather_cons (os : List Origin) (o : Origin) (refs : List Origin) :
    gather os (o :: refs) = gather (gather os [o]) refs :=
  gather_append os [o] refs

theorem mem_gather : o ∈ gather os refs ↔ o ∈ os ∨ o ∈ refs := by
  induction refs generalizing os with
  | nil => simp [gather]
  | cons p refs ih =>
    rw [gather_cons, ih, List.mem_cons]
    by_cases hp : p ∈ os
    · rw [gather_singleton_of_mem hp]
      constructor
      · exact Or.imp_right .inr
      · rintro (h | rfl | h)
        · exact .inl h
        · exact .inl hp
        · exact .inr h
    · rw [gather_singleton_of_notMem hp, List.mem_append, List.mem_singleton, or_assoc]

theorem prefix_gather (os refs : List Origin) : os <+: gather os refs := by
  induction refs generalizing os with
  | nil => exact List.prefix_rfl
  | cons p refs ih =>
    rw [gather_cons]
    refine .trans ?_ (ih _)
    by_cases hp : p ∈ os
    · exact ⟨[], by rw [gather_singleton_of_mem hp, List.append_nil]⟩
    · exact ⟨[p], by rw [gather_singleton_of_notMem hp]⟩

theorem nodup_gather (h : os.Nodup) (refs : List Origin) : (gather os refs).Nodup := by
  induction refs generalizing os with
  | nil => exact h
  | cons p refs ih =>
    rw [gather_cons]
    by_cases hp : p ∈ os
    · rw [gather_singleton_of_mem hp]
      exact ih h
    · rw [gather_singleton_of_notMem hp]
      exact ih (List.nodup_append.mpr ⟨h, List.nodup_singleton p, by grind⟩)

/-- Numbers stay when more is registered. -/
theorem number_of_kept {os' : List Origin} (h : os <+: os') (ho : o ∈ os) :
    number os' o = number os o := by
  obtain ⟨more, rfl⟩ := h
  rw [number, number, List.idxOf_append_of_mem ho]

theorem number_concat (h : o ∉ os) : number (os ++ [o]) o = .ofNat os.length := by
  rw [number, List.idxOf_append_of_notMem h, List.idxOf_cons_self, Nat.add_zero]

theorem numberOf?_of_mem (h : o ∈ os) : numberOf? os o = some (number os o) :=
  if_pos h

theorem numberOf?_of_notMem (h : o ∉ os) : numberOf? os o = none :=
  if_neg h

theorem numberOf?_eq_none_iff : numberOf? os o = none ↔ o ∉ os := by
  simp [numberOf?]

theorem numberOf?_concat (h : o ∉ os) (o' : Origin) :
    numberOf? (os ++ [o]) o' =
      (numberOf? os o').or (if o' = o then some (.ofNat os.length) else none) := by
  by_cases ho' : o' ∈ os
  · rw [numberOf?_of_mem ho', numberOf?_of_mem (List.mem_append_left _ ho'),
      number_of_kept (List.prefix_append ..) ho']
    rfl
  · rw [numberOf?_of_notMem ho', Option.none_or]
    split
    · next heq =>
      rw [heq, numberOf?_of_mem (List.mem_append_right _ (List.mem_singleton_self o)), number_concat h]
    · next hne =>
      refine numberOf?_of_notMem fun hmem => ?_
      rcases List.mem_append.mp hmem with hmem | hmem
      · exact ho' hmem
      · exact hne (List.mem_singleton.mp hmem)

end Numbers

end ConstraintNet
