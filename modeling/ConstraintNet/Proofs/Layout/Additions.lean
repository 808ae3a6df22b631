import ConstraintNet.Proofs.Layout.Places
import ConstraintNet.Proofs.Layout.Renumbering

/-! What is added for a row of terms.

Whether a variable is added for a place in a row can be told from the row and from
what a session has before it. Nothing is added for a name or literal that has a
variable (`Session.held?`), or that shares one with an earlier place
(`Session.shares`); for any other place there is an addition, and they come in the
order of their places (`Session.additions`). So the number of the variable at a place
can be told, too (`Session.numberAt`).

In a layout the origins of the row are registered (`Ground.originsIn`), and that comes
to the same: what is registered for them are the additions
(`Session.Realises.gather_originsIn`), and the number of an origin is that of its
place (`Session.Realises.number_eq`). -/
namespace ConstraintNet

namespace Term

/-- What stands below the root of a term: all its operands, with all that is in them. -/
def row (t : Term) : List Term :=
  subtermsOf t.operands

/-- What is registered for an operand, if anything is. -/
def entry : Term → Variable
  | .name text => .named text
  | .literal _ value => .constant value
  | .application .. => .auxiliary

/-- The origin of an operand for which something is registered. -/
def newOrigin (sharing : Sharing) (p : Site) : Term → Origin
  | .name text => .name text
  | .literal _ value =>
    match sharing with
    | .perOccurrence => .constant (some p) value
    | .perValue => .constant none value
  | .application .. => .result p

end Term

namespace Session
variable {σ : Type}

/-! ### Shared variables -/

/-- Two operands share a variable: they have one name, or one value and constants are
shared. -/
def shares (s : Session σ) : Term → Term → Bool
  | .name x, .name y => x == y
  | .literal _ value, .literal _ other => s.sharing == .perValue && value == other
  | _, _ => false

/-- The first place in a row that shares its variable with the place `p`. -/
def firstPlace (s : Session σ) (row : List Term) (p : Nat) : Nat :=
  (row[p]?.bind fun t => (row.take p).findIdx? (s.shares t)).getD p

/-- The first place that shares a variable with another is that place itself, or one that does
before it. None before the first does. -/
theorem firstPlace_spec (s : Session σ) {row : List Term} {p : Nat} {t : Term}
    (ht : row[p]? = some t) :
    s.firstPlace row p ≤ p ∧
      (∃ u, row[s.firstPlace row p]? = some u ∧ (s.firstPlace row p < p → s.shares t u = true)) ∧
      ∀ u ∈ row.take (s.firstPlace row p), s.shares t u = false := by
  unfold firstPlace
  rw [ht, Option.bind_some]
  cases hfind : (row.take p).findIdx? (s.shares t) with
  | none =>
    rw [Option.getD_none]
    exact ⟨Nat.le_refl p, ⟨t, ht, fun hlt => absurd hlt (Nat.lt_irrefl p)⟩,
      List.findIdx?_eq_none_iff.mp hfind⟩
  | some q =>
    obtain ⟨hlt, hshares, hfirst⟩ := List.findIdx?_eq_some_iff_getElem.mp hfind
    rw [Option.getD_some]
    have hq : q < p := Nat.lt_of_lt_of_le hlt (List.length_take_le p row)
    refine ⟨Nat.le_of_lt hq, ⟨(row.take p)[q], ?_, fun _ => hshares⟩, ?_⟩
    · rw [← List.getElem?_take_of_lt hq]
      exact List.getElem?_eq_getElem hlt
    · intro u hu
      obtain ⟨i, hi, rfl⟩ := List.getElem_of_mem hu
      have hnone := hfirst i (Nat.lt_of_lt_of_le hi (List.length_take_le q row))
      rw [List.getElem_take] at hnone ⊢
      exact Bool.eq_false_iff.mpr hnone

/-- New operands have the same origin, from different places, only if they share a variable. -/
theorem shares_of_newOrigin {s : Session σ} {sharing : Sharing} (hs : s.sharing = sharing) {p q : Site}
    (hne : q ≠ p) {t u : Term} (heq : u.newOrigin sharing q = t.newOrigin sharing p) :
    s.shares t u = true := by
  subst hs
  cases t <;> cases u <;> cases hs : s.sharing <;> simp_all [Term.newOrigin, shares]

/-! ### Additions -/

variable [Store σ]

/-- The variable that there is for an operand: that of its name, or the constant that the
session has for its value. -/
def held? (s : Session σ) : Term → Option VariableId
  | .name text => Store.find? s.store text
  | .literal _ value =>
    match s.sharing with
    | .perOccurrence => none
    | .perValue => s.constants[value]?
  | .application .. => none

/-- What is added for an operand that stands in a row behind others. -/
def added? (s : Session σ) (earlier : List Term) (t : Term) : Option Variable :=
  if s.held? t = none ∧ ∀ u ∈ earlier, s.shares t u = false then some t.entry else none

/-- What is added for operands that stand in a row behind others. -/
def additions (s : Session σ) : List Term → List Term → List Variable
  | _, [] => []
  | earlier, t :: ts => (s.added? earlier t).toList ++ additions s (earlier ++ [t]) ts

/-- The number of the variable at a place: that of the one that there is, or else of the one
that is added for the first place to share it. -/
def numberAt (s : Session σ) (row : List Term) (p : Nat) : VariableId :=
  (row[p]?.bind s.held?).getD
    (.ofNat ((Store.vars s.store).size + (s.additions [] (row.take (s.firstPlace row p))).length))

theorem additions_append (s : Session σ) (earlier row more : List Term) :
    s.additions earlier (row ++ more) = s.additions earlier row ++ s.additions (earlier ++ row) more := by
  induction row generalizing earlier with
  | nil => simp [additions]
  | cons t row ih => simp [additions, ih]

/-- What is added for a place is counted among all additions. -/
theorem length_additions_take_lt (s : Session σ) {row : List Term} {p : Nat} {u : Term} {x : Variable}
    (hu : row[p]? = some u) (hx : s.added? (row.take p) u = some x) :
    (s.additions [] (row.take p)).length < (s.additions [] row).length := by
  obtain ⟨hlt, rfl⟩ := List.getElem?_eq_some_iff.mp hu
  conv_rhs => rw [← List.take_append_drop p row, List.drop_eq_getElem_cons hlt]
  rw [additions_append, additions, List.nil_append, hx]
  simp

/-- A place for which something is added has the next number. -/
theorem numberAt_of_added (s : Session σ) {row : List Term} {p : Nat} {u : Term} {x : Variable}
    (hu : row[p]? = some u) (hx : s.added? (row.take p) u = some x) :
    s.numberAt row p =
      .ofNat ((Store.vars s.store).size + (s.additions [] (row.take p)).length) := by
  unfold added? at hx
  split at hx
  · next hadd =>
    have hfind : (row.take p).findIdx? (s.shares u) = none := List.findIdx?_eq_none_iff.mpr hadd.2
    rw [numberAt, firstPlace, hu, Option.bind_some, Option.bind_some, hadd.1, hfind]
    rfl
  · cases hx

end Session

/-! ### Layouts -/

namespace Session.Realises
variable {σ : Type} [Store σ] [LawfulStore σ] {s : Session σ} {g : Ground} {os : List Origin}
  {ds : List Draft} {b : Site} {row : List Term} {t u : Term} {p q : Nat}

/-- An operand is held if its origin is registered. -/
theorem held?_eq (h : s.Realises g os ds) (hb : Ahead os b) (t : Term) :
    s.held? t = numberOf? os (g.origin b t) := by
  cases t with
  | name x => exact h.store.names x
  | literal text value =>
    rw [held?, Ground.origin, h.sharing]
    cases hg : g.sharing with
    | perOccurrence => rw [Ground.constant_perOccurrence hg, numberOf?_of_notMem (hb.notMem rfl)]
    | perValue =>
      rw [Ground.constant_perValue hg]
      exact h.constants hg value
  | application f ps ts => exact (numberOf?_of_notMem (hb.notMem rfl)).symm

theorem held?_eq_none_iff (h : s.Realises g os ds) (hb : Ahead os b) (t : Term) :
    s.held? t = none ↔ g.origin b t ∉ os := by
  rw [h.held?_eq hb, numberOf?_eq_none_iff]

/-- Operands that share a variable have the same origin, wherever they stand. -/
theorem origin_of_shares (h : s.Realises g os ds) {b' : Site} (hshares : s.shares t u = true) :
    g.origin b' u = g.origin b t := by
  cases t with
  | name x =>
    cases u with
    | name y =>
      obtain rfl : x = y := by simpa [shares] using hshares
      rfl
    | literal | application => simp [shares] at hshares
  | literal text value =>
    cases u with
    | literal text' other =>
      obtain ⟨hs, rfl⟩ : s.sharing = .perValue ∧ value = other := by simpa [shares] using hshares
      have hg := h.sharing.symm.trans hs
      rw [Ground.origin, Ground.origin, Ground.constant_perValue hg, Ground.constant_perValue hg]
    | name | application => simp [shares] at hshares
  | application f ps ts => simp [shares] at hshares

theorem origin_of_new (h : s.Realises g os ds) (hnew : g.origin b t ∉ os) :
    g.origin b t = t.newOrigin g.sharing b := by
  cases t with
  | name x => exact Ground.name_of_none (h.store.name_new hnew)
  | literal text value =>
    rw [Ground.origin] at hnew ⊢
    cases hg : g.sharing with
    | perOccurrence => exact Ground.constant_perOccurrence hg b value
    | perValue =>
      rw [Ground.constant_perValue hg] at hnew ⊢
      exact Ground.shared_of_none (h.shared_new hnew)
  | application f ps ts => rfl

/-- Whoever has the same origin as a new operand shares its variable. -/
theorem origin_eq_iff (h : s.Realises g os ds) {b' : Site} (hne : b' ≠ b)
    (hnew : g.origin b t ∉ os) : g.origin b' u = g.origin b t ↔ s.shares t u = true := by
  refine ⟨fun heq => ?_, h.origin_of_shares⟩
  have hnew' : g.origin b' u ∉ os := heq ▸ hnew
  rw [h.origin_of_new hnew, h.origin_of_new hnew'] at heq
  exact shares_of_newOrigin h.sharing hne heq

/-- An operand behind others is new if there is no variable for it, and none of them shares
the one that it gets. -/
theorem origin_notMem_iff (h : s.Realises g os ds) (hb : Ahead os b) (hp : row.length ≤ p) :
    g.origin (b.shift p) t ∉ gather os (g.originsIn b row) ↔
      s.held? t = none ∧ ∀ u ∈ row, s.shares t u = false := by
  rw [mem_gather, not_or, h.held?_eq_none_iff (hb.shift p)]
  refine and_congr_right fun hnew => ?_
  constructor
  · intro hnot u hu
    obtain ⟨i, hi, rfl⟩ := List.getElem_of_mem hu
    refine Bool.eq_false_iff.mpr fun hshares => hnot (List.mem_mapIdx.mpr ⟨i, hi, ?_⟩)
    exact (h.origin_eq_iff (Site.shift_ne (Nat.lt_of_lt_of_le hi hp)) hnew).mpr hshares
  · intro hnone hmem
    obtain ⟨i, hi, heq⟩ := List.mem_mapIdx.mp hmem
    have hshares := (h.origin_eq_iff (Site.shift_ne (Nat.lt_of_lt_of_le hi hp)) hnew).mp heq
    rw [hnone _ (List.getElem_mem hi)] at hshares
    cases hshares

theorem content_of_new (h : s.Realises g os ds) (hnew : g.origin b t ∉ os) :
    g.content (g.origin b t) = some t.entry := by
  rw [h.origin_of_new hnew]
  generalize g.sharing = sharing
  cases t <;> cases sharing <;> rfl

/-- One more operand in a row. -/
theorem gather_concat (h : s.Realises g os ds) (hb : Ahead os b) (row : List Term) (t : Term) :
    (gather os (g.originsIn b (row ++ [t]))).map g.content =
      (gather os (g.originsIn b row)).map g.content ++ (s.added? row t).toList.map some := by
  have hlast : g.originsIn b (row ++ [t]) = g.originsIn b row ++ [g.origin (b.shift row.length) t] :=
    Ground.originsIn_append b row [t]
  have hiff := h.origin_notMem_iff hb (t := t) (Nat.le_refl row.length)
  rw [hlast, gather_append]
  by_cases hmem : g.origin (b.shift row.length) t ∈ gather os (g.originsIn b row)
  · rw [gather_singleton_of_mem hmem, added?, if_neg fun hadd => hiff.mpr hadd hmem]
    simp
  · have hnew : g.origin (b.shift row.length) t ∉ os := fun hold => hmem (mem_gather.mpr (.inl hold))
    rw [gather_singleton_of_notMem hmem, added?, if_pos (hiff.mp hmem)]
    simp [h.content_of_new hnew]

/-- What is registered for a row is what is added for it. -/
theorem gather_originsIn (h : s.Realises g os ds) (hb : Ahead os b) (earlier row : List Term) :
    (gather os (g.originsIn b (earlier ++ row))).map g.content =
      (gather os (g.originsIn b earlier)).map g.content ++ (s.additions earlier row).map some := by
  -- What is added for an operand depends on all that stand before it, so those vary.
  induction row generalizing earlier with
  | nil => simp [additions]
  | cons t row ih =>
    have hfirst : earlier ++ t :: row = (earlier ++ [t]) ++ row := by simp
    rw [hfirst, ih, h.gather_concat hb, additions, List.map_append, List.append_assoc]

theorem length_gather (h : s.Realises g os ds) (hb : Ahead os b) (row : List Term) :
    (gather os (g.originsIn b row)).length =
      (Store.vars s.store).size + (s.additions [] row).length := by
  have hlength := congrArg List.length (h.gather_originsIn hb [] row)
  simp only [List.nil_append, List.length_map, List.length_append] at hlength
  rw [hlength, ← h.store.length_origins]
  rfl

/-! ### Numbers of places -/

/-- A new origin has the next number when its place comes. -/
theorem number_of_new (h : s.Realises g os ds) (hb : Ahead os b) (hq : row[q]? = some u)
    (hnew : g.origin (b.shift q) u ∉ gather os (g.originsIn b (row.take q))) :
    number (gather os (g.originsIn b row)) (g.origin (b.shift q) u) =
      .ofNat ((Store.vars s.store).size + (s.additions [] (row.take q)).length) := by
  obtain ⟨hlt, rfl⟩ := List.getElem?_eq_some_iff.mp hq
  have hrow : g.originsIn b row = g.originsIn b (row.take q) ++
      g.origin (b.shift q) row[q] :: g.originsIn (b.shift (q + 1)) (row.drop (q + 1)) := by
    conv_lhs => rw [← List.take_append_drop q row, List.drop_eq_getElem_cons hlt]
    rw [Ground.originsIn_append, Ground.originsIn_cons, Site.shift_shift, List.length_take,
      Nat.min_eq_left (Nat.le_of_lt hlt)]
  rw [hrow, gather_append, gather_cons, gather_singleton_of_notMem hnew,
    number_of_kept (prefix_gather ..) (List.mem_append_right _ (List.mem_singleton_self _)),
    number_concat hnew, h.length_gather hb]

/-- A place has the number of its origin. -/
theorem number_eq (h : s.Realises g os ds) (hb : Ahead os b) (ht : row[p]? = some t) :
    number (gather os (g.originsIn b row)) (g.origin (b.shift p) t) = s.numberAt row p := by
  have hheld := h.held?_eq (hb.shift p) t
  rw [numberAt, ht, Option.bind_some, hheld]
  by_cases hmem : g.origin (b.shift p) t ∈ os
  · rw [numberOf?_of_mem hmem, Option.getD_some]
    exact number_of_kept (prefix_gather ..) hmem
  · rw [numberOf?_of_notMem hmem] at hheld ⊢
    rw [Option.getD_none]
    -- It is registered at the first place that shares the variable, as the origin of that place.
    obtain ⟨hle, ⟨u, hu, hshares⟩, hfirst⟩ := s.firstPlace_spec ht
    generalize s.firstPlace row p = q at *
    have hlength : (row.take q).length ≤ p := Nat.le_trans (List.length_take_le q row) hle
    have hnew : g.origin (b.shift p) t ∉ gather os (g.originsIn b (row.take q)) :=
      (h.origin_notMem_iff hb hlength).mpr ⟨hheld, hfirst⟩
    have horigin : g.origin (b.shift q) u = g.origin (b.shift p) t := by
      rcases Nat.lt_or_eq_of_le hle with hlt | rfl
      · exact (h.origin_eq_iff (Site.shift_ne hlt) hmem).mpr (hshares hlt)
      · rw [Option.some.inj (hu.symm.trans ht)]
    rw [← horigin] at hnew ⊢
    exact h.number_of_new hb hu hnew

/-! ### Stores that realise a row -/

section
variable {s' : σ} {ds' : List Draft}

/-- The variables are those that there were and the additions. -/
theorem toList_vars (h : s.Realises g os ds) (hb : Ahead os b)
    (h' : Store.Realises g s' (gather os (g.originsIn b row)) ds') :
    (Store.vars s').toList = (Store.vars s.store).toList ++ s.additions [] row := by
  refine (List.map_inj_right fun _ _ => Option.some.inj).mp ?_
  rw [h'.vars, List.map_append, h.store.vars]
  exact h.gather_originsIn hb [] row

/-- A place has the variable that is registered for its origin. -/
theorem getElem?_numberAt (h : s.Realises g os ds) (hb : Ahead os b)
    (h' : Store.Realises g s' (gather os (g.originsIn b row)) ds')
    (hsize : (Store.vars s').size ≤ UInt32.size) (hu : row[p]? = some u) :
    (Store.vars s')[(s.numberAt row p).toNat]? = g.content (g.origin (b.shift p) u) := by
  have hmem : g.origin (b.shift p) u ∈ gather os (g.originsIn b row) :=
    mem_gather.mpr (.inr (Ground.origin_mem_originsIn hu))
  rw [h'.getElem?_vars, ← h.number_eq hb hu, getElem?_number hmem (h'.length_origins ▸ hsize),
    Option.bind_some]

/-- A place whose operand is not held has a variable that was not there. -/
theorem le_numberAt (h : s.Realises g os ds) (hb : Ahead os b)
    (h' : Store.Realises g s' (gather os (g.originsIn b row)) ds')
    (hsize : (Store.vars s').size ≤ UInt32.size) (hu : row[p]? = some u) (hnew : s.held? u = none) :
    (Store.vars s.store).size ≤ (s.numberAt row p).toNat := by
  have hmem : g.origin (b.shift p) u ∈ gather os (g.originsIn b row) :=
    mem_gather.mpr (.inr (Ground.origin_mem_originsIn hu))
  have hnumber := getElem?_number hmem (h'.length_origins ▸ hsize)
  rw [h.number_eq hb hu] at hnumber
  refine Nat.le_of_not_lt fun hlt => (h.held?_eq_none_iff (hb.shift p) u).mp hnew ?_
  rw [← h.store.length_origins] at hlt
  obtain ⟨more, hmore⟩ := prefix_gather os (g.originsIn b row)
  rw [← hmore, List.getElem?_append_left hlt] at hnumber
  exact List.mem_of_getElem? hnumber

/-- A name at a place is found there. -/
theorem find?_numberAt (h : s.Realises g os ds) (hb : Ahead os b)
    (h' : Store.Realises g s' (gather os (g.originsIn b row)) ds') {x : String}
    (hx : row[p]? = some (.name x)) : Store.find? s' x = some (s.numberAt row p) := by
  rw [h'.names, ← h.number_eq hb hx]
  exact numberOf?_of_mem (mem_gather.mpr (.inr (Ground.origin_mem_originsIn (g := g) hx)))

end

end Session.Realises

end ConstraintNet
