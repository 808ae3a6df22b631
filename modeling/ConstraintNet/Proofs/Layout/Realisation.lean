import ConstraintNet.Proofs.Compile.Growth
import ConstraintNet.Proofs.Layout.Origins

/-! Stores that realise a layout.

A store realises a layout when its variables are those of the origins that are
registered, in order, and its constraints those of the drafts that are posted, in
order, with a number for each origin (`Store.Realises`). Whatever a store has
realised so far, lowering a term realises the layout of that term on top of it
(`Lowering.operand_realises`, `Lowering.root_realises`).

A result is a new variable each time, and so is a constant that is not shared. In
the layout that is so because their places are new: nothing is registered yet for
the place at hand or for a later one (`Ahead`). -/
namespace ConstraintNet
open Store (Adds Posts)

/-- Nothing is registered for the place `p`, or for later ones in its text. -/
def Ahead (os : List Origin) (p : Site) : Prop :=
  ∀ o ∈ os, ∀ q, o.site? = some q → q.text = p.text → q.place < p.place

section
variable {os refs : List Origin} {p : Site}

theorem Ahead.notMem (h : Ahead os p) {o : Origin} (ho : o.site? = some p) : o ∉ os :=
  fun hmem => Nat.lt_irrefl _ (h o hmem p ho rfl)

/-- The places after the next one are ahead, too. -/
theorem Ahead.shift (h : Ahead os p) (n : Nat) : Ahead os (p.shift n) :=
  fun o ho q hq htext => Nat.lt_of_lt_of_le (h o ho q hq htext) (Nat.le_add_right ..)

/-- Once the next places are done, the ones after them are next. -/
theorem Ahead.gather (h : Ahead os p) {n : Nat}
    (hrefs : ∀ o ∈ refs, ∀ q, o.site? = some q → p.Within n q) :
    Ahead (gather os refs) (p.shift n) := by
  intro o ho q hq htext
  rcases mem_gather.mp ho with ho | ho
  · exact Nat.lt_of_lt_of_le (h o ho q hq htext) (Nat.le_add_right ..)
  · exact (hrefs o ho q hq).2.2

end

section
variable {σ : Type} [Store σ] [LawfulStore σ] {g : Ground} {os : List Origin} {ds : List Draft}

/-! ### Stores -/

structure Store.Realises (g : Ground) (s : σ) (os : List Origin) (ds : List Draft) : Prop where
  valid : LawfulStore.Valid s
  nodup : os.Nodup
  vars : (Store.vars s).toList.map some = os.map g.content
  constraints : (Store.constraints s).toList.map some = ds.map (g.build (number os))
  mentions : ∀ d ∈ ds, ∀ o ∈ d.mentions, o ∈ os
  names : ∀ x, Store.find? s x = numberOf? os (g.name x)
  known : ∀ x v, g.names x = some v → .given v.toNat ∈ os

namespace Store.Realises
variable {s : σ}

theorem length_origins (h : Store.Realises g s os ds) : os.length = (Store.vars s).size := by
  have hlength := congrArg List.length h.vars
  simpa using hlength.symm

theorem length_drafts (h : Store.Realises g s os ds) : ds.length = (Store.constraints s).size := by
  have hlength := congrArg List.length h.constraints
  simpa using hlength.symm

/-- The constraints stay the same when more is registered. -/
theorem map_build_of_kept (h : Store.Realises g s os ds) {os' : List Origin} (hkept : os <+: os') :
    ds.map (g.build (number os')) = (Store.constraints s).toList.map some := by
  rw [h.constraints]
  refine List.map_congr_left fun d hd => Ground.build_congr fun o ho => ?_
  exact number_of_kept hkept (h.mentions d hd o ho)

/-- The number that a registration gives is that of the new origin. -/
theorem number_adds (h : Store.Realises g s os ds) {o : Origin} (ho : o ∉ os) {x : Variable}
    {r : Registered σ VariableId} (hr : Adds s x r) : r.id = number (os ++ [o]) o := by
  rw [hr.id, number_concat ho, h.length_origins]

/-- A new origin is registered with its variable. It gets the name of the variable, and
no other. -/
theorem adds (h : Store.Realises g s os ds) {o : Origin} (ho : o ∉ os) {x : Variable}
    {r : Registered σ VariableId} (hr : Adds s x r) (hvalid : LawfulStore.Valid r.store)
    (hcontent : g.content o = some x) (hname : ∀ y, x.name? = some y ↔ g.name y = o) :
    Store.Realises g r.store (os ++ [o]) ds := by
  have hkept : os <+: os ++ [o] := List.prefix_append ..
  refine ⟨hvalid, ?_, ?_, ?_, ?_, ?_, ?_⟩
  · exact h.nodup.append (List.nodup_singleton o) (by simpa using ho)
  · rw [hr.vars, Array.toList_push, List.map_append, List.map_append, h.vars, List.map_singleton,
      List.map_singleton, hcontent]
  · rw [hr.constraints, h.map_build_of_kept hkept]
  · exact fun d hd o' ho' => hkept.subset (h.mentions d hd o' ho')
  · intro y
    rw [LawfulStore.find?_eq hvalid, hr.vars, firstNamed_push, ← LawfulStore.find?_eq h.valid,
      h.names y, numberOf?_concat ho, h.length_origins]
    simp only [hname y]
  · exact fun y v hy => hkept.subset (h.known y v hy)

/-- A draft is posted with the numbers of its origins. -/
theorem posts (h : Store.Realises g s os ds) {d : Draft} {c : Constraint}
    {r : Registered σ ConstraintId} (hr : Posts s c r) (hvalid : LawfulStore.Valid r.store)
    (hbuild : g.build (number os) d = some c) (hmentions : ∀ o ∈ d.mentions, o ∈ os) :
    Store.Realises g r.store os (ds ++ [d]) := by
  refine ⟨hvalid, h.nodup, ?_, ?_, ?_, ?_, h.known⟩
  · rw [hr.vars, h.vars]
  · rw [hr.constraints, Array.toList_push, List.map_append, List.map_append, h.constraints,
      List.map_singleton, List.map_singleton, hbuild]
  · intro e he
    rcases List.mem_append.mp he with he | he
    · exact h.mentions e he
    · rw [List.mem_singleton.mp he]
      exact hmentions
  · intro y
    rw [LawfulStore.find?_eq hvalid, hr.vars, ← LawfulStore.find?_eq h.valid, h.names y]

/-- A name that is not registered has no variable that was given. -/
theorem name_new (h : Store.Realises g s os ds) {x : String} (hx : g.name x ∉ os) :
    g.names x = none := by
  cases hv : g.names x with
  | none => rfl
  | some v =>
    rw [Ground.name_of_some hv] at hx
    exact absurd (h.known x v hv) hx

end Store.Realises

/-! ### Sessions -/

structure Session.Realises (g : Ground) (s : Session σ) (os : List Origin) (ds : List Draft) : Prop where
  store : Store.Realises g s.store os ds
  sharing : s.sharing = g.sharing
  constants : g.sharing = .perValue → ∀ value, s.constants[value]? = numberOf? os (g.shared value)
  known : ∀ value v, g.constants value = some v → .given v.toNat ∈ os

/-- An origin that is no shared constant is none of the session's business. -/
theorem Session.Realises.adds {s t : Session σ} (h : s.Realises g os ds) {o : Origin} (ho : o ∉ os)
    (hstore : Store.Realises g t.store (os ++ [o]) ds) (hsharing : t.sharing = s.sharing)
    (hconstants : t.constants = s.constants)
    (hshared : g.sharing = .perValue → ∀ value, g.shared value ≠ o) : t.Realises g (os ++ [o]) ds := by
  refine ⟨hstore, hsharing.trans h.sharing, ?_, ?_⟩
  · intro hg value
    rw [hconstants, h.constants hg, numberOf?_concat ho, if_neg (hshared hg value), Option.or_none]
  · exact fun value v hv => List.mem_append_left _ (h.known value v hv)

theorem Session.Realises.shared_new {s : Session σ} (h : s.Realises g os ds) {value : Int64}
    (hvalue : g.shared value ∉ os) : g.constants value = none := by
  cases hv : g.constants value with
  | none => rfl
  | some v =>
    rw [Ground.shared_of_some hv] at hvalue
    exact absurd (h.known value v hv) hvalue

/-! ### Operands -/

namespace Lowering

theorem name_realises (text : String) {l : Lowering σ} (h : l.Realises g os ds) :
    (operand (.name text) l).2.Realises g (gather os [g.name text]) ds ∧
      (operand (.name text) l).1 = number (gather os [g.name text]) (g.name text) := by
  by_cases hmem : g.name text ∈ os
  · rw [gather_singleton_of_mem hmem]
    have hfind := h.store.names text
    rw [numberOf?_of_mem hmem] at hfind
    obtain ⟨hid, hstore⟩ := LawfulStore.intern_found h.store.valid hfind
    refine ⟨⟨?_, h.sharing, h.constants, h.known⟩, hid⟩
    show Store.Realises g (Store.intern l.store text).store os ds
    rw [hstore]
    exact h.store
  · rw [gather_singleton_of_notMem hmem]
    have hfind := h.store.names text
    rw [numberOf?_of_notMem hmem] at hfind
    obtain ⟨hadds, hvalid⟩ := LawfulStore.intern_new h.store.valid hfind
    have hnew := h.store.name_new hmem
    have hname := Ground.name_of_none hnew
    refine ⟨h.adds hmem ?_ rfl rfl ?_, h.store.number_adds hmem hadds⟩
    · refine h.store.adds hmem hadds hvalid (by rw [hname]; rfl) ?_
      intro y
      rw [hname, Ground.name_eq_name_iff]
      constructor
      · intro hy
        obtain rfl := Option.some.inj hy
        exact ⟨hnew, rfl⟩
      · rintro ⟨_, rfl⟩
        rfl
    · intro _ value heq
      exact Ground.shared_ne_name value text (heq.trans hname)

/-- A new origin that has no name and is not shared. -/
theorem introduce_realises {l : Lowering σ} (h : l.Realises g os ds) {o : Origin} (ho : o ∉ os)
    {x : Variable} (hx : x.name? = none) (hcontent : g.content o = some x)
    (hname : ∀ y, g.name y ≠ o) (hshared : g.sharing = .perValue → ∀ value, g.shared value ≠ o) :
    (l.introduce x).2.Realises g (os ++ [o]) ds ∧ (l.introduce x).1 = number (os ++ [o]) o := by
  obtain ⟨hadds, hvalid⟩ := LawfulStore.adds h.store.valid x hx
  refine ⟨h.adds ho ?_ rfl rfl hshared, h.store.number_adds ho hadds⟩
  refine h.store.adds ho hadds hvalid hcontent fun y => ?_
  rw [hx]
  exact iff_of_false (by simp) (hname y)

/-- A constant that is shared is registered once. -/
theorem shared_realises (value : Int64) {l : Lowering σ} (h : l.Realises g os ds)
    (hg : g.sharing = .perValue) :
    (l.constant value).2.Realises g (gather os [g.shared value]) ds ∧
      (l.constant value).1 = number (gather os [g.shared value]) (g.shared value) := by
  have hl := h.sharing.trans hg
  have hfound := h.constants hg value
  by_cases hmem : g.shared value ∈ os
  · rw [numberOf?_of_mem hmem] at hfound
    rw [gather_singleton_of_mem hmem, constant_found hl hfound]
    exact ⟨h, rfl⟩
  · rw [numberOf?_of_notMem hmem] at hfound
    rw [gather_singleton_of_notMem hmem, constant_new hl hfound]
    obtain ⟨hadds, hvalid⟩ := LawfulStore.adds h.store.valid (.constant value) rfl
    have hshared := Ground.shared_of_none (h.shared_new hmem)
    have hid := h.store.number_adds hmem hadds
    refine ⟨⟨?_, h.sharing, ?_, fun v w hv => List.mem_append_left _ (h.known v w hv)⟩, hid⟩
    · refine h.store.adds hmem hadds hvalid (by rw [hshared]; rfl) fun y => ?_
      refine iff_of_false (by simp [Variable.name?]) fun hy => ?_
      exact Ground.name_ne_constant y none value (hy.trans hshared)
    · intro _ other
      show (l.constants.insert value _)[other]? = _
      rw [getElem?_insert_constant]
      split
      · next hother =>
        rw [hother, numberOf?_of_mem (List.mem_append_right _ (List.mem_singleton_self _))]
        exact congrArg some hid
      · next hother =>
        rw [h.constants hg other, numberOf?_concat hmem, if_neg, Option.or_none]
        exact fun heq => hother (Ground.shared_eq_constant_iff.mp (heq.trans hshared)).2

/-- A literal has a constant of its own, or shares the one of its value. -/
theorem constant_realises (value : Int64) {p : Site} {l : Lowering σ} (h : l.Realises g os ds)
    (hp : Ahead os p) :
    (l.constant value).2.Realises g (gather os [g.constant p value]) ds ∧
      (l.constant value).1 = number (gather os [g.constant p value]) (g.constant p value) := by
  cases hg : g.sharing with
  | perOccurrence =>
    have hnew : Origin.constant (some p) value ∉ os := hp.notMem rfl
    rw [Ground.constant_perOccurrence hg, gather_singleton_of_notMem hnew,
      Lowering.constant_perOccurrence (h.sharing.trans hg)]
    refine introduce_realises h hnew rfl rfl (fun y => Ground.name_ne_constant y _ _) ?_
    intro hg'
    cases hg.symm.trans hg'
  | perValue =>
    rw [Ground.constant_perValue hg]
    exact shared_realises value h hg

/-- The constraint of a result is posted over what the operands became. -/
theorem define_realises {l : Lowering σ} (h : l.Realises g os ds) {p : Site} {result : VariableId}
    {vs : List VariableId} {origins : List Origin} (f : String) (ps : List Parameter) (ts : List Term)
    (hresult : result = number os (.result p)) (hvs : vs = origins.map (number os))
    (hmem : .result p ∈ os) (horigins : ∀ o ∈ origins, o ∈ os) :
    (l.define result f ps ts vs).Realises g os (ds ++ [.functional p f ps origins]) := by
  obtain ⟨hposts, hvalid⟩ := LawfulStore.posts h.store.valid (.functional result f ps vs)
  refine ⟨h.store.posts hposts hvalid ?_ ?_, h.sharing, h.constants, h.known⟩
  · rw [hresult, hvs]
    rfl
  · intro o ho
    rcases List.mem_cons.mp ho with rfl | ho
    · exact hmem
    · exact horigins o ho

mutual

/-- An operand is laid out on top of what there is. -/
theorem operand_realises : ∀ (t : Term) {p : Site} {l : Lowering σ} {os : List Origin}
    {ds : List Draft}, l.Realises g os ds → Ahead os p →
    (operand t l).2.Realises g (gather os (g.visits p t)) (ds ++ g.drafts p t) ∧
      (operand t l).1 = number (gather os (g.visits p t)) (g.origin p t)
  | .name text, p, l, os, ds, h, _ => by
    rw [Ground.drafts, List.append_nil]
    exact name_realises text h
  | .literal _ value, p, l, os, ds, h, hp => by
    rw [Ground.drafts, List.append_nil]
    exact constant_realises value h hp
  | .application f ps ts, p, l, os, ds, h, hp => by
    have hnew : Origin.result p ∉ os := hp.notMem rfl
    have hnext : Ahead (os ++ [.result p]) (p.shift 1) := by
      rw [← gather_singleton_of_notMem hnew]
      refine hp.gather fun o ho q hq => ?_
      cases List.mem_singleton.mp ho
      cases hq
      exact ⟨rfl, Nat.le_refl _, Nat.lt_succ_self _⟩
    obtain ⟨hresult, hid⟩ := introduce_realises h hnew (x := .auxiliary) rfl rfl
      (fun y => Ground.name_ne_result y) fun _ value => Ground.shared_ne_result value
    obtain ⟨hbelow, hvs⟩ := operands_realises ts hresult hnext
    have hkept := prefix_gather (os ++ [.result p]) (g.visitsOf (p.shift 1) ts)
    have hmem : Origin.result p ∈ os ++ [.result p] :=
      List.mem_append_right _ (List.mem_singleton_self _)
    have hid' := hid.trans (number_of_kept hkept hmem).symm
    rw [Ground.visits, gather_cons, gather_singleton_of_notMem hnew, Ground.drafts, ← List.append_assoc]
    refine ⟨define_realises hbelow f ps ts hid' hvs (hkept.subset hmem) fun o ho => ?_, hid'⟩
    exact mem_gather.mpr (.inr (Ground.mem_visitsOf_of_mem_originsOf ts ho))

theorem operands_realises : ∀ (ts : List Term) {p : Site} {l : Lowering σ} {os : List Origin}
    {ds : List Draft}, l.Realises g os ds → Ahead os p →
    (operands ts l).2.Realises g (gather os (g.visitsOf p ts)) (ds ++ g.draftsOf p ts) ∧
      (operands ts l).1 = (g.originsOf p ts).map (number (gather os (g.visitsOf p ts)))
  | [], p, l, os, ds, h, _ => by
    rw [Ground.draftsOf, List.append_nil]
    exact ⟨h, rfl⟩
  | t :: ts, p, l, os, ds, h, hp => by
    obtain ⟨hfirst, hv⟩ := operand_realises t h hp
    have hnext := hp.gather fun o ho q hq => Ground.within_of_mem_visits t (p := p) (g := g) ho hq
    obtain ⟨hrest, hvs⟩ := operands_realises ts hfirst hnext
    have hmem : g.origin p t ∈ gather os (g.visits p t) :=
      mem_gather.mpr (.inr (Ground.origin_mem_visits p t))
    rw [Ground.visitsOf, gather_append, Ground.draftsOf, ← List.append_assoc]
    refine ⟨hrest, ?_⟩
    rw [Ground.originsOf, List.map_cons, number_of_kept (prefix_gather ..) hmem, ← hv, ← hvs]
    rfl

end

/-- The root is posted over what the operands became, under the next number. -/
theorem root_realises (f : String) (ps : List Parameter) (ts : List Term) {i : Nat} {l : Lowering σ}
    (h : l.Realises g os ds) (hp : Ahead os ⟨i, 1⟩) :
    (root f ps ts l).2.Realises g (gather os (g.visitsOf ⟨i, 1⟩ ts))
        (ds ++ g.draftsOf ⟨i, 1⟩ ts ++ [.general ⟨i, 0⟩ f ps (g.originsOf ⟨i, 1⟩ ts)]) ∧
      (root f ps ts l).1 = .ofNat (ds ++ g.draftsOf ⟨i, 1⟩ ts).length := by
  obtain ⟨hbelow, hvs⟩ := operands_realises ts h hp
  obtain ⟨hposts, hvalid⟩ := LawfulStore.posts hbelow.store.valid (.general f ps (operands ts l).1)
  refine ⟨⟨hbelow.store.posts hposts hvalid ?_ ?_, hbelow.sharing, hbelow.constants, hbelow.known⟩, ?_⟩
  · rw [hvs]
    rfl
  · exact fun o ho => mem_gather.mpr (.inr (Ground.mem_visitsOf_of_mem_originsOf ts ho))
  · rw [hbelow.store.length_drafts]
    exact hposts.id

end Lowering

end

end ConstraintNet
