import ConstraintNet.Proofs.Layout.Entries
import ConstraintNet.Proofs.Store.Chronicle

/-! Numbers and names for ever.

What a store has said can be relied on, whatever is done to it later (`Store.Lasting`).
Its variables and constraints stay where they are, a number reads the object that it was
given for, and a name stands for the variable that it once stood for, also if more
variables of that name are registered by hand.

The last goes for the names in texts as well. A text that is compiled has one constraint
for each of its applications, and an operand that is a name is the variable that the name
stands for (`Store.Resolves`), which is the one that it stood for before
(`Store.compile_resolves`). -/
namespace ConstraintNet

/-- The applications of a term, each after those in its operands, and so the term itself at
the end. -/
def Term.applied (t : Term) : List Term :=
  (applicationsOf t.operands 0).map Prod.fst ++ [t]

section
variable {σ : Type} [Store σ]

/-- The constraint is that of the application `a`, compiled on the way from `s` to `s'`. -/
structure Store.Resolves (s s' : σ) (a : Term) (c : Constraint) : Prop where
  operator : c.operator = a.text
  parameters : c.parameters = a.parameters
  /-- For a name there is the variable that it stands for, now and if it did before. -/
  operands : List.Forall₂ (fun u v => ∀ x, u = .name x →
    Store.find? s' x = some v ∧ ∀ w, Store.find? s x = some w → w = v) a.operands c.operands

/-! ### Texts -/

section
variable [LawfulStore σ] {s s' : Session σ} {t : Term}

/-- Places of operands have the variables of the operands. -/
theorem Session.Lays.operands_resolve (h : s.Lays t s') (hs : LawfulStore.Valid s.store)
    (hgrows : Store.Grows s.store s'.store) {us : List Term} {places : List Nat}
    (hplaces : places.map (t.row[·]?) = us.map some) :
    List.Forall₂ (fun u v => ∀ x, u = .name x →
      Store.find? s'.store x = some v ∧ ∀ w, Store.find? s.store x = some w → w = v)
      us (places.map (s.numberAt t.row)) := by
  have heach : List.Forall₂ (fun u p => t.row[p]? = some u) us places := by
    have heq := List.forall₂_eq_eq_eq ▸ hplaces.symm
    exact (List.forall₂_map_right_iff.mp (List.forall₂_map_left_iff.mp heq)).imp fun _ _ => Eq.symm
  refine List.forall₂_map_right_iff.mpr (heach.imp ?_)
  rintro u p hp x rfl
  have hfound : Store.find? s'.store x = some (s.numberAt t.row p) := by
    rw [LawfulStore.find?_eq hgrows.valid]
    exact h.names p x hp
  refine ⟨hfound, fun w hw => ?_⟩
  have hstays := hgrows.find? hs hw
  rw [hfound] at hstays
  exact (Option.some.inj hstays).symm

theorem Session.Lays.resolves (h : s.Lays t s') (hs : LawfulStore.Valid s.store)
    (hgrows : Store.Grows s.store s'.store) :
    List.Forall₂ (Store.Resolves s.store s'.store) t.applied (t.constraints (s.numberAt t.row)) := by
  refine List.rel_append ?_ (.cons ⟨rfl, rfl, ?_⟩ .nil)
  · refine List.forall₂_map_left_iff.mpr (List.forall₂_map_right_iff.mpr ?_)
    refine List.forall₂_same.mpr fun a ha => ⟨rfl, rfl, ?_⟩
    exact h.operands_resolve hs hgrows (h.operands a ha)
  · exact h.operands_resolve hs hgrows h.rootOperands

end

/-- The constraints that a text adds are over what its names stand for. -/
theorem Store.compile_resolves [BuildableStore σ] {s₀ : σ} (hreachable : Store.Reachable s₀)
    (sharing : Sharing) (requests : List Request) {s : Session σ}
    (hs : (Store.hold s₀ sharing requests).2 = s) {text : String} {t : Term}
    (hparse : Term.parse text = .ok t) (hleaf : t.isLeaf = false)
    (hnumbered : Store.Numbered (s.compile text).2.store) :
    ∃ k cs, (s.compile text).1 = .ok k ∧
      k.toNat + 1 = (Store.constraints (s.compile text).2.store).size ∧
      (Store.constraints (s.compile text).2.store).toList =
        (Store.constraints s.store).toList ++ cs ∧
      List.Forall₂ (Store.Resolves s.store (s.compile text).2.store) t.applied cs := by
  obtain ⟨⟨k, hk, hlast⟩, hlays, -⟩ := Store.hold_compile_lays hreachable sharing requests hs hparse
    hleaf hnumbered.vars hnumbered.constraints
  have hvalid : LawfulStore.Valid s.store := by
    rw [← hs]
    exact (Session.serve_grows requests (s := {store := s₀, sharing}) hreachable.valid).valid
  exact ⟨k, _, hk, hlast, hlays.constraints, hlays.resolves hvalid (Session.compile_grows text hvalid)⟩

/-! ### Stores -/

/-- What `d` has said is so in the later state `d'`. -/
structure Chronicle.Upholds (d d' : Chronicle σ) : Prop where
  vars : (Store.vars d.store).toList <+: (Store.vars d'.store).toList
  constraints : (Store.constraints d.store).toList <+: (Store.constraints d'.store).toList
  entries : d.entries <+: d'.entries
  holds : ∀ e ∈ d.entries, e.Holds d'.store
  /-- A name that is found remains where it is, and whenever it was resolved it was to that. -/
  names : ∀ name v, Store.find? d.store name = some v →
    Store.find? d'.store name = some v ∧ ∀ w, .resolved name w ∈ d'.entries → w = v

theorem Chronicle.Extends.upholds [LawfulStore σ] {d d' : Chronicle σ} (h : Extends d d')
    (hvalid : LawfulStore.Valid d.store) (hnumbered : Store.Numbered d'.store) : d.Upholds d' := by
  have hholds := h.sound.holds hnumbered
  refine ⟨h.grows.vars, h.grows.constraints, h.entries,
    fun e he => hholds e (h.entries.subset he), fun name v hv => ?_⟩
  have hstays := h.grows.find? hvalid hv
  refine ⟨hstays, fun w hw => ?_⟩
  have hresolved := (hholds _ hw).1
  rw [hstays] at hresolved
  exact (Option.some.inj hresolved).symm

/-- A store that is empty at first can be relied on through these actions. -/
structure Store.Lasting (σ : Type) [Store σ] [BuildableStore σ] (actions : List Action) : Prop where
  /-- Writing down what the store says makes no difference to it. -/
  recorded : List.Forall₂ (Related fun (d : Chronicle σ) (s : σ) => d.store = s)
    (Store.recordAll actions ({store := BuildableStore.empty} : Chronicle σ))
    (Store.recordAll actions (BuildableStore.empty : σ))
  /-- What was said at a step is so at every later one. -/
  upheld : ∀ (i j : Nat) x y, i ≤ j →
    (Store.recordAll actions ({store := BuildableStore.empty} : Chronicle σ))[i]? = some x →
    (Store.recordAll actions ({store := BuildableStore.empty} : Chronicle σ))[j]? = some y →
    Chronicle.Upholds x.2 y.2
  /-- Texts that come next are over what their names stand for, and stood for before. -/
  compiled : ∀ sharing requests text t, Term.parse text = .ok t → t.isLeaf = false →
    ∀ s : Session σ, (Store.hold (Store.actAll BuildableStore.empty actions) sharing requests).2 = s →
      Store.Numbered (s.compile text).2.store →
      ∃ k cs, (s.compile text).1 = .ok k ∧
        k.toNat + 1 = (Store.constraints (s.compile text).2.store).size ∧
        (Store.constraints (s.compile text).2.store).toList =
          (Store.constraints s.store).toList ++ cs ∧
        List.Forall₂ (Store.Resolves s.store (s.compile text).2.store) t.applied cs

/-- **Numbers and names last.** Whatever is done to a store that is empty at first, what it
has said remains so as long as there are numbers for all that is in it. -/
theorem Store.lasting_of_numbered [FaithfulStore σ] (actions : List Action)
    (hnumbered : Store.Numbered (Store.actAll (BuildableStore.empty : σ) actions)) :
    Store.Lasting σ actions := by
  have hempty : Chronicle.Sound ({store := BuildableStore.empty} : Chronicle σ) :=
    ⟨BuildableStore.valid_empty, fun _ e he => (List.not_mem_nil he).elim⟩
  obtain ⟨hsteps, -⟩ := Chronicle.recordAll_extends actions hempty
  have hlater : ∀ x ∈ Store.recordAll actions ({store := BuildableStore.empty} : Chronicle σ),
      Store.Numbered x.2.store := by
    intro x hx
    refine (hsteps.before x hx).grows.numbered ?_
    rwa [Chronicle.actAll_store]
  refine ⟨Chronicle.recordAll_store actions _, ?_, ?_⟩
  · intro i j x y hij hx hy
    have hy' := hlater y (List.mem_of_getElem? hy)
    have hsound := (hsteps.after x (List.mem_of_getElem? hx)).sound
    rcases Nat.eq_or_lt_of_le hij with rfl | hlt
    · rw [hx] at hy
      cases hy
      exact hsound.extends_self.upholds hsound.valid hy'
    · obtain ⟨hi, rfl⟩ := List.getElem?_eq_some_iff.mp hx
      obtain ⟨hj, rfl⟩ := List.getElem?_eq_some_iff.mp hy
      exact (List.pairwise_iff_getElem.mp hsteps.pairwise i j hi hj hlt).upholds hsound.valid hy'
  · intro sharing requests text t hparse hleaf s hs hsize
    exact Store.compile_resolves ⟨actions, rfl⟩ sharing requests hs hparse hleaf hsize

end

/-- A name that is registered by hand before, between and after texts that use it, of which one
is in error. -/
def Action.again : List Action :=
  [.operate (.intern "x"), .addVariable (.named "x"), .addConstraint (.general "any" [] [.ofNat 7]),
    .operate (.session .perValue [.compile "neq(abs(x),3)", .compile "neq(x", .compile "lt(y,3)"]),
    .addVariable (.named "x"), .addVariable .auxiliary, .operate (.post "lt(y,x)")]

theorem Store.lasting_again :
    Store.Numbered (Store.actAll (BuildableStore.empty : Ledger) Action.again) ∧
      Store.Lasting Ledger Action.again ∧
      Store.Numbered (Store.actAll (BuildableStore.empty : Network) Action.again) ∧
      Store.Lasting Network Action.again := by
  have hledger : Store.Numbered (Store.actAll (BuildableStore.empty : Ledger) Action.again) :=
    ⟨by decide +kernel, by decide +kernel⟩
  have hnetwork : Store.Numbered (Store.actAll (BuildableStore.empty : Network) Action.again) :=
    ⟨by decide +kernel, by decide +kernel⟩
  exact ⟨hledger, Store.lasting_of_numbered _ hledger, hnetwork, Store.lasting_of_numbered _ hnetwork⟩

end ConstraintNet
