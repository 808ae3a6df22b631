import ConstraintNet.Proofs.Layout.Entries
import ConstraintNet.Proofs.Listing.Lines
import ConstraintNet.Proofs.Meaning.Preservation
import ConstraintNet.Proofs.Store.Names

/-! Networks that texts were posted to.

What is left of texts that were posted to an empty network are the terms that they state,
in order (`Network.Posted`); texts in error leave nothing. Whatever holds at first, and is
kept when the next term is laid out, holds of any such network (`Network.Posted.keeps`).

So all that is in it is drawn from the terms (`Network.Drawn`), whose names and operators
are words. And each term is stated by one general constraint, in plain form and in the
order of the terms (`Network.Posted.explained`). -/
namespace ConstraintNet
open Store (Grows)

namespace Network
variable {n : Network} {us : List Term} {text : String} {t : Term}

/-- The network is what an empty one becomes by texts that state these terms, one after
another. -/
inductive Posted : Network → List Term → Prop where
  | empty : Posted {} []
  | post {n : Network} {us : List Term} {text : String} {t : Term} :
      Posted n us → stated text = .ok t → Posted (n.post text).2.1 (us ++ [t])

/-! ### Texts -/

theorem post_of_error {e : CompileError} (h : stated text = .error e) : (n.post text).2.1 = n := by
  have hcompile := Session.compile_of_error (σ := Network) {store := n} h
  show (Session.compile text {store := n}).2.store = n
  rw [hcompile]

/-- Of texts that are posted the terms are left that they state. -/
theorem Posted.postEach (texts : List String) (h : Posted n us) :
    Posted (postEach texts n).2 (us ++ texts.filterMap fun text => (stated text).toOption) := by
  induction texts generalizing n us with
  | nil => rwa [List.filterMap_nil, List.append_nil]
  | cons text texts ih =>
    cases ht : stated text with
    | error e =>
      rw [List.filterMap_cons_none (by rw [ht]; rfl)]
      refine ih ?_
      rwa [post_of_error ht]
    | ok t =>
      rw [List.filterMap_cons_some (by rw [ht]; rfl), List.append_cons]
      exact ih (h.post ht)

theorem posted_build (texts : List String) :
    Posted (build .post texts).2 (texts.filterMap fun text => (stated text).toOption) :=
  Posted.empty.postEach texts

theorem Posted.exists_operations (h : Posted n us) :
    ∃ operations, Store.operateAll (BuildableStore.empty : Network) operations = n := by
  induction h with
  | empty => exact ⟨[], rfl⟩
  | @post n us text t _ _ ih =>
    obtain ⟨operations, rfl⟩ := ih
    exact ⟨operations ++ [.post text], Store.operateAll_append ..⟩

theorem Posted.reachable (h : Posted n us) : Store.Reachable n := by
  obtain ⟨operations, rfl⟩ := h.exists_operations
  exact ⟨operations.map Action.operate, List.foldl_map⟩

/-- What holds at first, and is kept by a term that is laid out, holds. -/
theorem Posted.keeps {P : Network → List Term → Prop} (empty : P {} [])
    (post : ∀ {n us text t}, stated text = .ok t → Store.Numbered (n.post text).2.1 →
      Session.Lays {store := n} t (Session.compile text {store := n}).2 → P n us →
      P (n.post text).2.1 (us ++ [t]))
    (h : Posted n us) (hn : Store.Numbered n) : P n us := by
  induction h with
  | empty => exact empty
  | @post n us text t hn' ht ih =>
    have hgrows : Grows n (n.post text).2.1 :=
      Session.compile_grows (s := {store := n}) text hn'.reachable.valid
    obtain ⟨hparse, hleaf⟩ := stated_eq_ok_iff.mp ht
    obtain ⟨-, hlays, -⟩ := Store.hold_compile_lays hn'.reachable .perOccurrence [] rfl hparse hleaf
      hn.vars hn.constraints
    exact post ht hn hlays (ih (hgrows.numbered hn))

/-! ### What a network is drawn from -/

/-- Names and constraints are from the terms. -/
structure Drawn (n : Network) (us : List Term) : Prop where
  names : ∀ name, .named name ∈ n.vars → ∃ t ∈ us, .name name ∈ t.subterms
  constraints : ∀ c ∈ n.constraints, ∃ t ∈ us, ∃ a ∈ t.subterms, a.isLeaf = false ∧
    c.operator = a.text ∧ c.parameters = a.parameters

end Network

/-- What is added for a row is the entry of a term in it. -/
theorem Session.exists_of_mem_additions {σ : Type} [Store σ] {s : Session σ} {x : Variable}
    (row : List Term) {earlier : List Term} (h : x ∈ s.additions earlier row) :
    ∃ u ∈ row, x = u.entry := by
  induction row generalizing earlier with
  | nil => cases h
  | cons t row ih =>
    rw [additions, List.mem_append] at h
    rcases h with h | h
    · rw [Option.mem_toList, added?] at h
      split at h
      · exact ⟨t, List.mem_cons_self .., (Option.some.inj h).symm⟩
      · cases h
    · obtain ⟨u, hu, hx⟩ := ih h
      exact ⟨u, List.mem_cons_of_mem _ hu, hx⟩

/-- A constraint that is laid out is of an application in the term. -/
theorem Session.Lays.exists_of_mem_constraints {σ : Type} [Store σ] {s s' : Session σ} {t : Term}
    (h : s.Lays t s') (ht : t.isLeaf = false) {numberAt : Nat → VariableId} {c : Constraint}
    (hc : c ∈ t.constraints numberAt) :
    ∃ a ∈ t.subterms, a.isLeaf = false ∧ c.operator = a.text ∧ c.parameters = a.parameters := by
  rw [Term.subterms_eq]
  rcases List.mem_append.mp hc with hc | hc
  · obtain ⟨a, ha, rfl⟩ := List.mem_map.mp hc
    obtain ⟨hplace, hleaf⟩ := List.mem_filter.mp (h.applications.mem_iff.mp ha)
    refine ⟨a.1, List.mem_cons_of_mem _ ?_, by simpa using hleaf, rfl, rfl⟩
    exact List.mem_of_getElem? (List.mem_zipIdx_iff_getElem?.mp hplace)
  · obtain rfl := List.mem_singleton.mp hc
    exact ⟨t, List.mem_cons_self .., ht, rfl, rfl⟩

namespace Network
variable {n : Network} {us : List Term} {text : String} {t : Term}

theorem Drawn.post (h : n.Drawn us) (ht : stated text = .ok t)
    (hlays : Session.Lays {store := n} t (Session.compile text {store := n}).2) :
    (n.post text).2.1.Drawn (us ++ [t]) := by
  refine ⟨?_, ?_⟩
  · intro name hname
    rw [← Array.mem_toList_iff] at hname
    rcases List.mem_append.mp (hlays.vars ▸ hname) with hold | hnew
    · obtain ⟨u, hu, hmem⟩ := h.names name (Array.mem_toList_iff.mp hold)
      exact ⟨u, List.mem_append_left _ hu, hmem⟩
    · obtain ⟨u, hu, hx⟩ := Session.exists_of_mem_additions _ hnew
      refine ⟨t, List.mem_append_right _ (List.mem_singleton_self t), ?_⟩
      rw [Term.subterms_eq]
      cases u with
      | name x =>
        cases hx
        exact List.mem_cons_of_mem _ hu
      | literal => cases hx
      | application => cases hx
  · intro c hc
    rw [← Array.mem_toList_iff] at hc
    rcases List.mem_append.mp (hlays.constraints ▸ hc) with hold | hnew
    · obtain ⟨u, hu, hfrom⟩ := h.constraints c (Array.mem_toList_iff.mp hold)
      exact ⟨u, List.mem_append_left _ hu, hfrom⟩
    · exact ⟨t, List.mem_append_right _ (List.mem_singleton_self t),
        hlays.exists_of_mem_constraints (stated_eq_ok_iff.mp ht).2 hnew⟩

theorem Posted.drawn (h : Posted n us) (hn : Store.Numbered n) : n.Drawn us := by
  refine h.keeps (P := Drawn) ⟨?_, ?_⟩ (fun ht _ hlays h => h.post ht hlays) hn
  · intro name hname
    exact absurd hname (Array.not_mem_empty _)
  · intro c hc
    exact absurd hc (Array.not_mem_empty c)

theorem Posted.wellFormed (h : Posted n us) : ∀ t ∈ us, t.WellFormed := by
  induction h with
  | empty => exact List.forall_mem_nil _
  | post _ ht ih =>
    intro u hu
    rcases List.mem_append.mp hu with hu | hu
    · exact ih u hu
    · rw [List.mem_singleton.mp hu]
      exact .of_parse (stated_eq_ok_iff.mp ht).1

/-- What texts are read into is made of words. -/
theorem Posted.legible (h : Posted n us) (hn : Store.Numbered n) : n.Legible := by
  have hdrawn := h.drawn hn
  have hspelled : ∀ c ∈ n.constraints,
      Grammar.IsWord c.operator.toList ∧ ∀ p ∈ c.parameters, p.Spelled := by
    intro c hc
    obtain ⟨t, ht, a, ha, hleaf, hoperator, hparameters⟩ := hdrawn.constraints c hc
    obtain ⟨f, ps, ts, rfl⟩ := a.isLeaf_eq_false_iff.mp hleaf
    rw [hoperator, hparameters]
    exact (h.wellFormed t ht).spelled _ ha
  refine ⟨?_, fun c hc => (hspelled c hc).1, fun c hc => (hspelled c hc).2⟩
  intro name hname
  obtain ⟨t, ht, hmem⟩ := hdrawn.names name hname
  exact (h.wellFormed t ht).spelled _ hmem

/-! ### What a network states -/

/-- The constraints that define nothing. -/
def generals (n : Network) : List Constraint :=
  n.constraints.toList.filter fun c => c.result?.isNone

/-- The general constraint of a text comes behind those that were there. -/
theorem generals_post {f : String} {ps : List Parameter} {ts : List Term}
    (ht : stated text = .ok (.application f ps ts)) (hvalid : n.Indexed)
    (hlays : Session.Lays {store := n} (.application f ps ts)
      (Session.compile text {store := n}).2) :
    (n.post text).2.1.generals =
      n.generals ++ [.general f ps (Lowering.operands ts {store := n}).1] := by
  have hbelow := Lowering.operands_grows (l := {store := n}) ts hvalid
  obtain ⟨hposts, -⟩ :=
    LawfulStore.posts hbelow.valid (.general f ps (Lowering.operands ts {store := n}).1)
  have hstore : (Session.compile text {store := n}).2.store =
      (Lowering.root f ps ts {store := n}).2.store := by
    rw [Session.compile_of_ok _ ht]
    rfl
  have hroot : (n.post text).2.1.constraints.toList =
      (Lowering.operands ts {store := n}).2.store.constraints.toList ++
        [.general f ps (Lowering.operands ts {store := n}).1] := by
    show (Session.compile text {store := n}).2.store.constraints.toList = _
    rw [hstore, ← Array.toList_push]
    exact congrArg Array.toList hposts.constraints
  -- What is laid out before the root is functional, so only the root is left of it.
  have hlaid := hlays.constraints
  rw [Term.constraints, ← List.append_assoc] at hlaid
  obtain ⟨hbefore, -⟩ := List.append_inj' (hlaid.symm.trans hroot) rfl
  have hfunctional : ((Term.applicationsOf (Term.operands (.application f ps ts)) 0).map
      (Term.constraintAt (Session.numberAt {store := n} (Term.row (.application f ps ts))))).filter
        (fun c => c.result?.isNone) = [] := by
    refine List.filter_eq_nil_iff.mpr fun c hc => ?_
    obtain ⟨a, -, rfl⟩ := List.mem_map.mp hc
    exact Bool.noConfusion
  rw [generals, hroot, List.filter_append, ← hbefore, List.filter_append, hfunctional,
    List.append_nil]
  rfl

/-- Each term is stated by one general constraint, in order. -/
theorem Posted.explained (h : Posted n us) (hn : Store.Numbered n) :
    ∃ terms roots, Session.Complete {store := n} terms roots ∧
      List.Forall₂ (fun c t => c.States terms t.plain) n.generals us := by
  refine h.keeps (P := fun n us => ∃ terms roots, Session.Complete {store := n} terms roots ∧
    List.Forall₂ (fun c t => c.States terms t.plain) n.generals us) ?_ ?_ hn
  · exact ⟨[], [], Session.complete_empty .perOccurrence, .nil⟩
  · rintro n us text t ht hn hlays ⟨terms, roots, hcomplete, hstates⟩
    obtain ⟨f, ps, ts, rfl⟩ := t.isLeaf_eq_false_iff.mp (stated_eq_ok_iff.mp ht).2
    have hcompile : (Session.compile text {store := n}).2 =
        (Lowering.root f ps ts {store := n}).2.toSession := by
      rw [Session.compile_of_ok _ ht]
      rfl
    have hsize : (Store.vars (Lowering.root f ps ts {store := n}).2.store).size ≤ UInt32.size := by
      rw [← hcompile]
      exact hn.vars
    obtain ⟨terms', hkept, hnext, hvs⟩ := hcomplete.root f ps ts hsize
    rw [← hcompile] at hnext
    refine ⟨terms', _, hnext.renew .perOccurrence, ?_⟩
    rw [generals_post ht hcomplete.valid hlays]
    refine List.rel_append (hstates.imp fun _ _ => .mono hkept) (.cons ?_ .nil)
    exact ⟨Term.plainAll ts, rfl, hvs⟩

end Network

end ConstraintNet
