import ConstraintNet.Proofs.Listing.Labels

/-! Listings tell networks apart.

If two networks have one listing, only the constants of one value might be exchanged. But
terms are read off the constraints of a network with no regard to that, so both networks
state the same terms, in plain form (`Network.Parallel.plain_eq`). And what is laid out for
terms depends on their plain form alone (`Network.Posted.eq_foldl`), constants and all. So
if texts were posted to them, the networks are the same (`Network.build_eq_of_listing_eq`). -/
namespace ConstraintNet

namespace Network
variable {n m : Network}

/-! ### Terms -/

/-- Networks with the same variables and with constraints that resemble each other, each
with an explanation. -/
structure Parallel (n m : Network) (terms terms' : List Term) : Prop where
  labelled : n.Labelled
  defined : DefinedFrom n 0
  explains : ∃ roots, Explains n terms roots
  explains' : ∃ roots, Explains m terms' roots
  vars : n.vars = m.vars
  constraints : List.Forall₂ n.Resembles n.constraints.toList m.constraints.toList

/-- Each constraint has one that resembles it. -/
theorem Parallel.exists_resembles {terms terms' : List Term} (h : Parallel n m terms terms')
    {c : Constraint} (hc : c ∈ n.constraints) : ∃ d ∈ m.constraints, n.Resembles c d := by
  obtain ⟨i, hi, rfl⟩ := List.getElem_of_mem (Array.mem_toList_iff.mpr hc)
  obtain ⟨hlength, hget⟩ := List.forall₂_iff_get.mp h.constraints
  exact ⟨_, Array.mem_toList_iff.mp (List.getElem_mem (hlength ▸ hi)), hget i hi (hlength ▸ hi)⟩

section
variable {terms terms' : List Term}

mutual

/-- Variables that match stand for the same term. -/
theorem Parallel.term_eq (h : Parallel n m terms terms') : ∀ (t : Term) {v w : VariableId} {u : Term},
    n.Matches v w → StandsFor terms v t → StandsFor terms' w u → t = u
  | .name _, v, w, u, hvw, hv, hw => by
    obtain ⟨_, hn⟩ := h.explains
    obtain ⟨_, hm⟩ := h.explains'
    rcases hn.origin h.defined hv with ⟨name, hx, ht⟩ | ⟨_, _, ht⟩ | ⟨_, _, _, _, ht, _⟩
    · cases hvw.eq hx rfl
      have hy : m.vars[v.toNat]? = some (.named name) := by rwa [← h.vars]
      rw [ht]
      exact Option.some.inj ((hm.named hy).symm.trans hw)
    · cases ht
    · cases ht
  | .literal _ _, v, w, u, hvw, hv, hw => by
    obtain ⟨_, hn⟩ := h.explains
    obtain ⟨_, hm⟩ := h.explains'
    rcases hn.origin h.defined hv with ⟨_, _, ht⟩ | ⟨value, hx, ht⟩ | ⟨_, _, _, _, ht, _⟩
    · cases ht
    · have hy := hvw.constant hx
      rw [h.vars] at hy
      rw [ht]
      exact Option.some.inj ((hm.constant hy).symm.trans hw)
    · cases ht
  | .application _ _ ts, v, w, u, hvw, hv, hw => by
    obtain ⟨_, hn⟩ := h.explains
    obtain ⟨_, hm⟩ := h.explains'
    rcases hn.origin h.defined hv with ⟨_, _, ht⟩ | ⟨_, _, ht⟩ | ⟨c, hc, hresult, _, ht, hvs⟩
    · cases ht
    · cases ht
    · cases ht
      obtain ⟨d, hd, hcd⟩ := h.exists_resembles hc
      cases hvw.eq (h.labelled.result c hc v hresult) rfl
      obtain ⟨u', ⟨us, rfl, hws⟩, hv'⟩ := hm.result d hd v (hcd.result ▸ hresult)
      rw [← Option.some.inj (hv'.symm.trans hw), hcd.operator, hcd.parameters,
        Parallel.terms_eq h ts hcd.operands hvs hws]

theorem Parallel.terms_eq (h : Parallel n m terms terms') : ∀ (ts : List Term)
    {vs ws : List VariableId} {us : List Term}, List.Forall₂ n.Matches vs ws →
    StandFor terms vs ts → StandFor terms' ws us → ts = us
  | [], _, _, us, hvw, hv, hw => by
    cases hvw with
    | nil =>
      cases us with
      | nil => rfl
      | cons => cases hw
    | cons => cases hv
  | t :: ts, _, _, us, hvw, hv, hw => by
    cases hvw with
    | nil => cases hv
    | cons hfirst hrest =>
      cases us with
      | nil => cases hw
      | cons u us =>
        obtain ⟨hv, hvs⟩ := standFor_cons.mp hv
        obtain ⟨hw, hws⟩ := standFor_cons.mp hw
        rw [Parallel.term_eq h t hfirst hv hw, Parallel.terms_eq h ts hrest hvs hws]

end

/-- Constraints that resemble each other state the same. -/
theorem Parallel.states_eq (h : Parallel n m terms terms') {c d : Constraint} {t u : Term}
    (hcd : n.Resembles c d) (ht : c.States terms t) (hu : d.States terms' u) : t = u := by
  obtain ⟨ts, rfl, hvs⟩ := ht
  obtain ⟨us, rfl, hws⟩ := hu
  rw [hcd.operator, hcd.parameters, h.terms_eq ts hcd.operands hvs hws]

/-- Networks that are parallel state the same terms. -/
theorem Parallel.plain_eq (h : Parallel n m terms terms') {us us' : List Term}
    (hn : List.Forall₂ (fun c t => c.States terms t.plain) n.generals us)
    (hm : List.Forall₂ (fun c t => c.States terms' t.plain) m.generals us') :
    us.map Term.plain = us'.map Term.plain := by
  have hgenerals : List.Forall₂ n.Resembles n.generals m.generals :=
    List.rel_filter (fun c d hcd => by
      show c.result?.isNone = true ↔ d.result?.isNone = true
      rw [hcd.result]) h.constraints
  generalize n.generals = cs at hgenerals hn
  generalize m.generals = ds at hgenerals hm
  induction hgenerals generalizing us us' with
  | nil =>
    cases hn
    cases hm
    rfl
  | cons hcd _ ih =>
    cases hn with
    | cons ht hts =>
      cases hm with
      | cons hu hus =>
        rw [List.map_cons, List.map_cons, h.states_eq hcd ht hu, ih hts hus]

end

end Network

/-! ### Spelling

What a term is compiled into does not depend on how its literals are written. -/

namespace Lowering
variable {σ : Type} [Store σ]

mutual

theorem operand_plain : ∀ (t : Term) {l m : Lowering σ},
    Session.Alike Eq l.toSession m.toSession →
    (operand t l).1 = (operand t.plain m).1 ∧
      Session.Alike Eq (operand t l).2.toSession (operand t.plain m).2.toSession
  | .name text, _, _, h => operand_alike .eq (.name text) h
  | .literal _ value, _, _, h => constant_alike .eq h value
  | .application f ps ts, l, m, h => by
    obtain ⟨hresult, h₁⟩ := introduce_alike .eq h (x := .auxiliary) rfl
    obtain ⟨hbelow, h₂⟩ := operands_plain ts h₁
    refine ⟨hresult, ?_⟩
    simp only [Term.plain, operand]
    rw [hresult, hbelow]
    exact define_alike .eq h₂ _ f ps ts (Term.plainAll ts) _

theorem operands_plain : ∀ (ts : List Term) {l m : Lowering σ},
    Session.Alike Eq l.toSession m.toSession →
    (operands ts l).1 = (operands (Term.plainAll ts) m).1 ∧
      Session.Alike Eq (operands ts l).2.toSession (operands (Term.plainAll ts) m).2.toSession
  | [], _, _, h => ⟨rfl, h⟩
  | t :: ts, l, m, h => by
    obtain ⟨hfirst, h₁⟩ := operand_plain t h
    obtain ⟨hrest, h₂⟩ := operands_plain ts h₁
    refine ⟨?_, h₂⟩
    simp only [Term.plainAll, operands]
    rw [hfirst, hrest]

end

end Lowering

namespace Network
variable {n m : Network} {us : List Term}

/-- The network once the term is laid out in it. -/
def lay (n : Network) (t : Term) : Network :=
  (Lowering.root t.text t.parameters t.operands {store := n}).2.store

theorem lay_plain (n : Network) {t : Term} (ht : t.isLeaf = false) : n.lay t.plain = n.lay t := by
  obtain ⟨f, ps, ts, rfl⟩ := t.isLeaf_eq_false_iff.mp ht
  have hstart : Session.Alike Eq (Lowering.mk {store := n} 0).toSession
      (Lowering.mk {store := n} 0).toSession := ⟨rfl, rfl, fun _ => rfl⟩
  obtain ⟨hids, hstores⟩ := Lowering.operands_plain ts hstart
  show (Store.addConstraint (Lowering.operands (Term.plainAll ts) {store := n}).2.store
      (.general f ps (Lowering.operands (Term.plainAll ts) {store := n}).1)).store =
    (Store.addConstraint (Lowering.operands ts {store := n}).2.store
      (.general f ps (Lowering.operands ts {store := n}).1)).store
  rw [hids, hstores.stores]

/-- Posting lays out the terms in plain form. -/
theorem Posted.eq_foldl (h : Posted n us) : n = (us.map Term.plain).foldl lay {} := by
  induction h with
  | empty => rfl
  | @post n us text t _ ht ih =>
    have hlay : (n.post text).2.1 = n.lay t := by
      show (Session.compile text {store := n}).2.store = n.lay t
      rw [Session.compile_of_ok _ ht]
      rfl
    rw [hlay, List.map_append, List.foldl_append, ← ih]
    exact (n.lay_plain (stated_eq_ok_iff.mp ht).2).symm

/-! ### Listings -/

/-- **A listing says it all.** If the listings of networks to which texts were posted are the
same, so are the networks, as long as no name in the texts looks like the number of a
result. -/
theorem build_eq_of_listing_eq {texts texts' : List String}
    (hn : Store.Numbered (build .post texts).2) (hm : Store.Numbered (build .post texts').2)
    (hnames : ∀ text ∈ texts, ∀ name ∈ namesIn text, isUnderscored name = false)
    (hnames' : ∀ text ∈ texts', ∀ name ∈ namesIn text, isUnderscored name = false)
    (h : (build .post texts).2.listing = (build .post texts').2.listing) :
    (build .post texts).2 = (build .post texts').2 := by
  have hposted := posted_build texts
  have hposted' := posted_build texts'
  have hlabelled := hposted.labelled hn (forall_names hnames)
  have hlabelled' := hposted'.labelled hm (forall_names hnames')
  obtain ⟨hvars, hlisted⟩ := said_of_listing_eq hlabelled.legible hlabelled'.legible hn.vars h
  obtain ⟨terms, roots, hcomplete, hstates⟩ := hposted.explained hn
  obtain ⟨terms', roots', hcomplete', hstates'⟩ := hposted'.explained hm
  have hparallel : Parallel (build .post texts).2 (build .post texts').2 terms terms' :=
    ⟨hlabelled, hcomplete.defined, ⟨roots, hcomplete.explained.explains⟩,
      ⟨roots', hcomplete'.explained.explains⟩, hvars,
      hlisted.imp fun _ _ => hlabelled.resembles hlabelled' hvars⟩
  rw [hposted.eq_foldl, hposted'.eq_foldl, hparallel.plain_eq hstates hstates']

/-- The texts are spelled differently, and some are in error. Each literal has a constant of its
own, so the listing has the label `2` for three. -/
theorem build_eq_of_listing_eq_distances :
    Store.Numbered (build .post ["neq(abs(sub(x,y)),2)", "lt(2,add(x,2))"]).2 ∧
      Store.Numbered (build .post ["x", "neq(abs(sub(x,y)),002)", "neq(x", "lt( +2 , add(x,2))",
        "lt(02, add(x,2))"]).2 ∧
      (build .post ["neq(abs(sub(x,y)),2)", "lt(2,add(x,2))"]).2 =
        (build .post ["x", "neq(abs(sub(x,y)),002)", "neq(x", "lt( +2 , add(x,2))",
          "lt(02, add(x,2))"]).2 := by
  have hn : Store.Numbered (build .post ["neq(abs(sub(x,y)),2)", "lt(2,add(x,2))"]).2 :=
    ⟨by decide +kernel, by decide +kernel⟩
  have hm : Store.Numbered (build .post ["x", "neq(abs(sub(x,y)),002)", "neq(x",
      "lt( +2 , add(x,2))", "lt(02, add(x,2))"]).2 := ⟨by decide +kernel, by decide +kernel⟩
  exact ⟨hn, hm, build_eq_of_listing_eq hn hm (by decide +kernel) (by decide +kernel)
    (by decide +kernel)⟩

/-- The condition on names is needed: here `_2` is the name of one operand, and the label of the
other. -/
example :
    (build .post ["q(_2,x)", "p(_2,f())"]).2.listing = (build .post ["q(_2,x)", "p(f(),_2)"]).2.listing ∧
      (build .post ["q(_2,x)", "p(_2,f())"]).2.constraints ≠
        (build .post ["q(_2,x)", "p(f(),_2)"]).2.constraints := by
  decide +kernel

end Network

end ConstraintNet
