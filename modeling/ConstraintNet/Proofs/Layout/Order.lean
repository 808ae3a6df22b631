import ConstraintNet.Proofs.Compile.Simulation
import ConstraintNet.Proofs.Layout.Renumbering
import Mathlib.Data.List.Perm.Basic
import Mathlib.Logic.Equiv.Defs

/-! The order of texts.

In whatever order texts are compiled, the network comes out the same but for its
numbers, and each text has the same outcome (`Network.extend_perm`). For if texts
are laid out in another order, the same origins are registered and the same drafts
are posted, only in another order. Numbers are translated from the one to the other
by looking up what has the number (`VariableId.renumbering`,
`ConstraintId.renumbering`). -/
namespace ConstraintNet

/-! ### Renumbering -/

section
variable {α : Type} [DecidableEq α] {l l' : List α}

/-- The way back from the other order. -/
theorem renumber_renumber (hperm : l.Perm l') (hnodup : l.Nodup) (i : Nat) :
    renumber id l' l (renumber id l l' i) = i := by
  cases hi : l[i]? with
  | some a =>
    have hmem : a ∈ l' := hperm.mem_iff.mp (List.mem_of_getElem? hi)
    rw [renumber_of_getElem? (getElem?_renumber hi hmem)]
    obtain ⟨hlt, rfl⟩ := List.getElem?_eq_some_iff.mp hi
    exact hnodup.idxOf_getElem i hlt
  | none =>
    have hnone : l'[i]? = none := by
      rwa [List.getElem?_eq_none_iff, ← hperm.length_eq, ← List.getElem?_eq_none_iff]
    simp only [renumber, hi, hnone]

theorem renumber_lt_of_perm (hperm : l.Perm l') {n i : Nat} (hlength : l.length ≤ n) (hi : i < n) :
    renumber id l l' i < n :=
  renumber_lt (fun _ ha => hperm.mem_iff.mp ha) (hperm.length_eq ▸ hlength) hi

/-- What has the number in the other order is what had it. -/
theorem getElem?_renumber_of_perm (hperm : l.Perm l') (i : Nat) :
    l'[renumber id l l' i]? = l[i]? := by
  cases hi : l[i]? with
  | some a => exact getElem?_renumber hi (hperm.mem_iff.mp (List.mem_of_getElem? hi))
  | none =>
    rw [renumber, hi]
    rwa [List.getElem?_eq_none_iff, ← hperm.length_eq, ← List.getElem?_eq_none_iff]

/-- What is at the same place in both orders keeps its number. -/
theorem renumber_eq_self (hnodup : l'.Nodup) {i : Nat} {a : α} (hi : l[i]? = some a)
    (hi' : l'[i]? = some a) : renumber id l l' i = i := by
  obtain ⟨hlt, rfl⟩ := List.getElem?_eq_some_iff.mp hi'
  rw [renumber_of_getElem? hi, id_eq, hnodup.idxOf_getElem i hlt]

def renumberWord (l l' : List α) (w : UInt32) : UInt32 :=
  .ofNat (renumber id l l' w.toNat)

theorem renumberWord_renumberWord (hperm : l.Perm l') (hnodup : l.Nodup)
    (hsize : l.length ≤ UInt32.size) (w : UInt32) :
    renumberWord l' l (renumberWord l l' w) = w := by
  have hlt := renumber_lt_of_perm hperm hsize w.toNat_lt
  rw [renumberWord, renumberWord, UInt32.toNat_ofNat_of_lt' hlt, renumber_renumber hperm hnodup,
    UInt32.ofNat_toNat]

theorem renumberWord_renumberWord' (hperm : l.Perm l') (hnodup : l.Nodup)
    (hsize : l.length ≤ UInt32.size) (w : UInt32) : renumberWord l l' (renumberWord l' l w) = w :=
  renumberWord_renumberWord hperm.symm (hperm.nodup_iff.mp hnodup) (hperm.length_eq ▸ hsize) w

/-- The numbers of variables in another order. -/
def VariableId.renumbering (hperm : l.Perm l') (hnodup : l.Nodup) (hsize : l.length ≤ UInt32.size) :
    VariableId ≃ VariableId where
  toFun v := ⟨renumberWord l l' v.index⟩
  invFun v := ⟨renumberWord l' l v.index⟩
  left_inv v := congrArg mk (renumberWord_renumberWord hperm hnodup hsize v.index)
  right_inv v := congrArg mk (renumberWord_renumberWord' hperm hnodup hsize v.index)

def ConstraintId.renumbering (hperm : l.Perm l') (hnodup : l.Nodup)
    (hsize : l.length ≤ UInt32.size) : ConstraintId ≃ ConstraintId where
  toFun k := ⟨renumberWord l l' k.index⟩
  invFun k := ⟨renumberWord l' l k.index⟩
  left_inv k := congrArg mk (renumberWord_renumberWord hperm hnodup hsize k.index)
  right_inv k := congrArg mk (renumberWord_renumberWord' hperm hnodup hsize k.index)

end

/-! ### Layouts in another order -/

namespace Ground
variable {g : Ground} {texts texts' : List (Nat × String)}

theorem nodup_posted : g.posted.Nodup :=
  List.nodup_range.map fun _ _ h => Draft.given.inj h

/-- Texts with numbers of their own have different constraints. -/
theorem nodup_draftsInAll (hnodup : (texts.map Prod.fst).Nodup) :
    (g.posted ++ g.draftsInAll texts).Nodup := by
  refine nodup_posted.append (List.nodup_flatMap.mpr ⟨fun x _ => nodup_draftsIn x.1 x.2, ?_⟩) ?_
  · refine (List.pairwise_map.mp hnodup).imp fun hne d hd hd' => ?_
    obtain ⟨q, hq, htext⟩ := site_of_mem_draftsIn hd
    obtain ⟨q', hq', htext'⟩ := site_of_mem_draftsIn hd'
    obtain rfl := Option.some.inj (hq.symm.trans hq')
    exact hne (htext.symm.trans htext')
  · intro d hd hd'
    obtain ⟨k, _, rfl⟩ := List.mem_map.mp hd
    obtain ⟨x, _, hmem⟩ := List.mem_flatMap.mp hd'
    obtain ⟨q, hq, _⟩ := site_of_mem_draftsIn hmem
    cases hq

theorem draftsInAll_perm (hperm : texts.Perm texts') :
    (g.posted ++ g.draftsInAll texts).Perm (g.posted ++ g.draftsInAll texts') :=
  (hperm.flatMap_right _).append_left _

theorem gather_visitsInAll_perm (hperm : texts.Perm texts') :
    (gather g.givens (g.visitsInAll texts)).Perm (gather g.givens (g.visitsInAll texts')) := by
  have hnodup : g.givens.Nodup := List.nodup_range.map fun _ _ h => Origin.given.inj h
  refine (List.perm_ext_iff_of_nodup (nodup_gather hnodup _) (nodup_gather hnodup _)).mpr fun o => ?_
  rw [mem_gather, mem_gather]
  exact or_congr_right (hperm.flatMap_right _).mem_iff

theorem getElem?_posted {k : Nat} (hk : k < g.constraints.size) (more : List Draft) :
    (g.posted ++ more)[k]? = some (.given k) := by
  have hlt : k < g.posted.length := by simpa [posted] using hk
  rw [List.getElem?_append_left hlt, List.getElem?_eq_getElem hlt]
  simp [posted]

end Ground

/-! ### Isomorphic stores -/

section
variable {σ : Type} [Store σ]

/-- The stores hold the same, but for the numbers of variables and of constraints. -/
structure Store.Isomorphic (s t : σ) (φ : VariableId ≃ VariableId) (ψ : ConstraintId ≃ ConstraintId) :
    Prop where
  vars : ∀ v : VariableId, (Store.vars t)[(φ v).toNat]? = (Store.vars s)[v.toNat]?
  constraints : ∀ k : ConstraintId,
    (Store.constraints t)[(ψ k).toNat]? = (Store.constraints s)[k.toNat]?.map (.rename φ)
  names : ∀ x, Store.find? t x = (Store.find? s x).map φ

theorem Ground.Translation.refl (g : Ground) : Ground.Translation id g g :=
  ⟨rfl, rfl, fun _ => rfl, fun _ => rfl, fun _ => rfl, fun _ => rfl, fun _ _ => rfl⟩

theorem Draft.map_id (d : Draft) : d.map id = d := by
  cases d <;> simp [map]

variable [LawfulStore σ] {g : Ground} {os os' : List Origin} {ds ds' : List Draft} {s t : σ}

/-- Layouts that differ in order only are realised by isomorphic stores. -/
theorem Store.isomorphic_of_perm (hs : Store.Realises g s os ds) (ht : Store.Realises g t os' ds')
    (hos : g.givens <+: os) (hos' : g.givens <+: os')
    (hclosed : ∀ c ∈ g.constraints, ∀ v ∈ c.scope, v.toNat < g.vars.size)
    (horigins : os.Perm os') (hdrafts : ds.Perm ds') (hnodup : ds.Nodup)
    (hvars : os.length ≤ UInt32.size) (hconstraints : ds.length ≤ UInt32.size) :
    Store.Isomorphic s t (VariableId.renumbering horigins hs.nodup hvars)
      (ConstraintId.renumbering hdrafts hnodup hconstraints) where
  vars v := by
    have hv : (VariableId.renumbering horigins hs.nodup hvars v).toNat =
        renumber id os os' v.toNat :=
      VariableId.toNat_ofNat (renumber_lt_of_perm horigins hvars v.index.toNat_lt)
    rw [hv, ht.getElem?_vars, hs.getElem?_vars, getElem?_renumber_of_perm horigins]
  constraints k := by
    have hk : (ConstraintId.renumbering hdrafts hnodup hconstraints k).toNat =
        renumber id ds ds' k.toNat :=
      ConstraintId.toNat_ofNat (renumber_lt_of_perm hdrafts hconstraints k.index.toNat_lt)
    rw [hk]
    refine (Ground.Translation.refl g).getElem?_constraints hs ht hos hos' hvars hclosed ?_
    rw [getElem?_renumber_of_perm hdrafts]
    cases ds[k.toNat]? with
    | none => rfl
    | some d => rw [Option.map_some, Draft.map_id]
  names x := by
    rw [ht.names, hs.names]
    by_cases hx : g.name x ∈ os
    · have hnumber : translate id os os' (number os (g.name x)) = number os' (g.name x) :=
        translate_number hx hvars
      rw [numberOf?_of_mem hx, numberOf?_of_mem (horigins.mem_iff.mp hx), Option.map_some]
      exact congrArg some hnumber.symm
    · rw [numberOf?_of_notMem hx, numberOf?_of_notMem (mt horigins.mem_iff.mpr hx), Option.map_none]

/-- The outcome of a text moves with its root. -/
theorem Ground.outcome_renumbering {i : Nat} {text : String} (hdrafts : ds.Perm ds')
    (hnodup : ds.Nodup) (hsize : ds.length ≤ UInt32.size) (hmem : ∀ d ∈ g.draftsIn i text, d ∈ ds) :
    (g.outcome ds i text).map (ConstraintId.renumbering hdrafts hnodup hsize) =
      g.outcome ds' i text := by
  unfold Ground.outcome
  unfold Ground.draftsIn at hmem
  cases hstated : stated text with
  | error e => rfl
  | ok t =>
    rw [hstated] at hmem
    have hroot := hmem (g.root i t) (List.mem_append_right _ (List.mem_singleton_self _))
    have hplace : (ConstraintId.ofNat (ds.idxOf (g.root i t))).toNat = ds.idxOf (g.root i t) :=
      ConstraintId.toNat_ofNat (Nat.lt_of_lt_of_le (List.idxOf_lt_length_iff.mpr hroot) hsize)
    have hnumber : renumber id ds ds' (ds.idxOf (g.root i t)) = ds'.idxOf (g.root i t) :=
      renumber_of_getElem? (List.getElem?_idxOf hroot)
    show Except.ok (ConstraintId.ofNat (renumber id ds ds' (ConstraintId.ofNat _).toNat)) = _
    rw [hplace, hnumber]

/-! ### Sessions -/

/-- Texts with numbers of their own may be compiled in any order. -/
theorem Session.Realises.compileEach_perm {s : Session σ} (h : s.Realises g g.givens g.posted)
    (hclosed : ∀ c ∈ g.constraints, ∀ v ∈ c.scope, v.toNat < g.vars.size)
    {texts texts' : List (Nat × String)} (hperm : texts.Perm texts')
    (hnodup : (texts.map Prod.fst).Nodup)
    (hvars : (Store.vars (s.compileEach (texts.map Prod.snd)).2.store).size ≤ UInt32.size)
    (hconstraints : (Store.constraints (s.compileEach (texts.map Prod.snd)).2.store).size ≤
      UInt32.size) :
    ∃ φ : VariableId ≃ VariableId, ∃ ψ : ConstraintId ≃ ConstraintId,
      (∀ v : VariableId, v.toNat < g.vars.size → φ v = v) ∧
      (∀ k : ConstraintId, k.toNat < g.constraints.size → ψ k = k) ∧
      Store.Isomorphic (s.compileEach (texts.map Prod.snd)).2.store
        (s.compileEach (texts'.map Prod.snd)).2.store φ ψ ∧
      (((texts.map Prod.snd).zip (s.compileEach (texts.map Prod.snd)).1).map
        fun x => (x.1, x.2.map ψ)).Perm
          ((texts'.map Prod.snd).zip (s.compileEach (texts'.map Prod.snd)).1) := by
  have hnodup' : (texts'.map Prod.fst).Nodup := (hperm.map _).nodup_iff.mp hnodup
  obtain ⟨hs, houtcomes⟩ := h.compileEach texts hnodup fun i _ => newText_ground g i
  obtain ⟨ht, houtcomes'⟩ := h.compileEach texts' hnodup' fun i _ => newText_ground g i
  have horigins := Ground.gather_visitsInAll_perm (g := g) hperm
  have hdrafts := Ground.draftsInAll_perm (g := g) hperm
  have hds := Ground.nodup_draftsInAll (g := g) hnodup
  have hds' := Ground.nodup_draftsInAll (g := g) hnodup'
  rw [← hs.store.length_origins] at hvars
  rw [← hs.store.length_drafts] at hconstraints
  have hos := prefix_gather g.givens (g.visitsInAll texts)
  have hos' := prefix_gather g.givens (g.visitsInAll texts')
  refine ⟨VariableId.renumbering horigins hs.store.nodup hvars,
    ConstraintId.renumbering hdrafts hds hconstraints, ?_, ?_, ?_, ?_⟩
  · exact fun v hv => (Ground.Translation.refl g).translate_given hos hos' hv
  · intro k hk
    have hplace := renumber_eq_self hds' (Ground.getElem?_posted hk (g.draftsInAll texts))
      (Ground.getElem?_posted hk (g.draftsInAll texts'))
    show ConstraintId.ofNat (renumber id _ _ k.toNat) = k
    rw [hplace, ConstraintId.ofNat_toNat]
  · exact Store.isomorphic_of_perm hs.store ht.store hos hos' hclosed horigins hdrafts hds hvars
      hconstraints
  · rw [houtcomes, houtcomes', List.zip_map', List.zip_map', List.map_map]
    have hmap : ∀ x ∈ texts, (g.outcome (g.posted ++ g.draftsInAll texts) x.1 x.2).map
        (ConstraintId.renumbering hdrafts hds hconstraints) =
          g.outcome (g.posted ++ g.draftsInAll texts') x.1 x.2 := fun x hx =>
      Ground.outcome_renumbering hdrafts hds hconstraints fun d hd =>
        List.mem_append_right _ (List.mem_flatMap.mpr ⟨x, hx, hd⟩)
    exact .trans (.of_eq (List.map_congr_left fun x hx => congrArg (Prod.mk x.2) (hmap x hx)))
      (hperm.map _)

end

/-! ### Networks -/

/-- Texts can be numbered, and take their numbers with them into another order. -/
theorem exists_numbered {texts texts' : List String} (hperm : texts.Perm texts') :
    ∃ numbered numbered' : List (Nat × String), numbered.Perm numbered' ∧
      (numbered.map Prod.fst).Nodup ∧ numbered.map Prod.snd = texts ∧
      numbered'.map Prod.snd = texts' := by
  have htexts : (texts.zipIdx.map Prod.swap).map Prod.snd = texts := by
    rw [List.map_map]
    exact List.zipIdx_map_fst 0 texts
  have hnumbers : ((texts.zipIdx.map Prod.swap).map Prod.fst).Nodup := by
    rw [List.map_map]
    show (texts.zipIdx.map Prod.snd).Nodup
    rw [List.zipIdx_map_snd]
    exact List.nodup_range'
  have hmoved : texts'.Perm ((texts.zipIdx.map Prod.swap).map Prod.snd) := htexts.symm ▸ hperm.symm
  obtain ⟨numbered', htexts', hperm'⟩ :=
    (congrFun₂ (List.eq_map_comp_perm Prod.snd) texts' _).mpr hmoved
  exact ⟨_, numbered', hperm'.symm, hnumbers, htexts, htexts'.symm⟩

/-- **The order of texts does not matter.** If texts come into a network in another order,
each has the same outcome, and the network is the same but for the numbers of what is
new. -/
theorem Network.extend_perm {n : Network} (hreachable : Store.Reachable n)
    (hclosed : Store.Closed n) (route : Route) {texts texts' : List String}
    (hperm : texts.Perm texts') (hvars : (extend route texts n).2.vars.size ≤ UInt32.size)
    (hconstraints : (extend route texts n).2.constraints.size ≤ UInt32.size) :
    ∃ φ : VariableId ≃ VariableId, ∃ ψ : ConstraintId ≃ ConstraintId,
      (∀ v : VariableId, v.toNat < n.vars.size → φ v = v) ∧
      (∀ k : ConstraintId, k.toNat < n.constraints.size → ψ k = k) ∧
      Store.Isomorphic (extend route texts n).2 (extend route texts' n).2 φ ψ ∧
      ((texts.zip (extend route texts n).1).map fun x => (x.1, x.2.map ψ)).Perm
        (texts'.zip (extend route texts' n).1) := by
  obtain ⟨numbered, numbered', hnumbered, hnodup, rfl, rfl⟩ := exists_numbered hperm
  rw [extend_eq] at hvars hconstraints
  rw [extend_eq, extend_eq]
  have hstart : Session.Realises (Store.ground n route.sharing) {store := n, sharing := route.sharing}
      (Store.ground n route.sharing).givens (Store.ground n route.sharing).posted :=
    Store.realises_ground hreachable.valid route.sharing
  exact hstart.compileEach_perm hclosed hnumbered hnodup hvars hconstraints

/-- A network with one constraint, over a name and a constant. -/
def Network.equation : Network :=
  Store.actAll {} [.operate (.post "eq(x,7)")]

/-- In the other order `y` is registered before all else that is new, and not after it. -/
theorem Network.extend_perm_equation :
    Store.Reachable equation ∧ Store.Closed equation ∧
      ∃ φ : VariableId ≃ VariableId, ∃ ψ : ConstraintId ≃ ConstraintId,
        Store.Isomorphic
          (extend (.session .perValue) ["neq(abs(sub(x,z)),2)", "neq(z", "neq(y,002)"] equation).2
          (extend (.session .perValue) ["neq(z", "neq(y,002)", "neq(abs(sub(x,z)),2)"] equation).2 φ ψ ∧
        φ (.ofNat 6) = .ofNat 2 := by
  have hreachable : Store.Reachable equation := ⟨_, rfl⟩
  have hclosed : Store.Closed equation := by
    unfold Store.Closed
    decide +kernel
  obtain ⟨φ, ψ, _, _, hiso, _⟩ := extend_perm hreachable hclosed (.session .perValue)
    (.trans (.swap "neq(z" "neq(abs(sub(x,z)),2)" ["neq(y,002)"])
      (.cons "neq(z" (.swap "neq(y,002)" "neq(abs(sub(x,z)),2)" [])))
    (by decide +kernel) (by decide +kernel)
  refine ⟨hreachable, hclosed, φ, ψ, hiso, ?_⟩
  have hname := hiso.names "y"
  have hfirst : Store.find? (extend (.session .perValue)
      ["neq(abs(sub(x,z)),2)", "neq(z", "neq(y,002)"] equation).2 "y" = some (.ofNat 6) := by
    decide +kernel
  have hsecond : Store.find? (extend (.session .perValue)
      ["neq(z", "neq(y,002)", "neq(abs(sub(x,z)),2)"] equation).2 "y" = some (.ofNat 2) := by
    decide +kernel
  rw [hfirst, hsecond] at hname
  exact (Option.some.inj hname).symm

end ConstraintNet
