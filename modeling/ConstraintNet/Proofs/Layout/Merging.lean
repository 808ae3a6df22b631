import ConstraintNet.Proofs.Compile.Runs
import ConstraintNet.Proofs.Layout.Renumbering
import Mathlib.Data.List.Perm.Subperm

/-! What sharing constants does.

A session in which literals share constants leaves the network that it would have
left without sharing, with those constants merged that were added for the same
value (`Store.Merges`, `Store.hold_merges`). Nothing else changes: the replies
are the same, and so are the constraints, one by one, but for the numbers in them.

Sharing forgets the places of constants, and that is a translation of layouts
(`Origin.merge`). Sessions whose layouts are translations of each other cannot be
told apart by their replies (`Ground.Translation.matching`). -/
namespace ConstraintNet

/-- The origin with no place, if it is a constant. -/
def Origin.merge : Origin → Origin
  | .constant _ value => .constant none value
  | o => o

/-- Two origins are merged if they are of constants with one value. -/
theorem Origin.merge_eq_merge_iff {o o' : Origin} :
    o.merge = o'.merge ↔
      o = o' ∨ ∃ site? site?' value, o = .constant site? value ∧ o' = .constant site?' value := by
  cases o <;> cases o' <;> simp [merge]

section
variable {σ : Type} [Store σ]

/-- What a new session replies to requests, and leaves. -/
def Store.hold (s : σ) (sharing : Sharing) (requests : List Request) : List Reply × Session σ :=
  Session.serve requests {store := s, sharing}

/-- Sharing constants merges them. -/
theorem Store.merge_translation (s : σ) :
    Ground.Translation Origin.merge (Store.ground s .perOccurrence) (Store.ground s .perValue) where
  vars := rfl
  constraints := rfl
  given _ := rfl
  result _ := rfl
  content o := by cases o <;> rfl
  name x := by
    cases hx : Store.find? s x with
    | some v =>
      rw [Ground.name_of_some (g := Store.ground s .perValue) hx,
        Ground.name_of_some (g := Store.ground s .perOccurrence) hx]
      rfl
    | none =>
      rw [Ground.name_of_none (g := Store.ground s .perValue) hx,
        Ground.name_of_none (g := Store.ground s .perOccurrence) hx]
      rfl
  constant p value := by
    rw [Ground.constant_perValue rfl, Ground.constant_perOccurrence rfl, Ground.shared_ground]
    rfl

/-! ### Sessions in translation -/

variable [LawfulStore σ] {f : Origin → Origin} {g g' : Ground}

/-- Sessions that have laid out the same, the one in translation. -/
def Session.Translated (f : Origin → Origin) (g g' : Ground) (s t : Session σ) : Prop :=
  ∃ n refs ds, s.Realises g (gather g.givens refs) ds ∧
    t.Realises g' (gather g'.givens (refs.map f)) (ds.map (Draft.map f)) ∧
    ∀ i, n ≤ i → NewText i (gather g.givens refs) ds ∧
      NewText i (gather g'.givens (refs.map f)) (ds.map (Draft.map f))

namespace Ground.Translation

theorem outcome_eq (hf : Translation f g g') {i : Nat} {os os' : List Origin} {ds : List Draft}
    (hi : NewText i os ds) (hi' : NewText i os' (ds.map (Draft.map f))) (text : String) :
    g'.outcome (ds.map (Draft.map f) ++ g'.draftsIn i text) i text =
      g.outcome (ds ++ g.draftsIn i text) i text := by
  rw [hi.outcome_eq, hi'.outcome_eq]
  cases stated text with
  | error e => rfl
  | ok t =>
    dsimp only
    rw [hf.draftsOf_eq, ← List.map_append, List.length_map]

theorem matching (hf : Translation f g g') :
    Session.Matching (Session.Translated (σ := σ) f g g') := by
  rintro s t text ⟨n, refs, ds, hs, ht, hnew⟩
  obtain ⟨hi, hi'⟩ := hnew n (Nat.le_refl n)
  obtain ⟨hs', houtcome⟩ := hs.compile hi text
  obtain ⟨ht', houtcome'⟩ := ht.compile hi' text
  refine ⟨by rw [houtcome, houtcome', hf.outcome_eq hi hi'], n + 1, refs ++ g.visitsIn n text,
    ds ++ g.draftsIn n text, ?_, ?_, ?_⟩
  · rwa [gather_append]
  · rwa [List.map_append, List.map_append, gather_append, ← hf.visitsIn_eq, ← hf.draftsIn_eq]
  · intro i hlt
    obtain ⟨hj, hj'⟩ := hnew i (Nat.le_of_succ_le hlt)
    rw [List.map_append, List.map_append, gather_append, gather_append, ← hf.visitsIn_eq,
      ← hf.draftsIn_eq]
    exact ⟨hj.compile (Nat.ne_of_lt hlt) text, hj'.compile (Nat.ne_of_lt hlt) text⟩

end Ground.Translation

/-! ### Merged stores -/

/-- Beyond what `s` holds, `b` is `a` with its constants merged, those of one value into
one. -/
structure Store.Merges (s a b : σ) (h : VariableId → VariableId) : Prop where
  /-- Variables go to variables of the same kind. -/
  content : ∀ v : VariableId, v.toNat < (Store.vars a).size →
    (Store.vars b)[(h v).toNat]? = (Store.vars a)[v.toNat]?
  onto : ∀ w : VariableId, w.toNat < (Store.vars b).size →
    ∃ v : VariableId, v.toNat < (Store.vars a).size ∧ h v = w
  fixed : ∀ v : VariableId, v.toNat < (Store.vars s).size → h v = v
  /-- No variable that was there before is used for a new one. -/
  added : ∀ v : VariableId, (Store.vars s).size ≤ v.toNat → v.toNat < (Store.vars a).size →
    (Store.vars s).size ≤ (h v).toNat
  merged : ∀ v w : VariableId, (Store.vars s).size ≤ v.toNat → v.toNat < (Store.vars a).size →
    (Store.vars s).size ≤ w.toNat → w.toNat < (Store.vars a).size →
    (h v = h w ↔ v = w ∨ ∃ value, (Store.vars a)[v.toNat]? = some (.constant value) ∧
      (Store.vars a)[w.toNat]? = some (.constant value))
  constraints : Store.constraints b = (Store.constraints a).map (Constraint.rename h)

section Merging
variable {s a b : σ} {refs : List Origin} {ds : List Draft}

/-- What is registered without sharing is registered with it, merged. -/
theorem merge_mem_gather {gs os : List Origin} (hgs : ∀ o ∈ gs, o.merge = o) {o : Origin}
    (ho : o ∈ gather gs os) : o.merge ∈ gather gs (os.map Origin.merge) := by
  rw [mem_gather] at ho ⊢
  rcases ho with ho | ho
  · exact .inl ((hgs o ho).symm ▸ ho)
  · exact .inr (List.mem_map_of_mem ho)

theorem exists_of_mem_gather_merge {gs os : List Origin} (hgs : ∀ o ∈ gs, o.merge = o) {o' : Origin}
    (ho' : o' ∈ gather gs (os.map Origin.merge)) : ∃ o ∈ gather gs os, o.merge = o' := by
  rcases mem_gather.mp ho' with ho' | ho'
  · exact ⟨o', mem_gather.mpr (.inl ho'), hgs o' ho'⟩
  · obtain ⟨o, ho, rfl⟩ := List.mem_map.mp ho'
    exact ⟨o, mem_gather.mpr (.inr ho), rfl⟩

/-- Merging makes a layout no longer. -/
theorem length_le_of_merge {os os' : List Origin} (hnodup : os'.Nodup)
    (honto : ∀ o' ∈ os', ∃ o ∈ os, o.merge = o') : os'.length ≤ os.length := by
  have hsubset : os' ⊆ os.map Origin.merge := by
    intro o' ho'
    obtain ⟨o, ho, rfl⟩ := honto o' ho'
    exact List.mem_map_of_mem ho
  have hle := (List.subperm_of_subset hnodup hsubset).length_le
  rwa [List.length_map] at hle

/-- A variable that was added has an origin that was not given. -/
theorem Store.Realises.exists_added {g : Ground} {os : List Origin}
    (ha : Store.Realises g a os ds) (hos : g.givens <+: os) {v : VariableId}
    (hge : g.vars.size ≤ v.toNat) (hlt : v.toNat < (Store.vars a).size) :
    ∃ o ∈ os, os[v.toNat]? = some o ∧ ∀ i, o ≠ .given i := by
  obtain ⟨o, ho, hplace⟩ := ha.exists_origin hlt
  refine ⟨o, ho, hplace, ?_⟩
  rintro i rfl
  have hi := ha.lt_of_given_mem ho
  have hplaces : os[v.toNat]? = os[i]? := hplace.trans (getElem?_givens hos hi).symm
  have heq := (List.getElem?_inj (List.getElem?_eq_some_iff.mp hplace).1 ha.nodup).mp hplaces
  exact Nat.not_lt_of_le hge (heq ▸ hi)

theorem merge_of_mem_givens {g : Ground} {o : Origin} (ho : o ∈ g.givens) : o.merge = o := by
  obtain ⟨i, _, rfl⟩ := List.mem_map.mp ho
  rfl

/-- A constant that was not given has the origin of one. -/
theorem Ground.content_eq_constant_iff {g : Ground} {o : Origin} (hne : ∀ i, o ≠ .given i)
    {value : Int64} : g.content o = some (.constant value) ↔ ∃ site?, o = .constant site? value := by
  cases o with
  | given i => exact absurd rfl (hne i)
  | name x => simp [content]
  | result p => simp [content]
  | constant site? value' => simp [content]

/-- Only what is given is merged into what is given. -/
theorem Origin.merge_eq_given_iff {o : Origin} {i : Nat} : o.merge = .given i ↔ o = .given i := by
  cases o <;> simp [merge]

theorem Store.merges_of_realises
    (ha : Store.Realises (Store.ground s .perOccurrence) a
      (gather (Store.ground s .perOccurrence).givens refs) ds)
    (hb : Store.Realises (Store.ground s .perValue) b
      (gather (Store.ground s .perValue).givens (refs.map .merge)) (ds.map (.map .merge)))
    (hclosed : Store.Closed s) (hsize : (Store.vars a).size ≤ UInt32.size) :
    Store.Merges s a b (translate .merge (gather (Store.ground s .perOccurrence).givens refs)
      (gather (Store.ground s .perValue).givens (refs.map .merge))) := by
  have hf := Store.merge_translation s
  have hos := prefix_gather (Store.ground s .perOccurrence).givens refs
  have hos' := prefix_gather (Store.ground s .perOccurrence).givens (refs.map .merge)
  have hgivens : (Store.ground s .perValue).givens = (Store.ground s .perOccurrence).givens := rfl
  have hmem : ∀ o ∈ gather (Store.ground s .perOccurrence).givens refs,
      o.merge ∈ gather (Store.ground s .perOccurrence).givens (refs.map .merge) :=
    fun o ho => merge_mem_gather (fun _ => merge_of_mem_givens) ho
  have honto : ∀ o' ∈ gather (Store.ground s .perOccurrence).givens (refs.map .merge),
      ∃ o ∈ gather (Store.ground s .perOccurrence).givens refs, o.merge = o' :=
    fun o' ho' => exists_of_mem_gather_merge (fun _ => merge_of_mem_givens) ho'
  rw [hgivens] at hb ⊢
  generalize gather (Store.ground s .perOccurrence).givens refs = os at *
  generalize gather (Store.ground s .perOccurrence).givens (refs.map .merge) = os' at *
  have hlength : os.length ≤ UInt32.size := ha.length_origins ▸ hsize
  have hlength' : os'.length ≤ UInt32.size :=
    Nat.le_trans (length_le_of_merge hb.nodup honto) hlength
  refine ⟨?content, ?onto, ?fixed, ?added, ?merged, ?constraints⟩
  case content => exact fun v hv => hf.getElem?_vars ha hb hmem hlength' hv
  case onto =>
    intro w hw
    obtain ⟨o', ho', hplace'⟩ := hb.exists_origin hw
    obtain ⟨o, ho, rfl⟩ := honto o' ho'
    refine ⟨number os o, ?_, ?_⟩
    · have hlt := (List.getElem?_eq_some_iff.mp (getElem?_number ho hlength)).1
      rwa [ha.length_origins] at hlt
    · rw [translate_number ho hlength, number_of_getElem? hb.nodup hplace']
  case fixed => exact fun v hv => hf.translate_given hos hos' hv
  case added =>
    intro v hge hlt
    obtain ⟨o, ho, hplace, hne⟩ := ha.exists_added hos hge hlt
    refine Nat.le_of_not_lt fun hlt' => ?_
    have hplace' := getElem?_number (hmem o ho) hlength'
    rw [← translate_of_getElem? hplace, getElem?_givens hos' hlt'] at hplace'
    exact hne _ (Origin.merge_eq_given_iff.mp (Option.some.inj hplace').symm)
  case merged =>
    intro v w hge hlt hge' hlt'
    obtain ⟨o, ho, hplace, hne⟩ := ha.exists_added hos hge hlt
    obtain ⟨o', ho', hplace', hne'⟩ := ha.exists_added hos hge' hlt'
    have hsame : v = w ↔ o = o' := by
      rw [← number_of_getElem? ha.nodup hplace, ← number_of_getElem? ha.nodup hplace',
        number_inj hlength ho ho']
    rw [translate_of_getElem? hplace, translate_of_getElem? hplace',
      number_inj hlength' (hmem o ho) (hmem o' ho'), Origin.merge_eq_merge_iff,
      ha.getElem?_vars, ha.getElem?_vars, hplace, hplace', hsame]
    simp only [Option.bind_some, Ground.content_eq_constant_iff hne,
      Ground.content_eq_constant_iff hne']
    refine or_congr_right ⟨?_, ?_⟩
    · rintro ⟨site?, site?', value, ho, ho'⟩
      exact ⟨value, ⟨site?, ho⟩, site?', ho'⟩
    · rintro ⟨value, ⟨site?, ho⟩, site?', ho'⟩
      exact ⟨site?, site?', value, ho, ho'⟩
  case constraints =>
    refine Array.ext_getElem? fun k => ?_
    rw [Array.getElem?_map]
    exact hf.getElem?_constraints ha hb hos hos' hlength hclosed List.getElem?_map

end Merging

end

/-! ### The effect of sharing -/

section
variable {σ : Type} [Store σ]

namespace Session

/-- New sessions have laid out nothing yet. -/
theorem translated_start [LawfulStore σ] {f : Origin → Origin} {s : σ} {sharing sharing' : Sharing}
    (hvalid : LawfulStore.Valid s) :
    Translated f (Store.ground s sharing) (Store.ground s sharing') {store := s, sharing}
      {store := s, sharing := sharing'} := by
  have hposted : (Store.ground s sharing).posted.map (Draft.map f) =
      (Store.ground s sharing').posted := by
    rw [Ground.posted, List.map_map]
    rfl
  refine ⟨0, [], (Store.ground s sharing).posted, Store.realises_ground hvalid sharing, ?_, ?_⟩
  · rw [hposted]
    exact Store.realises_ground hvalid sharing'
  · intro i _
    rw [hposted]
    exact ⟨newText_ground _ i, newText_ground _ i⟩

end Session

/-- **Sharing constants merges them, and does nothing else.** Whatever is asked of two new
sessions, one without and one with sharing, the replies are the same, and the one with
sharing leaves the same store but for its new constants, of which those of one value
are merged into one. -/
theorem Store.hold_merges [BuildableStore σ] {s : σ} (hreachable : Store.Reachable s)
    (hclosed : Store.Closed s) (requests : List Request)
    (hsize : (Store.vars (Store.hold s .perOccurrence requests).2.store).size ≤ UInt32.size) :
    (Store.hold s .perOccurrence requests).1 = (Store.hold s .perValue requests).1 ∧
      ∃ h, Store.Merges s (Store.hold s .perOccurrence requests).2.store
        (Store.hold s .perValue requests).2.store h := by
  obtain ⟨hreplies, n, refs, ds, ha, hb, _⟩ :=
    (Store.merge_translation s).matching.serve requests (Session.translated_start hreachable.valid)
  exact ⟨hreplies, _, Store.merges_of_realises ha.store hb.store hclosed hsize⟩

end

/-- A network with two constants of its own, of one value. -/
def Network.sevens : Network :=
  Store.actAll {} [.addVariable (.constant 7), .operate (.post "eq(x,7)")]

/-- Of a new `7` and a new `007` the session makes one constant, but it does not touch the
ones that were there before. -/
theorem Store.hold_merges_sevens :
    Store.Reachable Network.sevens ∧ Store.Closed Network.sevens ∧
      ∃ h, Store.Merges Network.sevens
        (Store.hold Network.sevens .perOccurrence
          [.compile "neq(abs(sub(x,7)),007)", .compileAll ["neq(y,7)", "neq(x"]]).2.store
        (Store.hold Network.sevens .perValue
          [.compile "neq(abs(sub(x,7)),007)", .compileAll ["neq(y,7)", "neq(x"]]).2.store h ∧
        h (.ofNat 5) = h (.ofNat 6) ∧ h (.ofNat 2) ≠ h (.ofNat 5) := by
  have hreachable : Store.Reachable Network.sevens := ⟨_, rfl⟩
  have hclosed : Store.Closed Network.sevens := by
    unfold Store.Closed
    decide +kernel
  obtain ⟨_, h, hmerges⟩ := Store.hold_merges hreachable hclosed
    [.compile "neq(abs(sub(x,7)),007)", .compileAll ["neq(y,7)", "neq(x"]] (by decide +kernel)
  refine ⟨hreachable, hclosed, h, hmerges, ?_, ?_⟩
  · refine (hmerges.merged (.ofNat 5) (.ofNat 6) ?_ ?_ ?_ ?_).mpr (.inr ⟨7, ?_, ?_⟩) <;>
      decide +kernel
  · intro heq
    have hfixed := hmerges.fixed (.ofNat 2) (by decide +kernel)
    have hadded := hmerges.added (.ofNat 5) (by decide +kernel) (by decide +kernel)
    rw [← heq, hfixed] at hadded
    exact absurd hadded (by decide +kernel)

end ConstraintNet
