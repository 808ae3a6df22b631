import ConstraintNet.Proofs.Compile.Texts
import ConstraintNet.Proofs.Layout.Realisation

/-! The layout of texts.

A text is laid out by its term, if it states an application at all: what the
operands refer to and need, and then the root (`Ground.visitsIn`,
`Ground.draftsIn`). Each text is known by a number of its own, and in the layout its
places carry that number, so different texts have different results and different
roots (`NewText`).

A session realises what is given when it starts (`Session.realises_ground`), and
after each text that text besides (`Session.Realises.compile`). What becomes of many
texts follows: their layout is the layouts of all of them in order, and the number
that a text is given is the place of its root in it
(`Session.Realises.compileEach`). -/
namespace ConstraintNet

namespace Ground
variable (g : Ground)

/-- The constraint of a term in the text `i`, at the first place. -/
def root (i : Nat) (t : Term) : Draft :=
  .general ⟨i, 0⟩ t.text t.parameters (g.originsOf ⟨i, 1⟩ t.operands)

/-- The origins that the text `i` refers to. -/
def visitsIn (i : Nat) (text : String) : List Origin :=
  match stated text with
  | .error _ => []
  | .ok t => g.visitsOf ⟨i, 1⟩ t.operands

/-- The constraints of the text `i`, the root last. -/
def draftsIn (i : Nat) (text : String) : List Draft :=
  match stated text with
  | .error _ => []
  | .ok t => g.draftsOf ⟨i, 1⟩ t.operands ++ [g.root i t]

/-- What becomes of the text `i` when the drafts are posted. -/
def outcome (ds : List Draft) (i : Nat) (text : String) : Except CompileError ConstraintId :=
  match stated text with
  | .error e => .error e
  | .ok t => .ok (.ofNat (ds.idxOf (g.root i t)))

/-- The origins that texts refer to, each under its own number. -/
def visitsInAll (texts : List (Nat × String)) : List Origin :=
  texts.flatMap fun x => g.visitsIn x.1 x.2

def draftsInAll (texts : List (Nat × String)) : List Draft :=
  texts.flatMap fun x => g.draftsIn x.1 x.2

variable {g} {i : Nat} {text : String} {q : Site}

theorem text_of_mem_visitsIn {o : Origin} (ho : o ∈ g.visitsIn i text) (hq : o.site? = some q) :
    q.text = i := by
  unfold visitsIn at ho
  split at ho
  · cases ho
  · exact (within_of_mem_visitsOf _ ho hq).1

theorem site_of_mem_draftsIn {d : Draft} (hd : d ∈ g.draftsIn i text) :
    ∃ q, d.site? = some q ∧ q.text = i := by
  unfold draftsIn at hd
  split at hd
  · cases hd
  · next t _ =>
    rcases List.mem_append.mp hd with hd | hd
    · obtain ⟨q, hq, htext, _⟩ := site_of_mem_draftsOf _ hd
      exact ⟨q, hq, htext⟩
    · rw [List.mem_singleton.mp hd]
      exact ⟨_, rfl, rfl⟩

/-- The operands of a text need no constraint at its first place. -/
theorem root_notMem_draftsOf (t : Term) (ts : List Term) : g.root i t ∉ g.draftsOf ⟨i, 1⟩ ts := by
  intro hmem
  obtain ⟨q, hq, _, hfirst, _⟩ := site_of_mem_draftsOf ts hmem
  cases hq
  cases hfirst

theorem nodup_draftsIn (i : Nat) (text : String) : (g.draftsIn i text).Nodup := by
  unfold draftsIn
  split
  · exact List.nodup_nil
  · refine (nodup_draftsOf _ _).append (List.nodup_singleton _) ?_
    intro d hd hd'
    rw [List.mem_singleton.mp hd'] at hd
    exact root_notMem_draftsOf _ _ hd

/-- What becomes of a text does not change once it is posted. -/
theorem outcome_append (ds more : List Draft) (i : Nat) (text : String) :
    g.outcome (ds ++ g.draftsIn i text) i text = g.outcome (ds ++ g.draftsIn i text ++ more) i text := by
  unfold outcome draftsIn
  split
  · rfl
  · next t _ =>
    have hmem : g.root i t ∈ ds ++ (g.draftsOf ⟨i, 1⟩ t.operands ++ [g.root i t]) := by simp
    rw [List.idxOf_append_of_mem hmem]

end Ground

/-! ### New texts -/

/-- Nothing is registered or posted for the text `i`. -/
structure NewText (i : Nat) (os : List Origin) (ds : List Draft) : Prop where
  origins : ∀ o ∈ os, ∀ q, o.site? = some q → q.text ≠ i
  drafts : ∀ d ∈ ds, ∀ q, d.site? = some q → q.text ≠ i

theorem newText_ground (g : Ground) (i : Nat) : NewText i g.givens g.posted := by
  constructor
  · intro o ho q hq
    obtain ⟨j, _, rfl⟩ := List.mem_map.mp ho
    cases hq
  · intro d hd q hq
    obtain ⟨k, _, rfl⟩ := List.mem_map.mp hd
    cases hq

theorem NewText.ahead {i : Nat} {os : List Origin} {ds : List Draft} (h : NewText i os ds) (n : Nat) :
    Ahead os ⟨i, n⟩ :=
  fun o ho q hq htext => absurd htext (h.origins o ho q hq)

/-- The number that a new text is given is that of the next constraint after those of its
operands. -/
theorem NewText.outcome_eq {g : Ground} {i : Nat} {os : List Origin} {ds : List Draft}
    (h : NewText i os ds) (text : String) :
    g.outcome (ds ++ g.draftsIn i text) i text = match stated text with
      | .error e => .error e
      | .ok t => .ok (.ofNat (ds ++ g.draftsOf ⟨i, 1⟩ t.operands).length) := by
  unfold Ground.outcome Ground.draftsIn
  cases stated text with
  | error e => rfl
  | ok t =>
    have hnew : g.root i t ∉ ds ++ g.draftsOf ⟨i, 1⟩ t.operands := by
      intro hmem
      rcases List.mem_append.mp hmem with hmem | hmem
      · exact h.drafts _ hmem _ rfl rfl
      · exact Ground.root_notMem_draftsOf _ _ hmem
    dsimp only
    rw [← List.append_assoc, List.idxOf_append_of_notMem hnew, List.idxOf_cons_self, Nat.add_zero]

/-- A text is new as long as only others are compiled. -/
theorem NewText.compile {g : Ground} {i j : Nat} {os : List Origin} {ds : List Draft}
    (h : NewText j os ds) (hne : i ≠ j) (text : String) :
    NewText j (gather os (g.visitsIn i text)) (ds ++ g.draftsIn i text) := by
  constructor
  · intro o ho q hq
    rcases mem_gather.mp ho with ho | ho
    · exact h.origins o ho q hq
    · rw [Ground.text_of_mem_visitsIn ho hq]
      exact hne
  · intro d hd q hq
    rcases List.mem_append.mp hd with hd | hd
    · exact h.drafts d hd q hq
    · obtain ⟨q', hq', rfl⟩ := Ground.site_of_mem_draftsIn hd
      rwa [← Option.some.inj (hq'.symm.trans hq)]

theorem NewText.compileEach {g : Ground} {i : Nat} {os : List Origin} {ds : List Draft}
    (h : NewText i os ds) (texts : List (Nat × String)) (hi : i ∉ texts.map Prod.fst) :
    NewText i (gather os (g.visitsInAll texts)) (ds ++ g.draftsInAll texts) := by
  induction texts generalizing os ds with
  | nil =>
    rw [Ground.draftsInAll, List.flatMap_nil, List.append_nil]
    exact h
  | cons x texts ih =>
    obtain ⟨hx, hrest⟩ := List.ne_and_not_mem_of_not_mem_cons hi
    rw [Ground.visitsInAll, List.flatMap_cons, gather_append, Ground.draftsInAll, List.flatMap_cons,
      ← List.append_assoc]
    exact ih (h.compile hx.symm x.2) hrest

/-! ### Sessions -/

section
variable {σ : Type} [Store σ] [LawfulStore σ] {g : Ground} {os : List Origin} {ds : List Draft}

/-- The number of a variable that is given is the one that it has. -/
theorem number_given {i : Nat} (h : i < g.vars.size) : number g.givens (.given i) = .ofNat i := by
  have hnodup : g.givens.Nodup := List.nodup_range.map fun _ _ h => Origin.given.inj h
  have hi : i < g.givens.length := by simpa [Ground.givens] using h
  have hget : g.givens[i] = .given i := by simp [Ground.givens]
  rw [number, ← hget, hnodup.idxOf_getElem i hi]

theorem mem_givens {i : Nat} : .given i ∈ g.givens ↔ i < g.vars.size := by
  simp [Ground.givens]

/-- The variable that a store has for a name is one of its own. -/
theorem Store.lt_of_find? {s : σ} (hvalid : LawfulStore.Valid s) {x : String} {v : VariableId}
    (h : Store.find? s x = some v) : v.toNat < (Store.vars s).size := by
  rw [LawfulStore.find?_eq hvalid] at h
  obtain ⟨i, hi, rfl⟩ := Option.map_eq_some_iff.mp h
  obtain ⟨hlt, _⟩ := Array.findIdx?_eq_some_iff_getElem.mp hi
  refine Nat.lt_of_le_of_lt ?_ hlt
  rw [VariableId.ofNat, VariableId.toNat, UInt32.toNat_ofNat']
  exact Nat.mod_le ..

/-- To begin with, a session realises what is given. -/
theorem Session.realises_ground {s : Session σ} (hvalid : LawfulStore.Valid s.store)
    (hconstants : ∀ (value : Int64) (v : VariableId), s.constants[value]? = some v →
      v.toNat < (Store.vars s.store).size) :
    s.Realises s.ground s.ground.givens s.ground.posted := by
  have hnumber : ∀ v : VariableId, v.toNat < (Store.vars s.store).size →
      numberOf? s.ground.givens (.given v.toNat) = some v := by
    intro v hv
    rw [numberOf?_of_mem (mem_givens.mpr hv), number_given hv, VariableId.ofNat_toNat]
  have hknown := fun x v => Store.lt_of_find? hvalid (x := x) (v := v)
  refine ⟨⟨hvalid, ?_, ?_, ?_, ?_, ?_, ?_⟩, rfl, ?_, ?_⟩
  · exact List.nodup_range.map fun _ _ h => Origin.given.inj h
  · refine List.ext_getElem? fun i => ?_
    by_cases hi : i < (Store.vars s.store).size
    · simp [Ground.givens, Ground.content, Session.ground, hi]
    · simp [Ground.givens, Session.ground, hi]
  · refine List.ext_getElem? fun k => ?_
    by_cases hk : k < (Store.constraints s.store).size
    · simp [Ground.posted, Ground.build, Session.ground, hk]
    · simp [Ground.posted, Session.ground, hk]
  · intro d hd o ho
    obtain ⟨k, _, rfl⟩ := List.mem_map.mp hd
    cases ho
  · intro x
    cases hx : Store.find? s.store x with
    | some v => rw [Ground.name_of_some (g := s.ground) hx, hnumber v (hknown x v hx)]
    | none =>
      rw [Ground.name_of_none (g := s.ground) hx, numberOf?_of_notMem (by simp [Ground.givens])]
  · exact fun x v hx => mem_givens.mpr (hknown x v hx)
  · intro _ value
    cases hv : s.constants[value]? with
    | some v => rw [Ground.shared_of_some (g := s.ground) hv, hnumber v (hconstants value v hv)]
    | none =>
      rw [Ground.shared_of_none (g := s.ground) hv, numberOf?_of_notMem (by simp [Ground.givens])]
  · exact fun value v hv => mem_givens.mpr (hconstants value v hv)

/-- A new session has no constants, and so all that is given to it is the store. -/
theorem Store.realises_ground {s : σ} (hvalid : LawfulStore.Valid s) (sharing : Sharing) :
    Session.Realises (Store.ground s sharing) {store := s, sharing} (Store.ground s sharing).givens
      (Store.ground s sharing).posted := by
  refine Session.realises_ground hvalid fun value v hv => ?_
  simp at hv

namespace Session.Realises
variable {s : Session σ}

/-- A new text is laid out on top of what there is, and its outcome is the place of
its root. -/
theorem compile (h : s.Realises g os ds) {i : Nat} (hi : NewText i os ds) (text : String) :
    (s.compile text).2.Realises g (gather os (g.visitsIn i text)) (ds ++ g.draftsIn i text) ∧
      (s.compile text).1 = g.outcome (ds ++ g.draftsIn i text) i text := by
  rw [hi.outcome_eq, Session.compile_eq, Ground.visitsIn, Ground.draftsIn]
  cases stated text with
  | error e =>
    rw [List.append_nil]
    exact ⟨h, rfl⟩
  | ok t =>
    obtain ⟨hroot, hid⟩ :=
      Lowering.root_realises (l := {toSession := s}) t.text t.parameters t.operands h (hi.ahead 1)
    dsimp only
    rw [← List.append_assoc]
    exact ⟨hroot, congrArg Except.ok hid⟩

/-- The layouts of many texts, each under a number of its own, in order. -/
theorem compileEach (texts : List (Nat × String)) {s : Session σ} {os : List Origin}
    {ds : List Draft} (h : s.Realises g os ds) (hnodup : (texts.map Prod.fst).Nodup)
    (hnew : ∀ i ∈ texts.map Prod.fst, NewText i os ds) :
    (s.compileEach (texts.map Prod.snd)).2.Realises g (gather os (g.visitsInAll texts))
        (ds ++ g.draftsInAll texts) ∧
      (s.compileEach (texts.map Prod.snd)).1 =
        texts.map fun x => g.outcome (ds ++ g.draftsInAll texts) x.1 x.2 := by
  induction texts generalizing s os ds with
  | nil =>
    rw [Ground.draftsInAll, List.flatMap_nil, List.append_nil]
    exact ⟨h, rfl⟩
  | cons x texts ih =>
    obtain ⟨hx, hnodup⟩ := List.nodup_cons.mp hnodup
    obtain ⟨hx', hnew⟩ := List.forall_mem_cons.mp hnew
    obtain ⟨hfirst, houtcome⟩ := h.compile hx' x.2
    obtain ⟨hrest, houtcomes⟩ := ih hfirst hnodup fun j hj =>
      (hnew j hj).compile (ne_of_mem_of_not_mem hj hx).symm x.2
    rw [Ground.visitsInAll, List.flatMap_cons, gather_append, Ground.draftsInAll, List.flatMap_cons,
      ← List.append_assoc]
    refine ⟨hrest, ?_⟩
    rw [List.map_cons, List.map_cons, ← Ground.outcome_append]
    exact congrArg₂ List.cons houtcome houtcomes

end Session.Realises

end

end ConstraintNet
