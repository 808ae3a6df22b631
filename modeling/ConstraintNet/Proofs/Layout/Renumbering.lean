import ConstraintNet.Proofs.Layout.Texts

/-! From one layout to another.

Two layouts may name the same things differently. A translation says how
(`Ground.Translation`): what one refers to, the other refers to in translation, and
of what is given nothing changes. Numbers are translated through origins: a number
leads to the origin of its variable, and the translated origin to its number
(`translate`). Then a store that realises the one layout is a store that realises
the other, up to these numbers, variable for variable and constraint for constraint
(`Translation.getElem?_vars`, `Translation.build_map`). -/
namespace ConstraintNet

/-- The constraint over other variables. -/
def Constraint.rename (h : VariableId → VariableId) : Constraint → Constraint
  | .functional result operator parameters operands =>
    .functional (h result) operator parameters (operands.map h)
  | .general operator parameters operands => .general operator parameters (operands.map h)

theorem Constraint.rename_eq_self {h : VariableId → VariableId} {c : Constraint}
    (hc : ∀ v ∈ c.scope, h v = v) : c.rename h = c := by
  have hoperands : c.operands.map h = c.operands := by
    conv_rhs => rw [← List.map_id c.operands]
    exact List.map_congr_left fun v hv => hc v (List.mem_append_right _ hv)
  cases c with
  | functional result f ps vs =>
    have hresult : h result = result := hc result (List.mem_append_left _ (List.mem_singleton_self _))
    have hvs : vs.map h = vs := hoperands
    rw [rename, hresult, hvs]
  | general f ps vs =>
    have hvs : vs.map h = vs := hoperands
    rw [rename, hvs]

/-- Constraints mention registered variables only. -/
def Store.Closed {σ : Type} [Store σ] (s : σ) : Prop :=
  ∀ c ∈ Store.constraints s, ∀ v ∈ c.scope, v.toNat < (Store.vars s).size

/-! ### Places in lists -/

section Places
variable {α β : Type} [DecidableEq β] {f : α → β} {l : List α} {l' : List β} {i n : Nat}

/-- The place in `l'` of what is, but for `f`, at the place `i` in `l`. -/
def renumber (f : α → β) (l : List α) (l' : List β) (i : Nat) : Nat :=
  match l[i]? with
  | some a => l'.idxOf (f a)
  | none => i

theorem renumber_of_getElem? {a : α} (h : l[i]? = some a) : renumber f l l' i = l'.idxOf (f a) := by
  rw [renumber, h]

theorem getElem?_renumber {a : α} (h : l[i]? = some a) (hmem : f a ∈ l') :
    l'[renumber f l l' i]? = some (f a) := by
  rw [renumber_of_getElem? h, List.getElem?_idxOf hmem]

theorem renumber_lt (hmem : ∀ a ∈ l, f a ∈ l') (hlength : l'.length ≤ n) (hi : i < n) :
    renumber f l l' i < n := by
  unfold renumber
  split
  · next a ha =>
    have hlt := List.idxOf_lt_length_iff.mpr (hmem a (List.mem_of_getElem? ha))
    omega
  · exact hi

end Places

/-! ### Translations -/

/-- A way to translate what the layouts over `g` refer to into what those over `g'` do. -/
structure Ground.Translation (f : Origin → Origin) (g g' : Ground) : Prop where
  vars : g'.vars = g.vars
  constraints : g'.constraints = g.constraints
  given : ∀ i, f (.given i) = .given i
  result : ∀ p, f (.result p) = .result p
  content : ∀ o, g'.content (f o) = g.content o
  name : ∀ x, g'.name x = f (g.name x)
  constant : ∀ p value, g'.constant p value = f (g.constant p value)

/-- The draft over other origins. -/
def Draft.map (f : Origin → Origin) : Draft → Draft
  | .given k => .given k
  | .functional site operator parameters operands =>
    .functional site operator parameters (operands.map f)
  | .general site operator parameters operands => .general site operator parameters (operands.map f)

namespace Ground.Translation
variable {f : Origin → Origin} {g g' : Ground}

theorem origin_eq (hf : Translation f g g') (p : Site) (t : Term) :
    g'.origin p t = f (g.origin p t) := by
  cases t with
  | name x => exact hf.name x
  | literal x value => exact hf.constant p value
  | application => exact (hf.result p).symm

theorem originsOf_eq (hf : Translation f g g') (ts : List Term) (p : Site) :
    g'.originsOf p ts = (g.originsOf p ts).map f := by
  induction ts generalizing p with
  | nil => rfl
  | cons t ts ih => rw [originsOf, originsOf, List.map_cons, hf.origin_eq, ih]

mutual

theorem visits_eq (hf : Translation f g g') : ∀ (t : Term) (p : Site),
    g'.visits p t = (g.visits p t).map f
  | .name x, p => by rw [visits, visits, List.map_singleton, hf.name]
  | .literal _ value, p => by rw [visits, visits, List.map_singleton, hf.constant]
  | .application _ _ ts, p => by
    rw [visits, visits, List.map_cons, hf.result, visitsOf_eq hf ts]

theorem visitsOf_eq (hf : Translation f g g') : ∀ (ts : List Term) (p : Site),
    g'.visitsOf p ts = (g.visitsOf p ts).map f
  | [], _ => rfl
  | t :: ts, p => by
    rw [visitsOf, visitsOf, List.map_append, visits_eq hf t, visitsOf_eq hf ts]

end

mutual

theorem drafts_eq (hf : Translation f g g') : ∀ (t : Term) (p : Site),
    g'.drafts p t = (g.drafts p t).map (Draft.map f)
  | .name _, _ => rfl
  | .literal _ _, _ => rfl
  | .application _ _ ts, p => by
    rw [drafts, drafts, List.map_append, List.map_singleton, Draft.map, draftsOf_eq hf ts,
      hf.originsOf_eq]

theorem draftsOf_eq (hf : Translation f g g') : ∀ (ts : List Term) (p : Site),
    g'.draftsOf p ts = (g.draftsOf p ts).map (Draft.map f)
  | [], _ => rfl
  | t :: ts, p => by
    rw [draftsOf, draftsOf, List.map_append, drafts_eq hf t, draftsOf_eq hf ts]

end

theorem visitsIn_eq (hf : Translation f g g') (i : Nat) (text : String) :
    g'.visitsIn i text = (g.visitsIn i text).map f := by
  unfold visitsIn
  split
  · rfl
  · exact hf.visitsOf_eq _ _

theorem draftsIn_eq (hf : Translation f g g') (i : Nat) (text : String) :
    g'.draftsIn i text = (g.draftsIn i text).map (Draft.map f) := by
  unfold draftsIn
  split
  · rfl
  · rw [List.map_append, hf.draftsOf_eq, List.map_singleton, root, root, Draft.map, hf.originsOf_eq]

end Ground.Translation

/-! ### Numbers -/

/-- The number in `os'` of the variable that has the number `v` in `os`. -/
def translate (f : Origin → Origin) (os os' : List Origin) (v : VariableId) : VariableId :=
  .ofNat (renumber f os os' v.toNat)

section Numbers
variable {f : Origin → Origin} {os os' : List Origin} {o : Origin} {v : VariableId}

theorem getElem?_number (ho : o ∈ os) (hsize : os.length ≤ UInt32.size) :
    os[(number os o).toNat]? = some o := by
  have hlt := List.idxOf_lt_length_iff.mpr ho
  rw [number, VariableId.toNat_ofNat (by omega), List.getElem?_idxOf ho]

theorem number_of_getElem? (hnodup : os.Nodup) (hv : os[v.toNat]? = some o) : number os o = v := by
  obtain ⟨hlt, rfl⟩ := List.getElem?_eq_some_iff.mp hv
  rw [number, hnodup.idxOf_getElem _ hlt, VariableId.ofNat_toNat]

theorem number_inj (hsize : os.length ≤ UInt32.size) {o' : Origin} (ho : o ∈ os) (ho' : o' ∈ os) :
    number os o = number os o' ↔ o = o' := by
  refine ⟨fun h => ?_, congrArg _⟩
  have hplace := getElem?_number ho hsize
  rw [h, getElem?_number ho' hsize] at hplace
  exact (Option.some.inj hplace).symm

theorem translate_of_getElem? (hv : os[v.toNat]? = some o) :
    translate f os os' v = number os' (f o) := by
  rw [translate, renumber_of_getElem? hv, number]

theorem translate_number (ho : o ∈ os) (hsize : os.length ≤ UInt32.size) :
    translate f os os' (number os o) = number os' (f o) :=
  translate_of_getElem? (getElem?_number ho hsize)

end Numbers

/-! ### Stores -/

section
variable {σ : Type} [Store σ] [LawfulStore σ] {f : Origin → Origin} {g g' : Ground}
  {os os' refs : List Origin} {ds ds' : List Draft} {s t : σ} {v : VariableId}

namespace Store.Realises

theorem getElem?_vars (h : Store.Realises g s os ds) (i : Nat) :
    (Store.vars s)[i]? = os[i]?.bind g.content := by
  have heq := congrArg (fun l : List (Option Variable) => l[i]?) h.vars
  simp only [List.getElem?_map, Array.getElem?_toList] at heq
  cases hs : (Store.vars s)[i]? <;> cases ho : os[i]? <;> simp_all

theorem getElem?_constraints (h : Store.Realises g s os ds) (k : Nat) :
    (Store.constraints s)[k]? = ds[k]?.bind (g.build (number os)) := by
  have heq := congrArg (fun l : List (Option Constraint) => l[k]?) h.constraints
  simp only [List.getElem?_map, Array.getElem?_toList] at heq
  cases hs : (Store.constraints s)[k]? <;> cases hd : ds[k]? <;> simp_all

/-- A variable that there is has an origin. -/
theorem exists_origin (h : Store.Realises g s os ds) (hv : v.toNat < (Store.vars s).size) :
    ∃ o ∈ os, os[v.toNat]? = some o := by
  have hlt : v.toNat < os.length := h.length_origins ▸ hv
  exact ⟨os[v.toNat], List.getElem_mem hlt, List.getElem?_eq_getElem hlt⟩

/-- No more variables are given than there are. -/
theorem lt_of_given_mem (h : Store.Realises g s os ds) {i : Nat} (hi : .given i ∈ os) :
    i < g.vars.size := by
  obtain ⟨j, hj⟩ := List.mem_iff_getElem?.mp hi
  have hlt : j < (Store.vars s).size := h.length_origins ▸ (List.getElem?_eq_some_iff.mp hj).1
  have hcontent := h.getElem?_vars j
  rw [hj, Array.getElem?_eq_getElem hlt, Option.bind_some] at hcontent
  exact (Array.getElem?_eq_some_iff.mp hcontent.symm).1

end Store.Realises

/-- What is given keeps its place. -/
theorem getElem?_givens {i : Nat} (hgivens : g.givens <+: os) (hi : i < g.vars.size) :
    os[i]? = some (.given i) := by
  have hlt : i < g.givens.length := by simpa [Ground.givens] using hi
  obtain ⟨more, rfl⟩ := hgivens
  rw [List.getElem?_append_left hlt, List.getElem?_eq_getElem hlt]
  simp [Ground.givens]

namespace Ground.Translation

/-- A variable that was given has the same number. -/
theorem translate_given (hf : Translation f g g') (hos : g.givens <+: os) (hos' : g.givens <+: os')
    (hv : v.toNat < g.vars.size) : translate f os os' v = v := by
  rw [translate_of_getElem? (getElem?_givens hos hv), hf.given,
    number_of_kept hos' (mem_givens.mpr hv), number_given hv, VariableId.ofNat_toNat]

/-- The translated variable is the same one. -/
theorem getElem?_vars (hf : Translation f g g') (hs : Store.Realises g s os ds)
    (ht : Store.Realises g' t os' ds') (hmem : ∀ o ∈ os, f o ∈ os')
    (hsize : os'.length ≤ UInt32.size) (hv : v.toNat < (Store.vars s).size) :
    (Store.vars t)[(translate f os os' v).toNat]? = (Store.vars s)[v.toNat]? := by
  obtain ⟨o, ho, hplace⟩ := hs.exists_origin hv
  rw [translate_of_getElem? hplace, ht.getElem?_vars, hs.getElem?_vars,
    getElem?_number (hmem o ho) hsize, hplace, Option.bind_some, Option.bind_some, hf.content]

/-- The translated draft is the same constraint over the translated variables. -/
theorem build_map (hf : Translation f g g') {d : Draft} (hos : g.givens <+: os)
    (hos' : g.givens <+: os') (hsize : os.length ≤ UInt32.size) (hd : ∀ o ∈ d.mentions, o ∈ os)
    (hclosed : ∀ c ∈ g.constraints, ∀ v ∈ c.scope, v.toNat < g.vars.size) :
    g'.build (number os') (d.map f) = (g.build (number os) d).map (.rename (translate f os os')) := by
  have hoperands : ∀ origins : List Origin, (∀ o ∈ origins, o ∈ os) →
      (origins.map f).map (number os') = (origins.map (number os)).map (translate f os os') := by
    intro origins horigins
    rw [List.map_map, List.map_map]
    exact List.map_congr_left fun o ho => (translate_number (horigins o ho) hsize).symm
  cases d with
  | given k =>
    rw [Draft.map, build, build, hf.constraints]
    cases hc : g.constraints[k]? with
    | none => rfl
    | some c =>
      rw [Option.map_some, Constraint.rename_eq_self]
      exact fun v hv => hf.translate_given hos hos' (hclosed c (Array.mem_of_getElem? hc) v hv)
  | functional site operator parameters origins =>
    have hresult : translate f os os' (number os (.result site)) = number os' (.result site) := by
      rw [translate_number (hd _ List.mem_cons_self) hsize, hf.result]
    rw [Draft.map, build, build, Option.map_some, Constraint.rename, hresult,
      hoperands origins fun o ho => hd o (List.mem_cons_of_mem _ ho)]
  | general site operator parameters origins =>
    rw [Draft.map, build, build, Option.map_some, Constraint.rename, hoperands origins hd]

/-- A constraint of the translated draft is the same one, over the translated variables. -/
theorem getElem?_constraints (hf : Translation f g g') (hs : Store.Realises g s os ds)
    (ht : Store.Realises g' t os' ds') (hos : g.givens <+: os) (hos' : g.givens <+: os')
    (hsize : os.length ≤ UInt32.size)
    (hclosed : ∀ c ∈ g.constraints, ∀ v ∈ c.scope, v.toNat < g.vars.size) {j k : Nat}
    (hjk : ds'[j]? = ds[k]?.map (Draft.map f)) :
    (Store.constraints t)[j]? =
      (Store.constraints s)[k]?.map (.rename (translate f os os')) := by
  rw [ht.getElem?_constraints, hs.getElem?_constraints, hjk]
  cases hd : ds[k]? with
  | none => rfl
  | some d => exact hf.build_map hos hos' hsize (hs.mentions d (List.mem_of_getElem? hd)) hclosed

end Ground.Translation

end

end ConstraintNet
