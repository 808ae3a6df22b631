import ConstraintNet.Proofs.Meaning.Preservation
import ConstraintNet.Proofs.Shape.Layers

/-! Reading terms back.

A term that was compiled can be read back from the store (`Store.recoverAt`): in its
constraint every operand is replaced by its name, by its literal or, if it is a
result, by what the constraint that defines it says in turn (`Store.recover`).
Nothing else is known of the store, so it must have exactly one definition for each
result, and the search could go round in circles. In a store that operations built
up neither goes wrong. Each variable is read back as the term that explains it, as
many levels down as that term is deep (`Store.recover_of_standsFor`), and so the
term of a text comes back, but for the spelling of its literals, whatever else
happens before and after (`Session.recoverAt_compile`). -/
namespace ConstraintNet
open Store (Grows Accounted)

/-! ### Reading -/

/-- The term that a constraint states: its operator over what its operands are read as. -/
def Constraint.recover (read : VariableId → Option Term) (c : Constraint) : Option Term := do
  let terms ← c.operands.mapM read
  some (.application c.operator c.parameters terms)

namespace Store
variable {σ : Type} [Store σ]

/-- The constraints that a variable is the result of. -/
def definitions (s : σ) (v : VariableId) : List Constraint :=
  (constraints s).toList.filter fun c => c.result? = some v

/-- The constraint that defines a variable, if there is just one. -/
def definition? (s : σ) (v : VariableId) : Option Constraint :=
  match definitions s v with
  | [c] => some c
  | _ => none

/-- The term that a variable stands for. There is none if the variable or its one
definition is missing, or if the definitions do not come to an end in `depth` levels. -/
def recover (s : σ) : Nat → VariableId → Option Term
  | 0, _ => none
  | depth + 1, v => do
    match ← (vars s)[v.toNat]? with
    | .named name => some (.name name)
    | .constant value => some (.integer value)
    | .auxiliary => (← definition? s v).recover (recover s depth)

/-- The term that stands at a constraint, within `depth` levels. -/
def recoverAt (s : σ) : Nat → ConstraintId → Option Term
  | 0, _ => none
  | depth + 1, k => do (← (constraints s)[k.toNat]?).recover (recover s depth)

/-! ### Reading is explaining -/

theorem count_results (s : σ) (v : VariableId) :
    (results s).count v = (definitions s v).length := by
  unfold results definitions
  induction (constraints s).toList with
  | nil => rfl
  | cons c cs ih =>
    rw [List.flatMap_cons, List.count_append, ih, List.filter_cons]
    cases c.result? with
    | none => simp
    | some w =>
      by_cases hw : w = v
      · simp [hw, Nat.add_comm]
      · simp [hw]

variable {s : σ} {terms roots : List Term} {lone : VariableId → Prop}

/-- A result has the one definition. -/
theorem Accounted.definition?_eq (h : Accounted s [] [] lone) {c : Constraint} {v : VariableId}
    (hc : c ∈ constraints s) (hresult : c.result? = some v) : definition? s v = some c := by
  have hmem : c ∈ definitions s v :=
    List.mem_filter.mpr ⟨Array.mem_toList_iff.mpr hc, decide_eq_true hresult⟩
  have hv : v ∈ results s :=
    List.mem_flatMap.mpr ⟨c, Array.mem_toList_iff.mpr hc, Option.mem_toList.mpr hresult⟩
  have hcount := h.defined v (h.result v (List.mem_append_left _ hv))
  rw [List.append_nil, count_results] at hcount
  obtain ⟨d, hd⟩ := List.length_eq_one_iff.mp hcount
  rw [hd, List.mem_singleton] at hmem
  rw [definition?, hd, hmem]

section Reading
variable {read : VariableId → Option Term} {depth : Nat}

theorem mapM_of_standFor
    (hread : ∀ (t : Term) v, t.depth ≤ depth → StandsFor terms v t → read v = some t)
    {vs : List VariableId} {ts : List Term} (hvs : StandFor terms vs ts)
    (hdepth : Term.deepest ts ≤ depth) : vs.mapM read = some ts := by
  induction vs generalizing ts with
  | nil =>
    cases ts with
    | nil => rfl
    | cons t ts => cases hvs
  | cons v vs ih =>
    cases ts with
    | nil => cases hvs
    | cons t ts =>
      obtain ⟨hfirst, hrest⟩ := standFor_cons.mp hvs
      obtain ⟨ht, hts⟩ := Nat.max_le.mp hdepth
      rw [List.mapM_cons, hread t v ht hfirst, ih hrest hts]
      rfl

/-- A constraint is read back as what it states, if variables are read back. -/
theorem recover_of_states
    (hread : ∀ (t : Term) v, t.depth ≤ depth → StandsFor terms v t → read v = some t)
    {c : Constraint} {t : Term} (ht : c.States terms t) (hdepth : t.depth ≤ depth + 1) :
    c.recover read = some t := by
  obtain ⟨ts, rfl, hvs⟩ := ht
  have hdeepest : Term.deepest ts ≤ depth := by
    rw [Term.depth] at hdepth
    omega
  rw [Constraint.recover, mapM_of_standFor hread hvs hdeepest]
  rfl

end Reading

/-- A variable is read back as the term that explains it. -/
theorem recover_of_standsFor (h : Explains s terms roots) (hdef : DefinedFrom s 0)
    (haccounted : Accounted s [] [] lone) (depth : Nat) :
    ∀ (t : Term) v, t.depth ≤ depth → StandsFor terms v t → recover s depth v = some t := by
  induction depth with
  | zero => exact fun t _ hdepth _ => absurd hdepth (Nat.not_le.mpr t.depth_pos)
  | succ depth ih =>
    intro t v hdepth hv
    rcases h.origin hdef hv with ⟨_, hx, rfl⟩ | ⟨_, hx, rfl⟩ | ⟨c, hc, hresult, ht⟩
    · rw [recover, hx]
      rfl
    · rw [recover, hx]
      rfl
    · have hmem : v ∈ results s :=
        List.mem_flatMap.mpr ⟨c, Array.mem_toList_iff.mpr hc, Option.mem_toList.mpr hresult⟩
      have hx := haccounted.result v (List.mem_append_left _ hmem)
      rw [recover, hx, haccounted.definition?_eq hc hresult]
      exact recover_of_states ih ht hdepth

/-- What a constraint states is read back from it. -/
theorem recoverAt_of_states (h : Explains s terms roots) (hdef : DefinedFrom s 0)
    (haccounted : Accounted s [] [] lone) {k : ConstraintId} {c : Constraint} {t : Term}
    (hc : (constraints s)[k.toNat]? = some c) (ht : c.States terms t) {depth : Nat}
    (hdepth : t.depth ≤ depth) : recoverAt s depth k = some t := by
  cases depth with
  | zero => exact absurd hdepth (Nat.not_le.mpr t.depth_pos)
  | succ depth =>
    rw [recoverAt, hc]
    exact recover_of_states (recover_of_standsFor h hdef haccounted depth) ht hdepth

end Store

/-! ### What stays explained -/

section
variable {σ : Type} [Store σ] [LawfulStore σ] {terms : List Term}

/-- The session has an explanation that goes on from this one. -/
def Session.Continues (terms : List Term) (s : Session σ) : Prop :=
  ∃ terms' roots, terms <+: terms' ∧ s.Complete terms' roots

namespace Session

theorem Continues.compile {s : Session σ} (h : s.Continues terms) (text : String)
    (hsize : (Store.vars (s.compile text).2.store).size ≤ UInt32.size) :
    (s.compile text).2.Continues terms := by
  obtain ⟨terms₁, roots₁, hkept, hcomplete⟩ := h
  obtain ⟨terms₂, roots₂, hcomplete', hkept', _⟩ := hcomplete.compile text hsize
  exact ⟨terms₂, roots₂, hkept.trans hkept', hcomplete'⟩

theorem Continues.serve (requests : List Request) {s : Session σ}
    (hvalid : LawfulStore.Valid s.store) (h : s.Continues terms)
    (hsize : (Store.vars (s.serve requests).2.store).size ≤ UInt32.size) :
    (s.serve requests).2.Continues terms := by
  have hkept : Kept fun s : Session σ => s.Continues terms :=
    fun _ text _ hsize h => h.compile text hsize
  exact serve_keeps hkept requests hvalid hsize h

theorem Continues.renew {s : Session σ} (h : s.Continues terms) (sharing : Sharing) :
    Session.Continues terms ({store := s.store, sharing} : Session σ) := by
  obtain ⟨terms', roots, hkept, hcomplete⟩ := h
  exact ⟨terms', roots, hkept, hcomplete.renew sharing⟩

/-- A name that is interned explains itself. -/
theorem Continues.intern {s : Session σ} (h : s.Continues terms) (name : String) :
    Session.Continues terms ({store := (Store.intern s.store name).store} : Session σ) := by
  obtain ⟨terms', roots, hkept, hcomplete⟩ := h
  cases hfind : Store.find? s.store name with
  | some v =>
    rw [(LawfulStore.intern_found hcomplete.valid hfind).2]
    exact ⟨terms', roots, hkept, hcomplete.renew .perOccurrence⟩
  | none =>
    obtain ⟨hadds, hvalid⟩ := LawfulStore.intern_new hcomplete.valid hfind
    refine ⟨terms' ++ [.name name], roots, hkept.trans (List.prefix_append ..), hvalid, ?_, ?_⟩
    · refine ⟨hcomplete.explained.explains.adds hadds rfl, ?_⟩
      intro value v hv
      simp at hv
    · exact hcomplete.defined.trans (hadds.grows hvalid) (hadds.definedFrom Variable.noConfusion)

end Session

/-- Whatever is operated, the explanation goes on. -/
theorem Store.operateAll_continues (operations : List Operation) {s : σ}
    (hvalid : LawfulStore.Valid s) (h : Session.Continues terms {store := s})
    (hsize : (Store.vars (Store.operateAll s operations)).size ≤ UInt32.size) :
    Session.Continues terms ({store := Store.operateAll s operations} : Session σ) := by
  refine operateAll_keeps (P := fun s : σ => Session.Continues terms {store := s}) ?_ operations
    hvalid hsize h
  intro t o ht hsize h
  cases o with
  | intern name => exact h.intern name
  | post text => exact (h.compile text hsize).renew .perOccurrence
  | session sharing requests =>
    exact (Session.Continues.serve requests ht (h.renew sharing) hsize).renew .perOccurrence

end

/-! ### The way back -/

namespace Session
variable {σ : Type} [Store σ] [BuildableStore σ]

/-- A session that has answered some requests, in a store that operations built up. -/
def underway (σ : Type) [Store σ] [BuildableStore σ] (operations : List Operation)
    (sharing : Sharing) (requests : List Request) : Session σ :=
  (serve requests {store := Store.operateAll BuildableStore.empty operations, sharing}).2

/-- The store that a session leaves is built up by operations, the session the last. -/
theorem operateAll_underway (operations more : List Operation) (sharing : Sharing)
    (requests later : List Request) (text : String) :
    Store.operateAll (((underway σ operations sharing requests).compile text).2.serve later).2.store
        more =
      Store.operateAll BuildableStore.empty
        (operations ++ .session sharing (requests ++ .compile text :: later) :: more) := by
  rw [List.append_cons, Store.operateAll_append, Store.operateAll_append]
  show _ = Store.operateAll (Session.serve (requests ++ .compile text :: later)
    {store := Store.operateAll BuildableStore.empty operations, sharing}).2.store more
  rw [serve_append]
  rfl

theorem underway_valid (operations : List Operation) (sharing : Sharing) (requests : List Request) :
    LawfulStore.Valid (underway σ operations sharing requests).store :=
  (serve_grows requests (Store.operateAll_grows operations BuildableStore.valid_empty).valid).valid

theorem underway_continues (operations : List Operation) (sharing : Sharing)
    (requests : List Request)
    (hsize : (Store.vars (underway σ operations sharing requests).store).size ≤ UInt32.size) :
    (underway σ operations sharing requests).Continues [] := by
  have hvalid := (Store.operateAll_grows operations (BuildableStore.valid_empty (σ := σ))).valid
  have hserve := serve_grows (σ := σ) requests
    (s := {store := Store.operateAll _ operations, sharing}) hvalid
  have hbefore := Store.operateAll_continues operations (BuildableStore.valid_empty (σ := σ))
    ⟨[], [], List.prefix_rfl, complete_empty .perOccurrence⟩ (Nat.le_trans hserve.size_vars_le hsize)
  exact (hbefore.renew sharing).serve requests hvalid hsize

/-- The root of an application is found under its number, over variables that stand
for its operands. -/
theorem Complete.compile_application {s : Session σ} {terms roots : List Term}
    (h : s.Complete terms roots) {text f : String} {ps : List Parameter} {ts : List Term}
    (hparse : Term.parse text = .ok (.application f ps ts))
    (hsize : (Store.vars (s.compile text).2.store).size ≤ UInt32.size) :
    ∃ n vs terms', (s.compile text).1 = .ok (.ofNat n) ∧
      (Store.constraints (s.compile text).2.store)[n]? = some (.general f ps vs) ∧
      StandFor terms' vs (Term.plainAll ts) ∧ (s.compile text).2.Continues terms' := by
  have hcompile : s.compile text = (.ok (Lowering.root f ps ts {toSession := s}).1,
      (Lowering.root f ps ts {toSession := s}).2.toSession) := by
    rw [Session.compile, hparse]
  rw [hcompile] at hsize ⊢
  have hbelow := Lowering.operands_grows (l := {toSession := s}) ts h.valid
  obtain ⟨hposts, _⟩ := LawfulStore.posts hbelow.valid
    (.general f ps (Lowering.operands ts {toSession := s}).1)
  obtain ⟨terms', _, hcomplete, hvs⟩ := h.root f ps ts hsize
  refine ⟨_, _, terms', congrArg Except.ok hposts.id, ?_, hvs, terms', _, List.prefix_rfl, hcomplete⟩
  show (Store.constraints (Store.addConstraint _ _).store)[_]? = _
  rw [hposts.constraints, Array.getElem?_push_size]

/-- **Compiling loses nothing.** Whatever was done before, in the same session or in
others, and whatever is done later, the term of a text can be read back from its
constraint, but for the spelling of its literals. The reading comes to its end as
many levels down as the term is deep. -/
theorem recoverAt_compile (operations : List Operation) (sharing : Sharing)
    (requests later : List Request) (more : List Operation) (text : String) {t : Term}
    (hparse : Term.parse text = .ok t) (hleaf : t.isLeaf = false)
    (hvars : (Store.vars (Store.operateAll
      (((underway σ operations sharing requests).compile text).2.serve later).2.store more)).size ≤
        UInt32.size)
    (hconstraints : (Store.constraints (Store.operateAll
      (((underway σ operations sharing requests).compile text).2.serve later).2.store more)).size ≤
        UInt32.size) :
    ∃ k, ((underway σ operations sharing requests).compile text).1 = .ok k ∧
      ∀ depth, t.depth ≤ depth → Store.recoverAt (Store.operateAll
        (((underway σ operations sharing requests).compile text).2.serve later).2.store more)
          depth k = some t.plain := by
  obtain ⟨f, ps, ts, rfl⟩ := t.isLeaf_eq_false_iff.mp hleaf
  have haccounted := Store.operateAll_empty_accounted (σ := σ)
    (operations ++ .session sharing (requests ++ .compile text :: later) :: more)
    (by rwa [← operateAll_underway])
  rw [← operateAll_underway] at haccounted
  have hvalid := underway_valid (σ := σ) operations sharing requests
  have hcompile := compile_grows text hvalid
  have hserve := serve_grows later hcompile.valid
  have hrest := hserve.trans (Store.operateAll_grows more hserve.valid)
  have hcontinues := underway_continues operations sharing requests
    (Nat.le_trans (hcompile.trans hrest).size_vars_le hvars)
  obtain ⟨terms, roots, _, hcomplete⟩ := hcontinues
  obtain ⟨n, vs, terms', hid, hn, hvs, hcontinues'⟩ :=
    hcomplete.compile_application hparse (Nat.le_trans hrest.size_vars_le hvars)
  have hserved := hcontinues'.serve later hcompile.valid
    (Nat.le_trans (Store.operateAll_grows more hserve.valid).size_vars_le hvars)
  obtain ⟨terms'', roots'', hkept, hfinal⟩ :=
    Store.operateAll_continues more hserve.valid (hserved.renew .perOccurrence) hvars
  refine ⟨_, hid, fun depth hdepth => ?_⟩
  have hn' : (Store.constraints _)[n]? = some (.general f ps vs) := hrest.getElem?_constraints hn
  have hplain : (Term.application f ps ts).plain.depth ≤ depth := by rwa [Term.depth_plain]
  refine Store.recoverAt_of_states (c := .general f ps vs) hfinal.explained.explains hfinal.defined
    haccounted ?_ ⟨Term.plainAll ts, rfl, hvs.mono hkept⟩ hplain
  rwa [Store.toNat_ofNat_of_getElem? hconstraints hn']

/-- What was compiled with the literal `002` comes back with the literal `2`, between
a name that was there before and a constant that is shared. -/
theorem recoverAt_compile_distance :
    ∃ k, ((underway Network [.intern "y"] .perValue [.compile "neq(x,2)"]).compile
        "neq(abs(sub(x,y)),002)").1 = .ok k ∧
      ∀ depth, 4 ≤ depth → Store.recoverAt (Store.operateAll (((underway Network [.intern "y"]
        .perValue [.compile "neq(x,2)"]).compile "neq(abs(sub(x,y)),002)").2.serve
          [.compile "neq(y"]).2.store [.post "eq(sub(x,y),2)"]) depth k =
        some (.application "neq" [] [.application "abs" []
          [.application "sub" [] [.name "x", .name "y"]], .integer 2]) :=
  recoverAt_compile [.intern "y"] .perValue [.compile "neq(x,2)"] [.compile "neq(y"]
    [.post "eq(sub(x,y),2)"] "neq(abs(sub(x,y)),002)"
    (t := .application "neq" [] [.application "abs" []
      [.application "sub" [] [.name "x", .name "y"]], .literal "002" 2])
    (by decide +kernel) rfl (by decide +kernel) (by decide +kernel)

end Session

end ConstraintNet
