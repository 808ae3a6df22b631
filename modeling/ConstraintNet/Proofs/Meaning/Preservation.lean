import ConstraintNet.Proofs.Compile.Simulation
import ConstraintNet.Proofs.Meaning.Lowering

/-! Compiling preserves meaning.

Whatever texts come into a network, and by whichever route, values for the names
make all compiled terms hold exactly if they extend to values for all variables
that solve the network, and then to only one (`Network.solves_build_iff`).

Every text leaves the network with an explanation (`Session.Complete`): one in
error changes nothing, any other adds its root. Either route is a series of such
steps in one session (`Network.extend_eq`). -/
namespace ConstraintNet
open Store (Grows)

section
variable {σ : Type} [Store σ] [LawfulStore σ]

/-- Between texts: an explanation, and all results defined. -/
structure Session.Complete (s : Session σ) (terms roots : List Term) : Prop where
  valid : LawfulStore.Valid s.store
  explained : s.Explained terms roots
  defined : DefinedFrom s.store 0

/-- A new session may go on where another ended, without its constants. -/
theorem Session.Complete.renew {s : Session σ} {terms roots : List Term} (h : s.Complete terms roots)
    (sharing : Sharing) :
    Session.Complete ({store := s.store, sharing} : Session σ) terms roots := by
  refine ⟨h.valid, ⟨h.explained.explains, ?_⟩, h.defined⟩
  intro value v hv
  simp at hv

/-! ### Texts -/

namespace Lowering

/-- The root of a term is posted over variables that stand for its operands. -/
theorem root_lowers (f : String) (ps : List Parameter) (ts : List Term) {l : Lowering σ}
    {terms roots : List Term} (hvalid : LawfulStore.Valid l.store) (h : l.Explained terms roots)
    (hsize : (Store.vars (root f ps ts l).2.store).size ≤ UInt32.size) :
    ∃ terms', Lowers l (root f ps ts l).2 terms terms'
      (roots ++ [Term.plain (.application f ps ts)]) ∧
      StandFor terms' (operands ts l).1 (Term.plainAll ts) := by
  have hbelow := operands_grows ts hvalid
  obtain ⟨hposts, _⟩ := LawfulStore.posts hbelow.valid (.general f ps (operands ts l).1)
  have hsize' : (Store.vars (operands ts l).2.store).size ≤ UInt32.size := by
    rw [← hposts.vars]
    exact hsize
  obtain ⟨terms', hlowers, hvs⟩ := operands_lowers ts hvalid h hsize'
  refine ⟨terms', ⟨hlowers.kept, ⟨?_, hlowers.explained.constants⟩, ?_⟩, hvs⟩
  · refine hlowers.explained.explains.posts hposts ?_ ?_ ?_
    · intro v hv
      cases hv
    · intro _
      exact ⟨_, List.mem_singleton.mpr rfl, Term.plainAll ts, rfl, hvs⟩
    · intro t ht
      obtain rfl := List.mem_singleton.mp ht
      exact ⟨rfl, Term.plainAll ts, rfl, hvs⟩
  · intro i hn hi
    obtain ⟨c, hc, hresult⟩ := hlowers.defined i hn (hposts.vars ▸ hi)
    exact ⟨c, hposts.constraints ▸ Array.mem_push_of_mem _ hc, hresult⟩

end Lowering

namespace Session

/-- The terms that have been compiled, in plain form, from texts and what became of
them. -/
def Compiled (outcomes : List (String × Except CompileError ConstraintId)) (t : Term) : Prop :=
  ∃ text c u, (text, .ok c) ∈ outcomes ∧ Term.parse text = .ok u ∧ t = u.plain

theorem compiled_cons (text : String) (outcome : Except CompileError ConstraintId)
    (outcomes : List (String × Except CompileError ConstraintId)) (t : Term) :
    Compiled ((text, outcome) :: outcomes) t ↔
      Compiled [(text, outcome)] t ∨ Compiled outcomes t := by
  simp only [Compiled, List.mem_cons, List.not_mem_nil, or_false]
  constructor
  · rintro ⟨text', c, u, h | h, hu⟩
    · exact .inl ⟨text', c, u, h, hu⟩
    · exact .inr ⟨text', c, u, h, hu⟩
  · rintro (⟨text', c, u, h, hu⟩ | ⟨text', c, u, h, hu⟩)
    · exact ⟨text', c, u, .inl h, hu⟩
    · exact ⟨text', c, u, .inr h, hu⟩

/-- The root of an application is posted over variables that stand for its operands, and the
explanation grows by what is new. -/
theorem Complete.root {s : Session σ} {terms roots : List Term} (h : s.Complete terms roots)
    (f : String) (ps : List Parameter) (ts : List Term)
    (hsize : (Store.vars (Lowering.root f ps ts {toSession := s}).2.store).size ≤ UInt32.size) :
    ∃ terms', terms <+: terms' ∧
      Session.Complete (Lowering.root f ps ts {toSession := s}).2.toSession terms'
        (roots ++ [Term.plain (.application f ps ts)]) ∧
      StandFor terms' (Lowering.operands ts {toSession := s}).1 (Term.plainAll ts) := by
  obtain ⟨terms', hlowers, hvs⟩ :=
    Lowering.root_lowers (l := {toSession := s}) f ps ts h.valid h.explained hsize
  have hgrows := Lowering.root_grows (l := {toSession := s}) f ps ts h.valid
  exact ⟨terms', hlowers.kept,
    ⟨hgrows.valid, hlowers.explained, h.defined.trans hgrows hlowers.defined⟩, hvs⟩

/-- One text more: the explanation grows by what is new, and the roots by the term
of the text if it is compiled. -/
theorem Complete.compile {s : Session σ} {terms roots : List Term} (h : s.Complete terms roots)
    (text : String) (hsize : (Store.vars (s.compile text).2.store).size ≤ UInt32.size) :
    ∃ terms' roots', (s.compile text).2.Complete terms' roots' ∧ terms <+: terms' ∧
      ∀ t, t ∈ roots' ↔ t ∈ roots ∨ Compiled [(text, (s.compile text).1)] t := by
  rcases s.compile_cases text with ⟨e, he⟩ | ⟨f, ps, ts, hparse, heq⟩
  · refine ⟨terms, roots, ?_, List.prefix_rfl, ?_⟩
    · rw [he]
      exact h
    · intro t
      rw [he]
      simp [Compiled]
  · rw [heq] at hsize
    obtain ⟨terms', hkept, hcomplete, _⟩ := h.root f ps ts hsize
    refine ⟨terms', roots ++ [Term.plain (.application f ps ts)], ?_, hkept, ?_⟩
    · rw [heq]
      exact hcomplete
    · intro t
      rw [heq, List.mem_append, List.mem_singleton]
      simp [Compiled, hparse]

theorem compileEach_grows (texts : List String) {s : Session σ} (h : LawfulStore.Valid s.store) :
    Grows s.store (compileEach texts s).2.store := by
  induction texts generalizing s with
  | nil => exact Grows.refl h
  | cons text texts ih =>
    have hfirst := compile_grows text h
    exact hfirst.trans (ih hfirst.valid)

/-- A session keeps its explanation through all its texts. -/
theorem Complete.compileEach {s : Session σ} {terms roots : List Term} (h : s.Complete terms roots)
    (texts : List String)
    (hsize : (Store.vars (compileEach texts s).2.store).size ≤ UInt32.size) :
    ∃ terms' roots', (compileEach texts s).2.Complete terms' roots' ∧
      ∀ t, t ∈ roots' ↔ t ∈ roots ∨ Compiled (texts.zip (compileEach texts s).1) t := by
  induction texts generalizing s terms roots with
  | nil => exact ⟨terms, roots, h, fun t => by simp [Compiled]⟩
  | cons text texts ih =>
    have hrest := compileEach_grows texts (compile_grows text h.valid).valid
    obtain ⟨terms₁, roots₁, h₁, _, hroots₁⟩ := h.compile text (Nat.le_trans hrest.size_vars_le hsize)
    obtain ⟨terms₂, roots₂, h₂, hroots₂⟩ := ih h₁ hsize
    refine ⟨terms₂, roots₂, h₂, ?_⟩
    intro t
    simp only [Session.compileEach, List.zip_cons_cons]
    rw [hroots₂, hroots₁, or_assoc, ← compiled_cons]

end Session

end

/-- A store that is empty has nothing to explain. -/
theorem Session.complete_empty {σ : Type} [Store σ] [BuildableStore σ] (sharing : Sharing) :
    Session.Complete ({store := BuildableStore.empty, sharing} : Session σ) [] [] := by
  have hnone : ∀ (i : Nat) x, (Store.vars (BuildableStore.empty : σ))[i]? ≠ some x := by
    intro i x hx
    rw [BuildableStore.vars_empty] at hx
    cases hx
  have hnothing : ∀ c, c ∉ Store.constraints (BuildableStore.empty : σ) := by
    intro c hc
    rw [BuildableStore.constraints_empty] at hc
    exact Array.not_mem_empty c hc
  refine ⟨BuildableStore.valid_empty, ⟨⟨?_, ?_, ?_, ?_, ?_⟩, ?_⟩, ?_⟩
  · exact (congrArg Array.size BuildableStore.vars_empty).symm
  · exact fun i x t hx => absurd hx (hnone i x)
  · exact fun c hc => absurd hc (hnothing c)
  · exact fun c hc => absurd hc (hnothing c)
  · intro t ht
    cases ht
  · intro value v hv
    simp at hv
  · exact fun i _ hi => absurd hi (hnone i _)

/-! ### Networks -/

namespace Network

/-- Either route ends with an explanation whose roots are the compiled terms. -/
theorem build_explained (route : Route) (texts : List String)
    (hsize : (build route texts).2.vars.size ≤ UInt32.size) :
    ∃ terms roots, Explains (build route texts).2 terms roots ∧ DefinedFrom (build route texts).2 0 ∧
      ∀ t, t ∈ roots ↔ Session.Compiled (texts.zip (build route texts).1) t := by
  rw [build, extend_eq] at hsize ⊢
  obtain ⟨terms, roots, h, hroots⟩ :=
    (Session.complete_empty (σ := Network) route.sharing).compileEach texts hsize
  exact ⟨terms, roots, h.explained.explains, h.defined,
    fun t => (hroots t).trans (or_iff_right List.not_mem_nil)⟩

/-- **Compiling preserves meaning, with a unique witness.** Values for the names
make every compiled term hold exactly if they extend to values that solve the
network; and values that solve it agree on all its variables. -/
theorem solves_build_iff {D : Type} (I : Interpretation D) (names : String → D) (route : Route)
    (texts : List String) (hsize : (build route texts).2.vars.size ≤ UInt32.size) :
    ((∀ text c t, (text, .ok c) ∈ texts.zip (build route texts).1 → Term.parse text = .ok t →
        t.Holds I names) ↔
      ∃ values, Store.Solves I (build route texts).2 names values) ∧
    ∀ values values', Store.Solves I (build route texts).2 names values →
      Store.Solves I (build route texts).2 names values' →
      ∀ v : VariableId, v.toNat < (build route texts).2.vars.size → values v = values' v := by
  obtain ⟨terms, roots, hexplains, hdefined, hroots⟩ := build_explained route texts hsize
  refine ⟨⟨?_, ?_⟩, ?_⟩
  · intro hholds
    refine ⟨valueOf I names terms, hexplains.solves I names ?_⟩
    intro t ht
    obtain ⟨text, c, u, hmem, hparse, rfl⟩ := (hroots t).mp ht
    exact (Term.holds_plain I names u).mpr (hholds text c u hmem hparse)
  · rintro ⟨values, hs⟩ text c t hmem hparse
    have hroot := hexplains.holds I names hdefined hs t.plain
      ((hroots _).mpr ⟨text, c, t, hmem, hparse, rfl⟩)
    exact (Term.holds_plain I names t).mp hroot
  · intro values values' hs hs' v hv
    have ht : StandsFor terms v _ := List.getElem?_eq_getElem (hexplains.length ▸ hv)
    rw [hexplains.value_eq I names hdefined hs _ v ht, hexplains.value_eq I names hdefined hs' _ v ht]

end Network

/-- Distances between numbers: `abs(sub(x,y))` and the like. -/
def Interpretation.distance : Interpretation Int where
  integer := id
  function operator _ values :=
    match operator, values with
    | "sub", [a, b] => a - b
    | "abs", [a] => a.natAbs
    | _, _ => 0
  relation operator _ values :=
    match operator, values with
    | "neq", [a, b] => a ≠ b
    | _, _ => True

/-- The distance of 1 and 5 is not 2, so there are values for the network. -/
theorem Network.solves_build_distance :
    (build (.session .perValue) ["neq(abs(sub(x,y)),2)", "neq(x", "neq(y,002)"]).2.vars.size ≤
        UInt32.size ∧
      ∃ values, Store.Solves .distance
        (build (.session .perValue) ["neq(abs(sub(x,y)),2)", "neq(x", "neq(y,002)"]).2
        (fun name => if name = "x" then 1 else 5) values := by
  have hsize : (build (.session .perValue)
      ["neq(abs(sub(x,y)),2)", "neq(x", "neq(y,002)"]).2.vars.size ≤ UInt32.size := by
    decide +kernel
  refine ⟨hsize, (solves_build_iff .distance _ _ _ hsize).1.mp ?_⟩
  intro text c t hmem hparse
  have htext := (List.of_mem_zip hmem).1
  simp only [List.mem_cons, List.not_mem_nil, or_false] at htext
  rcases htext with rfl | rfl | rfl
  · have h : Term.parse "neq(abs(sub(x,y)),2)" = .ok (.application "neq" [] [.application "abs" []
        [.application "sub" [] [.name "x", .name "y"]], .literal "2" 2]) := by decide +kernel
    rw [h] at hparse
    cases hparse
    show ((1 - 5 : Int).natAbs : Int) ≠ 2
    decide
  · have h : (Term.parse "neq(x").isOk = false := by decide +kernel
    rw [hparse] at h
    cases h
  · have h : Term.parse "neq(y,002)" = .ok (.application "neq" [] [.name "y", .literal "002" 2]) := by
      decide +kernel
    rw [h] at hparse
    cases hparse
    show (5 : Int) ≠ 2
    decide

end ConstraintNet
