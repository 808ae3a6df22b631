import ConstraintNet.Proofs.Compile.Failures
import ConstraintNet.Proofs.Layout.Additions
import ConstraintNet.Proofs.Layout.Merging
import ConstraintNet.Proofs.Layout.Order

/-! What a text adds.

The subterms of a text below its root stand in a row, and the variables that the text
adds are those that are added for the row. Its constraints are those of its
applications, each after those in its operands, and the root is the last one
(`Term.constraints`). `Session.Lays` says that this is all, in order, and which
variables the constraints are over.

It holds of whatever text a session compiles, in any state that it can be in
(`Store.hold_compile_lays`). For that state is one in which other texts have been laid
out, and the next one is laid out on top of them (`Session.Realises.lays`). -/
namespace ConstraintNet

namespace Term

/-- The constraint of an application below the root, when each place has a number. -/
def constraintAt (numberAt : Nat → VariableId) (a : Term × Nat) : Constraint :=
  .functional (numberAt a.2) a.1.text a.1.parameters
    ((placesOf a.1.operands (a.2 + 1)).map numberAt)

/-- The constraints of a term, when each place below its root has a number. -/
def constraints (numberAt : Nat → VariableId) (t : Term) : List Constraint :=
  (applicationsOf t.operands 0).map (constraintAt numberAt) ++
    [.general t.text t.parameters ((placesOf t.operands 0).map numberAt)]

end Term

/-- The session `s'` is what the term `t` makes of `s`. -/
structure Session.Lays {σ : Type} [Store σ] (s : Session σ) (t : Term) (s' : Session σ) : Prop where
  vars : (Store.vars s'.store).toList = (Store.vars s.store).toList ++ s.additions [] t.row
  constraints : (Store.constraints s'.store).toList =
    (Store.constraints s.store).toList ++ t.constraints (s.numberAt t.row)
  /-- The constraints below the root are those of the applications, one for each. -/
  applications : (Term.applicationsOf t.operands 0).Perm (t.row.zipIdx.filter fun a => !a.1.isLeaf)
  /-- The places of operands are those at which they stand. -/
  operands : ∀ a ∈ Term.applicationsOf t.operands 0,
    (Term.placesOf a.1.operands (a.2 + 1)).map (t.row[·]?) = a.1.operands.map some
  rootOperands : (Term.placesOf t.operands 0).map (t.row[·]?) = t.operands.map some
  /-- A name has the first variable with that name. -/
  names : ∀ p x, t.row[p]? = some (.name x) →
    firstNamed (Store.vars s'.store) x = some (s.numberAt t.row p)
  /-- A literal has a constant with its value. -/
  literals : ∀ p text value, t.row[p]? = some (.literal text value) →
    (Store.vars s'.store)[(s.numberAt t.row p).toNat]? = some (.constant value)
  /-- An application has an auxiliary variable. -/
  results : ∀ p f ps ts, t.row[p]? = some (.application f ps ts) →
    (Store.vars s'.store)[(s.numberAt t.row p).toNat]? = some .auxiliary
  /-- If a variable is added for a place, the place has it. -/
  added : ∀ p u x, t.row[p]? = some u → s.added? (t.row.take p) u = some x →
    (s.numberAt t.row p).toNat =
      (Store.vars s.store).size + (s.additions [] (t.row.take p)).length

/-! ### Terms laid out -/

namespace Ground
variable {g : Ground} {t : Term} {i : Nat}

/-- The drafts of a term are its constraints, if each place has the number of its origin. -/
theorem map_build_root {numbers : Origin → VariableId} {numberAt : Nat → VariableId}
    (hnumbers : ∀ p u, t.row[p]? = some u → numbers (g.origin (Site.shift ⟨i, 1⟩ p) u) = numberAt p) :
    (g.draftsOf ⟨i, 1⟩ t.operands ++ [g.root i t]).map (g.build numbers) =
      (t.constraints numberAt).map some := by
  have hstand := Term.standAt_self t.row
  have hdrafts : g.draftsOf ⟨i, 1⟩ t.operands =
      (Term.applicationsOf t.operands 0).map (g.draftAt ⟨i, 1⟩) := draftsOf_eq ⟨i, 1⟩ t.operands 0
  have hroot : (g.originsOf ⟨i, 1⟩ t.operands).map numbers =
      (Term.placesOf t.operands 0).map numberAt := map_originsOf hnumbers t.operands hstand
  have hbuild : ∀ a ∈ Term.applicationsOf t.operands 0,
      g.build numbers (g.draftAt ⟨i, 1⟩ a) = some (Term.constraintAt numberAt a) := by
    intro a ha
    obtain ⟨hleaf, hplace⟩ := Term.standAt_of_mem_applicationsOf t.operands hstand ha
    rw [Term.subterms_eq] at hplace
    have hresult : numbers (.result (Site.shift ⟨i, 1⟩ a.2)) = numberAt a.2 := by
      rw [← hnumbers a.2 a.1 hplace.head]
      obtain ⟨f, ps, ts, happ⟩ := (Term.isLeaf_eq_false_iff a.1).mp hleaf
      rw [happ]
      rfl
    rw [draftAt, build, Term.constraintAt, hresult, map_originsOf hnumbers _ hplace.tail]
  rw [hdrafts, Term.constraints, List.map_append, List.map_append, List.map_map, List.map_map,
    List.map_singleton, List.map_singleton, root, build, hroot]
  exact congrArg (· ++ _) (List.map_congr_left hbuild)

end Ground

namespace Session.Realises
variable {σ : Type} [Store σ] [LawfulStore σ] {s : Session σ} {g : Ground} {os : List Origin}
  {ds : List Draft} {i : Nat} {text : String} {t : Term}

/-- A text that states an application is laid out as its row and its constraints. -/
theorem compile_row (h : s.Realises g os ds) (hi : NewText i os ds) (ht : stated text = .ok t) :
    (s.compile text).2.Realises g (gather os (g.originsIn ⟨i, 1⟩ t.row))
      (ds ++ (g.draftsOf ⟨i, 1⟩ t.operands ++ [g.root i t])) := by
  obtain ⟨h', -⟩ := h.compile hi text
  rw [Ground.visitsIn, Ground.draftsIn, ht] at h'
  dsimp only at h'
  rwa [Ground.visitsOf_eq] at h'

/-- A new text adds the constraints of its term. -/
theorem toList_constraints (h : s.Realises g os ds) (hi : NewText i os ds)
    (ht : stated text = .ok t) :
    (Store.constraints (s.compile text).2.store).toList =
      (Store.constraints s.store).toList ++ t.constraints (s.numberAt t.row) := by
  refine (List.map_inj_right fun _ _ => Option.some.inj).mp ?_
  rw [(h.compile_row hi ht).store.constraints, List.map_append,
    h.store.map_build_of_kept (prefix_gather ..),
    Ground.map_build_root fun p u hu => h.number_eq (hi.ahead 1) hu, List.map_append]

/-- A new text adds what its term lays down. -/
theorem lays (h : s.Realises g os ds) (hi : NewText i os ds) (ht : stated text = .ok t)
    (hconstants : ∀ value, g.constants value = none)
    (hsize : (Store.vars (s.compile text).2.store).size ≤ UInt32.size) :
    s.Lays t (s.compile text).2 := by
  have hb := hi.ahead 1
  have hstand := Term.standAt_self t.row
  have h' := h.compile_row hi ht
  have hconstraints := h.toList_constraints hi ht
  generalize (s.compile text).2 = s' at h' hsize hconstraints ⊢
  have hvars := h.toList_vars hb h'.store
  refine ⟨hvars, hconstraints, Term.perm_applicationsOf t.operands 0, ?operands,
    Term.map_placesOf t.operands hstand, ?names, ?literals, ?results, ?added⟩
  case operands =>
    intro a ha
    obtain ⟨_, hplace⟩ := Term.standAt_of_mem_applicationsOf t.operands hstand ha
    rw [Term.subterms_eq] at hplace
    exact Term.map_placesOf a.1.operands hplace.tail
  case names =>
    intro p x hx
    rw [← LawfulStore.find?_eq h'.store.valid]
    exact h.find?_numberAt hb h'.store hx
  case literals =>
    intro p text value hvalue
    rw [h.getElem?_numberAt hb h'.store hsize hvalue, Ground.origin]
    cases hg : g.sharing with
    | perOccurrence => rw [Ground.constant_perOccurrence hg, Ground.content]
    | perValue =>
      rw [Ground.constant_perValue hg, Ground.shared_of_none (hconstants value), Ground.content]
  case results => exact fun p f ps ts hp => h.getElem?_numberAt hb h'.store hsize hp
  case added =>
    intro p u x hu hx
    have hlength := congrArg List.length hvars
    have hlt := s.length_additions_take_lt hu hx
    rw [Array.length_toList, List.length_append, Array.length_toList] at hlength
    rw [s.numberAt_of_added hu hx, VariableId.toNat_ofNat (by omega)]

end Session.Realises

/-! ### Sessions -/

/-- One of the texts has a literal with this value below its root. -/
def Mentions (texts : List String) (value : Int64) : Prop :=
  ∃ text ∈ texts, ∃ t, stated text = .ok t ∧ ∃ u ∈ t.row, u.value? = some value

namespace Ground
variable {g : Ground} {b : Site} {value : Int64}

theorem origin_eq_constant_iff (hg : g.sharing = .perValue) (hvalue : g.constants value = none)
    (t : Term) : g.origin b t = .constant none value ↔ t.value? = some value := by
  cases t with
  | name x => simp [origin, name_ne_constant, Term.value?]
  | literal text other =>
    rw [origin, constant_perValue hg, shared_eq_constant_iff, Term.value?, Option.some.injEq]
    exact and_iff_right_of_imp fun heq => heq ▸ hvalue
  | application f ps ts => simp [origin, Term.value?]

theorem constant_mem_visitsIn_iff (hg : g.sharing = .perValue) (hvalue : g.constants value = none)
    (i : Nat) (text : String) : .constant none value ∈ g.visitsIn i text ↔
      ∃ t, stated text = .ok t ∧ ∃ u ∈ t.row, u.value? = some value := by
  unfold visitsIn
  cases stated text with
  | error e => simp
  | ok t =>
    have hmem : .constant none value ∈ g.visitsOf ⟨i, 1⟩ t.operands ↔
        ∃ u ∈ t.row, u.value? = some value := by
      rw [visitsOf_eq, originsIn, List.mem_mapIdx]
      constructor
      · rintro ⟨p, hp, heq⟩
        exact ⟨_, List.getElem_mem hp, (origin_eq_constant_iff hg hvalue _).mp heq⟩
      · rintro ⟨u, hu, heq⟩
        obtain ⟨p, hp, rfl⟩ := List.getElem_of_mem hu
        exact ⟨p, hp, (origin_eq_constant_iff hg hvalue _).mpr heq⟩
    simp [hmem]

end Ground

section
variable {σ : Type} [Store σ]

/-- A session in which literals share constants has one for each value that it has met. -/
theorem Session.Realises.constants_eq_none_iff [LawfulStore σ] {s : Session σ} {g : Ground}
    {texts : List (Nat × String)} {ds : List Draft} {value : Int64}
    (h : s.Realises g (gather g.givens (g.visitsInAll texts)) ds) (hg : g.sharing = .perValue)
    (hvalue : g.constants value = none) :
    s.constants[value]? = none ↔ ¬Mentions (texts.map Prod.snd) value := by
  have hgivens : Origin.constant none value ∉ g.givens := by simp [Ground.givens]
  rw [h.constants hg, Ground.shared_of_none hvalue, numberOf?_eq_none_iff, mem_gather,
    or_iff_right hgivens, Ground.visitsInAll, List.mem_flatMap]
  simp only [Ground.constant_mem_visitsIn_iff hg hvalue, Mentions, List.mem_map,
    exists_exists_and_eq_and]

/-- Whatever a session was asked for, the texts are laid out, and there is a next one. -/
theorem Store.hold_realises [BuildableStore σ] {s₀ : σ} (hreachable : Store.Reachable s₀)
    (sharing : Sharing) (requests : List Request) :
    ∃ (texts : List (Nat × String)) (ds : List Draft) (i : Nat),
      texts.map Prod.snd = requests.flatMap Request.compiled ∧
      (Store.hold s₀ sharing requests).2.Realises (Store.ground s₀ sharing)
        (gather (Store.ground s₀ sharing).givens ((Store.ground s₀ sharing).visitsInAll texts)) ds ∧
      NewText i
        (gather (Store.ground s₀ sharing).givens ((Store.ground s₀ sharing).visitsInAll texts)) ds := by
  -- The first number is that of the next text, whatever it will be.
  obtain ⟨numbered, _, _, hnodup, htexts, _⟩ :=
    exists_numbered (.refl ("" :: requests.flatMap Request.compiled))
  obtain ⟨x, texts, rfl, -, htexts⟩ := List.map_eq_cons_iff.mp htexts
  obtain ⟨hx, hnodup⟩ := List.nodup_cons.mp hnodup
  have hstart := Store.realises_ground hreachable.valid sharing
  obtain ⟨h, -⟩ := hstart.compileEach texts hnodup fun i _ => newText_ground _ i
  rw [htexts, ← Session.serve_eq_compileEach] at h
  have hfirst := newText_ground (Store.ground s₀ sharing) x.1
  exact ⟨texts, _, x.1, htexts, h, hfirst.compileEach texts hx⟩

/-- **What a text adds.** Whatever a session was asked for before, a text that states an
application is compiled, and the session is laid out as the term of the text says. The
constants that literals share are those of the values met so far. -/
theorem Store.hold_compile_lays [BuildableStore σ] {s₀ : σ} (hreachable : Store.Reachable s₀)
    (sharing : Sharing) (requests : List Request) {s : Session σ}
    (hs : (Store.hold s₀ sharing requests).2 = s) {text : String} {t : Term}
    (hparse : Term.parse text = .ok t) (hleaf : t.isLeaf = false)
    (hvars : (Store.vars (s.compile text).2.store).size ≤ UInt32.size)
    (hconstraints : (Store.constraints (s.compile text).2.store).size ≤ UInt32.size) :
    (∃ k, (s.compile text).1 = .ok k ∧
      k.toNat + 1 = (Store.constraints (s.compile text).2.store).size) ∧
    s.Lays t (s.compile text).2 ∧
    (sharing = .perValue → ∀ value,
      s.constants[value]? = none ↔ ¬Mentions (requests.flatMap Request.compiled) value) := by
  have ht : stated text = .ok t := by
    obtain ⟨f, ps, ts, rfl⟩ := (Term.isLeaf_eq_false_iff t).mp hleaf
    rw [stated, hparse]
  have hnone := Ground.constants_ground s₀ sharing
  obtain ⟨texts, ds, i, htexts, h, hi⟩ := Store.hold_realises hreachable sharing requests
  rw [hs] at h
  refine ⟨?_, h.lays hi ht hnone hvars, ?_⟩
  · obtain ⟨h', houtcome⟩ := h.compile hi text
    rw [hi.outcome_eq, ht] at houtcome
    refine ⟨_, houtcome, ?_⟩
    have hlength := h'.store.length_drafts
    rw [Ground.draftsIn, ht, ← List.append_assoc, List.length_append, List.length_singleton] at hlength
    rw [ConstraintId.toNat_ofNat (by omega), hlength]
  · rintro rfl value
    rw [← htexts]
    exact h.constants_eq_none_iff rfl (hnone value)

end

/-- "neq(abs(sub(x,z)),002)", once "lt(x,2)" has been compiled: the `x` and the `2` are there, so
only two results and the `z` are added. -/
theorem Store.hold_compile_lays_difference :
    ∃ s t, (Store.hold Network.equation .perValue [.compile "lt(x,2)", .compile "neq(x"]).2 = s ∧
      Term.parse "neq(abs(sub(x,z)),002)" = .ok t ∧ t.isLeaf = false ∧
      Session.Lays s t (s.compile "neq(abs(sub(x,z)),002)").2 ∧
      s.additions [] t.row = [.auxiliary, .auxiliary, .named "z"] ∧
      t.constraints (s.numberAt t.row) =
        [.functional (.ofNat 4) "sub" [] [.ofNat 0, .ofNat 5],
          .functional (.ofNat 3) "abs" [] [.ofNat 4], .general "neq" [] [.ofNat 3, .ofNat 2]] := by
  have hreachable : Store.Reachable Network.equation := ⟨_, rfl⟩
  have hparse : Term.parse "neq(abs(sub(x,z)),002)" =
      .ok (.application "neq" [] [.application "abs" [] [.application "sub" [] [.name "x", .name "z"]],
        .literal "002" 2]) := by
    decide +kernel
  obtain ⟨_, hlays, _⟩ := Store.hold_compile_lays hreachable .perValue
    [.compile "lt(x,2)", .compile "neq(x"] rfl hparse rfl (by decide +kernel) (by decide +kernel)
  exact ⟨_, _, rfl, hparse, rfl, hlays, by decide +kernel, by decide +kernel⟩

end ConstraintNet
