import ConstraintNet.Proofs.Compile.Simulation
import ConstraintNet.Proofs.Compile.Failures

/-! Batches of texts.

Texts come into a network in batches: each text of a batch is posted on its own, or else
there is one session for the batch, and it is asked for single texts and for series. Without
sharing a session has nothing that the next text could tell, so wherever a list of texts is
divided, what is compiled is what is compiled in one go (`Network.compileBatches_eq`).

Only a text in error makes a difference, and only in a series, for a series ends there
(`Batch.Steady`). -/
namespace ConstraintNet

/-! ### Requests -/

namespace Request

/-- What the request is about, in order. -/
def texts : Request → List String
  | .compile text => [text]
  | .compileAll texts => texts

/-- A request for a single text. -/
def isSingle : Request → Bool
  | .compile _ => true
  | .compileAll _ => false

/-- No series ends early. -/
def Steady (request : Request) : Prop :=
  request.isSingle = true ∨ ∀ text ∈ request.texts, compiles text = true

end Request

/-- What became of the texts of a request: the outcome of a single one, the numbers of a
series, or its error. -/
def Reply.outcomes : Reply → List (Except CompileError ConstraintId)
  | .compiled outcome => [outcome]
  | .compiledAll (.ok ids) => ids.map .ok
  | .compiledAll (.error e) => [.error e]

namespace Session
variable {σ : Type} [Store σ] {texts : List String}

theorem compileEach_cons (text : String) (texts : List String) (s : Session σ) :
    s.compileEach (text :: texts) = ((s.compile text).1 :: ((s.compile text).2.compileEach texts).1,
      ((s.compile text).2.compileEach texts).2) :=
  rfl

/-- Outcomes come in the order of the texts. -/
theorem outcomes_append (texts more : List String) (s : Session σ) :
    (s.compileEach (texts ++ more)).1 =
      (s.compileEach texts).1 ++ ((s.compileEach texts).2.compileEach more).1 := by
  induction texts generalizing s with
  | nil => rfl
  | cons text texts ih =>
    rw [List.cons_append, compileEach_cons, compileEach_cons, List.cons_append]
    exact congrArg _ (ih _)

/-- Each text that compiles gets a number. -/
theorem exists_ids (h : ∀ text ∈ texts, compiles text = true) (s : Session σ) :
    ∃ ids : List ConstraintId, (s.compileEach texts).1 = ids.map .ok := by
  induction texts generalizing s with
  | nil => exact ⟨[], rfl⟩
  | cons text texts ih =>
    obtain ⟨c, hc⟩ := s.compile_ok_iff.mpr (h text (List.mem_cons_self ..))
    obtain ⟨ids, hids⟩ := ih (fun text ht => h text (List.mem_cons_of_mem _ ht)) (s.compile text).2
    refine ⟨c :: ids, ?_⟩
    rw [compileEach_cons, hc, hids, List.map_cons]

/-- A series of texts that compile is compiled like single ones. -/
theorem compileAll_of_compiles (h : ∀ text ∈ texts, compiles text = true) {s : Session σ}
    {ids : List ConstraintId} (hids : (s.compileEach texts).1 = ids.map .ok) :
    s.compileAll texts = (.ok ids, (s.compileEach texts).2) := by
  have hall : attempts texts = texts := by
    rw [attempts, List.takeWhile_eq_self_iff.mpr h, List.dropWhile_eq_nil_iff.mpr h,
      List.take_nil, List.append_nil]
  have hnumbers : (ids.map .ok).mapM id = (.ok ids : Except CompileError (List ConstraintId)) := by
    rw [List.mapM_map]
    exact List.mapM_pure.trans (congrArg Except.ok (List.map_id ids))
  rw [compileAll_eq, hall, hids, hnumbers]

/-- A series without error and single texts make no difference. -/
theorem answer_outcomes {request : Request} (h : request.Steady) (s : Session σ) :
    ((s.answer request).1.outcomes, (s.answer request).2) = s.compileEach request.texts := by
  cases request with
  | compile text => rfl
  | compileAll texts =>
    have hall : ∀ text ∈ texts, compiles text = true := h.resolve_left Bool.false_ne_true
    obtain ⟨ids, hids⟩ := exists_ids hall s
    show (Reply.outcomes (.compiledAll (s.compileAll texts).1), (s.compileAll texts).2) =
      s.compileEach texts
    rw [compileAll_of_compiles hall hids, Reply.outcomes, ← hids]

theorem serve_outcomes {requests : List Request} (h : ∀ request ∈ requests, request.Steady)
    (s : Session σ) :
    ((s.serve requests).1.flatMap Reply.outcomes, (s.serve requests).2) =
      s.compileEach (requests.flatMap Request.texts) := by
  induction requests generalizing s with
  | nil => rfl
  | cons request requests ih =>
    have hfirst := Prod.ext_iff.mp (s.answer_outcomes (h request (List.mem_cons_self ..)))
    have hrest := Prod.ext_iff.mp
      (ih (fun request hr => h request (List.mem_cons_of_mem _ hr)) (s.answer request).2)
    simp only at hfirst hrest
    rw [List.flatMap_cons]
    refine Prod.ext ?outcomes ?session
    case outcomes =>
      rw [outcomes_append, ← hfirst.1, ← hfirst.2, ← hrest.1]
      rfl
    case session =>
      rw [compileEach_append, ← hfirst.2, ← hrest.2]
      rfl

/-- Texts in error change nothing, and take no numbers. -/
theorem compileEach_filter (texts : List String) (s : Session σ) :
    s.compileEach (texts.filter compiles) =
      ((s.compileEach texts).1.filter Except.isOk, (s.compileEach texts).2) := by
  induction texts generalizing s with
  | nil => rfl
  | cons text texts ih =>
    cases htext : compiles text with
    | true =>
      obtain ⟨c, hc⟩ := s.compile_ok_iff.mpr htext
      rw [List.filter_cons_of_pos htext, compileEach_cons, compileEach_cons, ih, hc]
      rfl
    | false =>
      obtain ⟨e, he⟩ := compiles_eq_false_iff.mp htext
      rw [List.filter_cons_of_neg (Bool.eq_false_iff.mp htext), ih, compileEach_cons,
        s.compile_of_error he]
      rfl

end Session

/-! ### Batches -/

/-- Texts that come into a network together. -/
inductive Batch where
  /-- Each in a session of its own. -/
  | posted (texts : List String)
  /-- All in one session, which does not share constants. -/
  | session (requests : List Request)
deriving DecidableEq, Repr

namespace Batch

def texts : Batch → List String
  | .posted texts => texts
  | .session requests => requests.flatMap Request.texts

/-- No series of the batch ends early. -/
def Steady : Batch → Prop
  | .posted _ => True
  | .session requests => ∀ request ∈ requests, request.Steady

/-- There are no series in the batch. -/
def isSingly : Batch → Bool
  | .posted _ => true
  | .session requests => requests.all Request.isSingle

theorem steady_of_compiles {batch : Batch} (h : ∀ text ∈ batch.texts, compiles text = true) :
    batch.Steady := by
  cases batch with
  | posted texts => exact trivial
  | session requests =>
    intro request hrequest
    exact .inr fun text htext => h text (List.mem_flatMap.mpr ⟨request, hrequest, htext⟩)

theorem steady_of_isSingly {batch : Batch} (h : batch.isSingly = true) : batch.Steady := by
  cases batch with
  | posted texts => exact trivial
  | session requests =>
    intro request hrequest
    exact .inl (List.all_eq_true.mp h request hrequest)

end Batch

namespace Network

/-- What becomes of a batch: the outcomes of its texts, and the network after it. -/
def compileBatch (n : Network) : Batch → List (Except CompileError ConstraintId) × Network
  | .posted texts => postEach texts n
  | .session requests =>
    let r := Session.serve requests {store := n}
    (r.1.flatMap Reply.outcomes, r.2.store)

def compileBatches : List Batch → Network → List (Except CompileError ConstraintId) × Network
  | [], n => ([], n)
  | batch :: batches, n =>
    let first := n.compileBatch batch
    let others := compileBatches batches first.2
    (first.1 ++ others.1, others.2)

theorem postEach_append (texts more : List String) (n : Network) :
    postEach (texts ++ more) n =
      ((postEach texts n).1 ++ (postEach more (postEach texts n).2).1,
        (postEach more (postEach texts n).2).2) := by
  induction texts generalizing n with
  | nil => rfl
  | cons text texts ih =>
    simp only [List.cons_append, postEach]
    rw [ih]

/-- A batch comes to its texts, posted one by one. -/
theorem compileBatch_eq {batch : Batch} (h : batch.Steady) (n : Network) :
    n.compileBatch batch = postEach batch.texts n := by
  cases batch with
  | posted texts => rfl
  | session requests =>
    have hserve := Prod.ext_iff.mp (Session.serve_outcomes h {store := n})
    simp only at hserve
    have hposts := postEach_eq (requests.flatMap Request.texts) (s := {store := n}) rfl
    simp only [compileBatch, Batch.texts]
    rw [hposts, hserve.1, hserve.2]

theorem compileBatches_eq {batches : List Batch} (h : ∀ batch ∈ batches, batch.Steady)
    (n : Network) : n.compileBatches batches = postEach (batches.flatMap Batch.texts) n := by
  induction batches generalizing n with
  | nil => rfl
  | cons batch batches ih =>
    rw [List.flatMap_cons, postEach_append, compileBatches,
      compileBatch_eq (h batch (List.mem_cons_self ..)),
      ih fun batch hb => h batch (List.mem_cons_of_mem _ hb)]

/-- **Batches make no difference.** Texts that all compile have the same numbers and leave
the same network, however they are divided, as a single series of them all. If some are in
error, it is the same for batches without series: each of them is like one session for all
texts, and like a series of those texts that compile. -/
theorem compileBatches_eq_compileAll (n : Network) (batches : List Batch) :
    let texts := batches.flatMap Batch.texts
    ((∀ text ∈ texts, compiles text = true) → ∃ ids s,
      Session.compileAll texts {store := n} = (.ok ids, s) ∧
      n.compileBatches batches = (ids.map .ok, s.store)) ∧
    ((∀ batch ∈ batches, batch.isSingly = true) →
      n.compileBatches batches = postEach texts n ∧
      n.compileBatches batches = ((Session.compileEach texts {store := n}).1,
        (Session.compileEach texts {store := n}).2.store) ∧
      ∃ ids s, Session.compileAll (texts.filter compiles) {store := n} = (.ok ids, s) ∧
        (n.compileBatches batches).1.filter Except.isOk = ids.map .ok ∧
        (n.compileBatches batches).2 = s.store) := by
  intro texts
  have hposts := postEach_eq texts (s := {store := n}) rfl
  refine ⟨fun hall => ?compiled, fun hsingly => ?errors⟩
  case compiled =>
    have hsteady : ∀ batch ∈ batches, batch.Steady := fun batch hbatch =>
      Batch.steady_of_compiles fun text ht => hall text (List.mem_flatMap.mpr ⟨batch, hbatch, ht⟩)
    obtain ⟨ids, hids⟩ := Session.exists_ids hall {store := n}
    refine ⟨ids, _, Session.compileAll_of_compiles hall hids, ?_⟩
    rw [compileBatches_eq hsteady, hposts, hids]
  case errors =>
    have hbatches := compileBatches_eq
      (fun batch hbatch => Batch.steady_of_isSingly (hsingly batch hbatch)) n
    have hfilter : ∀ text ∈ texts.filter compiles, compiles text = true :=
      fun text ht => (List.mem_filter.mp ht).2
    obtain ⟨ids, hids⟩ := Session.exists_ids hfilter {store := n}
    refine ⟨hbatches, hbatches.trans hposts, ids, _, Session.compileAll_of_compiles hfilter hids, ?_⟩
    rw [hbatches, hposts, ← hids, Session.compileEach_filter]
    exact ⟨rfl, rfl⟩

/-- Three ways in for texts that compile, and two for texts of which some do not. -/
theorem compileBatches_eq_compileAll_mixed :
    (∃ ids s, Session.compileAll ["neq(x,7)", "lt(f(x),7)", "lt(x,y)", "eq(g(7),7)", "neq(y,7)"]
        {store := (build .post ["lt(x,7)"]).2} = (.ok ids, s) ∧
      compileBatches [.posted ["neq(x,7)"], .session [.compile "lt(f(x),7)",
          .compileAll ["lt(x,y)", "eq(g(7),7)"]], .session [.compile "neq(y,7)"]]
        (build .post ["lt(x,7)"]).2 = (ids.map .ok, s.store)) ∧
    compileBatches [.session [.compile "neq(x", .compile "lt(f(x),7)"], .posted ["x", "neq(x,7)"]]
      (build .post ["lt(x,7)"]).2 =
        postEach ["neq(x", "lt(f(x),7)", "x", "neq(x,7)"] (build .post ["lt(x,7)"]).2 := by
  constructor
  · exact (compileBatches_eq_compileAll _ [.posted ["neq(x,7)"], .session [.compile "lt(f(x),7)",
      .compileAll ["lt(x,y)", "eq(g(7),7)"]], .session [.compile "neq(y,7)"]]).1 (by decide +kernel)
  · exact ((compileBatches_eq_compileAll _ [.session [.compile "neq(x", .compile "lt(f(x),7)"],
      .posted ["x", "neq(x,7)"]]).2 (by decide +kernel)).1

end Network

end ConstraintNet
