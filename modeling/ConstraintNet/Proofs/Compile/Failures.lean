import ConstraintNet.Proofs.Compile.Runs
import ConstraintNet.Proofs.Compile.Texts
import Mathlib.Data.List.TakeWhile

/-! Texts in error.

Whether a text can be compiled is settled by the text (`compiles`), whatever the
session and its store, and one that cannot leaves the session as it was
(`Session.compile_of_error`). A series of texts is compiled like single ones, up to
the first that is in error (`Session.compileAll_eq`).

So requests come to no more than the texts that are compiled for them, one by one
(`Session.serve_eq_compileEach`). Requests from which all that is in error has been
taken out (`Request.trimmed`) leave the same session, and those that were not in
error get the same replies (`Session.serve_trimmed`). -/
namespace ConstraintNet

/-! ### Errors of a text -/

/-- The text states an application. -/
def compiles (text : String) : Bool :=
  match stated text with
  | .ok _ => true
  | .error _ => false

theorem compiles_eq_false_iff {text : String} :
    compiles text = false ↔ ∃ e, stated text = .error e := by
  unfold compiles
  cases stated text <;> simp

theorem stated_eq_parse_iff {text : String} {e : ParseError} :
    stated text = .error (.parse e) ↔ Term.parse text = .error e := by
  unfold stated
  rcases Term.parse text with e' | ⟨x⟩ | ⟨x, value⟩ | ⟨f, ps, ts⟩ <;> simp

/-- A bare term is reported with the text as it was given. -/
theorem stated_eq_bareTerm_iff {text x : String} :
    stated text = .error (.bareTerm x) ↔
      x = text ∧ ∃ t, Term.parse text = .ok t ∧ t.isLeaf = true := by
  unfold stated
  rcases Term.parse text with e' | ⟨y⟩ | ⟨y, value⟩ | ⟨f, ps, ts⟩ <;>
    simp [Term.isLeaf, @eq_comm _ text]

theorem stated_eq_ok_iff {text : String} {t : Term} :
    stated text = .ok t ↔ Term.parse text = .ok t ∧ t.isLeaf = false := by
  unfold stated
  rcases Term.parse text with e | ⟨x⟩ | ⟨x, value⟩ | ⟨f, ps, ts⟩
  · simp
  · simp only [reduceCtorEq, false_iff, not_and, Except.ok.injEq]
    rintro rfl h
    cases h
  · simp only [reduceCtorEq, false_iff, not_and, Except.ok.injEq]
    rintro rfl h
    cases h
  · simp only [Except.ok.injEq, iff_self_and]
    rintro rfl
    rfl

namespace Session
variable {σ : Type} [Store σ] {text : String} {texts : List String} {e : CompileError}

theorem compile_error_iff (s : Session σ) : (s.compile text).1 = .error e ↔ stated text = .error e := by
  rw [compile_eq]
  cases stated text <;> simp

/-- What is in error changes nothing. -/
theorem compile_of_error (s : Session σ) (h : stated text = .error e) :
    s.compile text = (.error e, s) := by
  rw [compile_eq, h]

/-- What states a term leaves the session in which its root is posted. -/
theorem compile_of_ok {t : Term} (s : Session σ) (h : stated text = .ok t) :
    (s.compile text).2 =
      (Lowering.root t.text t.parameters t.operands {toSession := s}).2.toSession := by
  rw [compile_eq, h]

theorem compile_ok_iff (s : Session σ) : (∃ c, (s.compile text).1 = .ok c) ↔ compiles text = true := by
  rw [compile_eq, compiles]
  cases stated text <;> simp

/-- What is compiled is stated. -/
theorem exists_stated (s : Session σ) {c : ConstraintId} (h : (s.compile text).1 = .ok c) :
    ∃ t, stated text = .ok t := by
  cases ht : stated text with
  | ok t => exact ⟨t, rfl⟩
  | error e =>
    rw [s.compile_error_iff.mpr ht] at h
    cases h

/-! ### Errors in a series -/

/-- The texts up to the first in error, and that one too. -/
def attempts (texts : List String) : List String :=
  texts.takeWhile compiles ++ (texts.dropWhile compiles).take 1

theorem compileEach_append (texts more : List String) (s : Session σ) :
    (s.compileEach (texts ++ more)).2 = ((s.compileEach texts).2.compileEach more).2 := by
  induction texts generalizing s with
  | nil => rfl
  | cons text texts ih => exact ih _

/-- A series of texts is compiled one by one up to the first in error. It gives all
numbers in order, or else that error. -/
theorem compileAll_eq (texts : List String) (s : Session σ) :
    s.compileAll texts =
      ((s.compileEach (attempts texts)).1.mapM id, (s.compileEach (attempts texts)).2) := by
  induction texts generalizing s with
  | nil => rfl
  | cons text texts ih =>
    cases htext : compiles text with
    | false =>
      obtain ⟨e, he⟩ := compiles_eq_false_iff.mp htext
      have hfirst : attempts (text :: texts) = [text] := by simp [attempts, htext]
      rw [hfirst, compileAll, compileEach, s.compile_of_error he]
      rfl
    | true =>
      obtain ⟨c, hc⟩ := s.compile_ok_iff.mpr htext
      have hfirst : attempts (text :: texts) = text :: attempts texts := by simp [attempts, htext]
      rcases s.compileAll_cons text texts with ⟨e, he, _⟩ | ⟨c', hc', heq⟩
      · rw [hc] at he
        cases he
      · rw [heq, ih, hfirst, compileEach, hc', List.mapM_cons]
        cases (s.compile text).2.compileEach (attempts texts) |>.1.mapM id <;> rfl

/-- The one that is in error adds nothing to those before it. -/
theorem compileEach_attempts (texts : List String) (s : Session σ) :
    (s.compileEach (attempts texts)).2 = (s.compileEach (texts.takeWhile compiles)).2 := by
  rw [attempts, compileEach_append]
  cases hrest : texts.dropWhile compiles with
  | nil => rfl
  | cons text rest =>
    have hfirst : compiles text = false := by
      have hne : texts.dropWhile compiles ≠ [] := hrest ▸ List.cons_ne_nil text rest
      have hhead := List.head_dropWhile_not compiles hne
      simpa only [hrest, List.head_cons] using hhead
    obtain ⟨e, he⟩ := compiles_eq_false_iff.mp hfirst
    rw [List.take_succ_cons, List.take_zero, compileEach, compile_of_error _ he]
    rfl

end Session

/-! ### Errors among requests -/

namespace Request

/-- No text of the request is in error. -/
def succeeds : Request → Bool
  | .compile text => compiles text
  | .compileAll texts => texts.all compiles

/-- The texts that are compiled for a request. -/
def compiled : Request → List String
  | .compile text => [text].takeWhile compiles
  | .compileAll texts => texts.takeWhile compiles

/-- What is left of a request when texts in error are taken out: nothing of a single
one, and of a series what is before the first. -/
def trimmed : Request → List Request
  | .compile text => if compiles text then [.compile text] else []
  | .compileAll texts => [.compileAll (texts.takeWhile compiles)]

theorem compiled_trimmed (request : Request) :
    request.trimmed.flatMap compiled = request.compiled := by
  cases request with
  | compile text => cases htext : compiles text <;> simp [trimmed, compiled, htext]
  | compileAll texts => simp [trimmed, compiled, List.takeWhile_idem]

theorem trimmed_of_succeeds {request : Request} (h : request.succeeds = true) :
    request.trimmed = [request] := by
  cases request with
  | compile text => exact if_pos h
  | compileAll texts =>
    have hall : texts.takeWhile compiles = texts :=
      List.takeWhile_eq_self_iff.mpr fun text => List.all_eq_true.mp h text
    rw [trimmed, hall]

end Request

/-- The reply is no error. -/
def Reply.isOk : Reply → Bool
  | .compiled (.ok _) => true
  | .compiledAll (.ok _) => true
  | _ => false

namespace Session
variable {σ : Type} [Store σ]

/-- A reply is an error if some text of the request is in error. -/
theorem isOk_answer (s : Session σ) (request : Request) :
    (s.answer request).1.isOk = request.succeeds := by
  cases request with
  | compile text =>
    show (Reply.compiled (s.compile text).1).isOk = compiles text
    rw [compile_eq, compiles]
    cases stated text <;> rfl
  | compileAll texts =>
    show (Reply.compiledAll (s.compileAll texts).1).isOk = texts.all compiles
    induction texts generalizing s with
    | nil => rfl
    | cons text texts ih =>
      rw [List.all_cons]
      rcases s.compileAll_cons text texts with ⟨e, he, heq⟩ | ⟨c, hc, heq⟩
      · rw [heq, compiles, s.compile_error_iff.mp he]
        rfl
      · have htext := s.compile_ok_iff.mp ⟨c, hc⟩
        rw [heq, htext, Bool.true_and, ← ih (s.compile text).2]
        cases ((s.compile text).2.compileAll texts).1 <;> rfl

theorem answer_eq_compileEach (s : Session σ) (request : Request) :
    (s.answer request).2 = (s.compileEach request.compiled).2 := by
  cases request with
  | compile text =>
    cases htext : compiles text with
    | true =>
      simp only [Request.compiled, List.takeWhile, htext]
      rfl
    | false =>
      obtain ⟨e, he⟩ := compiles_eq_false_iff.mp htext
      simp only [Request.compiled, List.takeWhile, htext]
      show (s.compile text).2 = s
      rw [s.compile_of_error he]
  | compileAll texts =>
    show (s.compileAll texts).2 = (s.compileEach (texts.takeWhile compiles)).2
    rw [compileAll_eq, compileEach_attempts]

/-- Requests come to the texts that are compiled for them, one by one. -/
theorem serve_eq_compileEach (requests : List Request) (s : Session σ) :
    (s.serve requests).2 = (s.compileEach (requests.flatMap Request.compiled)).2 := by
  induction requests generalizing s with
  | nil => rfl
  | cons request requests ih =>
    rw [List.flatMap_cons, compileEach_append, ← answer_eq_compileEach]
    exact ih _

/-- The reply to a request is the one that the session gives once it has served those
before it. -/
theorem getElem?_serve (before : List Request) (request : Request) (after : List Request)
    (s : Session σ) :
    (s.serve (before ++ request :: after)).1[before.length]? =
      some ((s.serve before).2.answer request).1 := by
  induction before generalizing s with
  | nil => rfl
  | cons first before ih => exact ih _

theorem serve_flatMap_trimmed (requests : List Request) (s : Session σ) :
    (s.serve (requests.flatMap Request.trimmed)).2 = (s.serve requests).2 := by
  rw [serve_eq_compileEach, serve_eq_compileEach, List.flatMap_assoc]
  simp only [Request.compiled_trimmed]

/-- **Errors leave no trace.** A text is in error if it cannot be read or is a bare
term, and then the session stays as it is; a series of texts is compiled like single
ones up to the first in error. So without all that is in error the same requests
leave the same session, and whichever was not in error has the same reply. -/
theorem serve_trimmed (s : Session σ) (requests : List Request) :
    (∀ text e, (s.compile text).1 = .error (.parse e) ↔ Term.parse text = .error e) ∧
    (∀ text x, (s.compile text).1 = .error (.bareTerm x) ↔
      x = text ∧ ∃ t, Term.parse text = .ok t ∧ t.isLeaf = true) ∧
    (∀ text e, (s.compile text).1 = .error e → (s.compile text).2 = s) ∧
    (∀ texts, s.compileAll texts =
      ((s.compileEach (attempts texts)).1.mapM id, (s.compileEach (attempts texts)).2)) ∧
    (∀ request, (s.answer request).1.isOk = request.succeeds) ∧
    (s.serve (requests.flatMap Request.trimmed)).2 = (s.serve requests).2 ∧
    ∀ before request after, requests = before ++ request :: after → request.succeeds = true →
      (s.serve (requests.flatMap Request.trimmed)).1[(before.flatMap Request.trimmed).length]? =
        (s.serve requests).1[before.length]? := by
  refine ⟨fun _ _ => s.compile_error_iff.trans stated_eq_parse_iff,
    fun _ _ => s.compile_error_iff.trans stated_eq_bareTerm_iff, ?unchanged,
    fun texts => compileAll_eq texts s, s.isOk_answer, serve_flatMap_trimmed requests s, ?replies⟩
  case unchanged =>
    intro text e h
    rw [s.compile_of_error (s.compile_error_iff.mp h)]
  case replies =>
    rintro before request after rfl hrequest
    rw [List.flatMap_append, List.flatMap_cons, Request.trimmed_of_succeeds hrequest,
      List.singleton_append, getElem?_serve, getElem?_serve, serve_flatMap_trimmed]

/-- A session that fails first, then in the middle of a series, and has to answer one more
request. -/
theorem serve_trimmed_faltering :
    [Request.compile "neq(x", .compileAll ["neq(x,7)", "x", "neq(y,7)"], .compile "lt(z,007)"].flatMap
        Request.trimmed = [.compileAll ["neq(x,7)"], .compile "lt(z,007)"] ∧
      (serve [.compileAll ["neq(x,7)"], .compile "lt(z,007)"]
          {store := ({} : Network), sharing := .perValue}).1[1]? =
        (serve [.compile "neq(x", .compileAll ["neq(x,7)", "x", "neq(y,7)"], .compile "lt(z,007)"]
          {store := ({} : Network), sharing := .perValue}).1[2]? := by
  have htrimmed : [Request.compile "neq(x", .compileAll ["neq(x,7)", "x", "neq(y,7)"],
      .compile "lt(z,007)"].flatMap Request.trimmed =
        [.compileAll ["neq(x,7)"], .compile "lt(z,007)"] := by
    decide +kernel
  obtain ⟨_, _, _, _, _, _, hreplies⟩ := serve_trimmed {store := ({} : Network), sharing := .perValue}
    [.compile "neq(x", .compileAll ["neq(x,7)", "x", "neq(y,7)"], .compile "lt(z,007)"]
  have hlast := hreplies [.compile "neq(x", .compileAll ["neq(x,7)", "x", "neq(y,7)"]]
    (.compile "lt(z,007)") [] rfl (by decide +kernel)
  have hplace : ([Request.compile "neq(x", .compileAll ["neq(x,7)", "x", "neq(y,7)"]].flatMap
      Request.trimmed).length = 1 := by
    decide +kernel
  rw [htrimmed, hplace] at hlast
  exact ⟨htrimmed, hlast⟩

end Session

end ConstraintNet
