import ConstraintNet.Proofs.Compile.Growth

/-! Runs.

A session is asked for one text or for several, again and again, and gives a reply
each time (`Session.serve`). A store is used in operations, one after another:
names are interned, texts are posted, each in a session of its own, and sessions
are held (`Store.operateAll`). Variables and constraints may besides be registered
by hand, and then any (`Store.actAll`).

Whatever is done to a store that can be built up from nothing (`BuildableStore`),
it is valid and only grows. What a single text keeps as long as there are numbers
for all variables is kept by all requests of a session (`Session.serve_keeps`), and
what a single operation keeps by all operations (`Store.operateAll_keeps`). -/
namespace ConstraintNet
open Store (Grows)

/-! ### Sessions -/

/-- What a session is asked for: one text, or several up to the first in error. -/
inductive Request where
  | compile (text : String)
  | compileAll (texts : List String)
deriving DecidableEq, Repr

inductive Reply where
  | compiled (outcome : Except CompileError ConstraintId)
  | compiledAll (outcome : Except CompileError (List ConstraintId))

namespace Session
variable {σ : Type} [Store σ]

def answer (s : Session σ) : Request → Reply × Session σ
  | .compile text =>
    let r := s.compile text
    (.compiled r.1, r.2)
  | .compileAll texts =>
    let r := s.compileAll texts
    (.compiledAll r.1, r.2)

/-- Answers requests in order. One that ends in error does not stop the next. -/
def serve : List Request → Session σ → List Reply × Session σ
  | [], s => ([], s)
  | request :: requests, s =>
    let first := s.answer request
    let others := serve requests first.2
    (first.1 :: others.1, others.2)

theorem serve_append (requests more : List Request) (s : Session σ) :
    (s.serve (requests ++ more)).2 = ((s.serve requests).2.serve more).2 := by
  induction requests generalizing s with
  | nil => rfl
  | cons request requests ih => exact ih _

/-- A series of texts is one text and then the others, unless the one is in error. -/
theorem compileAll_cons (text : String) (texts : List String) (s : Session σ) :
    (∃ e, (s.compile text).1 = .error e ∧ s.compileAll (text :: texts) = (.error e, (s.compile text).2)) ∨
      ∃ c, (s.compile text).1 = .ok c ∧ s.compileAll (text :: texts) =
        ((c :: ·) <$> ((s.compile text).2.compileAll texts).1, ((s.compile text).2.compileAll texts).2) := by
  rw [compileAll]
  split
  · next e t h => exact .inl ⟨e, by rw [h], by rw [h]⟩
  · next c t h => exact .inr ⟨c, by rw [h], by rw [h]⟩

/-! Sessions that cannot be told apart by one text cannot be told apart at all. -/

section Matching
variable {τ : Type} [Store τ] {M : Session σ → Session τ → Prop}

/-- Sessions that match give the same outcome for any text, and match afterwards. -/
def Matching (M : Session σ → Session τ → Prop) : Prop :=
  ∀ s t text, M s t → (s.compile text).1 = (t.compile text).1 ∧ M (s.compile text).2 (t.compile text).2

theorem Matching.compileAll (hM : Matching M) (texts : List String) {s : Session σ} {t : Session τ}
    (h : M s t) :
    (s.compileAll texts).1 = (t.compileAll texts).1 ∧ M (s.compileAll texts).2 (t.compileAll texts).2 := by
  induction texts generalizing s t with
  | nil => exact ⟨rfl, h⟩
  | cons text texts ih =>
    obtain ⟨hfirst, h₁⟩ := hM s t text h
    obtain ⟨hrest, h₂⟩ := ih h₁
    rcases s.compileAll_cons text texts with ⟨e, he, hs⟩ | ⟨c, hc, hs⟩ <;>
      rcases t.compileAll_cons text texts with ⟨e', he', ht⟩ | ⟨c', hc', ht⟩
    · rw [he, he'] at hfirst
      cases hfirst
      rw [hs, ht]
      exact ⟨rfl, h₁⟩
    · rw [he, hc'] at hfirst
      cases hfirst
    · rw [hc, he'] at hfirst
      cases hfirst
    · rw [hc, hc'] at hfirst
      cases hfirst
      rw [hs, ht, hrest]
      exact ⟨rfl, h₂⟩

theorem Matching.answer (hM : Matching M) (request : Request) {s : Session σ} {t : Session τ}
    (h : M s t) :
    (s.answer request).1 = (t.answer request).1 ∧ M (s.answer request).2 (t.answer request).2 := by
  cases request with
  | compile text =>
    obtain ⟨houtcome, h'⟩ := hM s t text h
    exact ⟨congrArg Reply.compiled houtcome, h'⟩
  | compileAll texts =>
    obtain ⟨houtcome, h'⟩ := hM.compileAll texts h
    exact ⟨congrArg Reply.compiledAll houtcome, h'⟩

theorem Matching.serve (hM : Matching M) (requests : List Request) {s : Session σ} {t : Session τ}
    (h : M s t) :
    (s.serve requests).1 = (t.serve requests).1 ∧ M (s.serve requests).2 (t.serve requests).2 := by
  induction requests generalizing s t with
  | nil => exact ⟨rfl, h⟩
  | cons request requests ih =>
    obtain ⟨hfirst, h₁⟩ := hM.answer request h
    obtain ⟨hrest, h₂⟩ := ih h₁
    refine ⟨?_, h₂⟩
    simp only [Session.serve]
    rw [hfirst, hrest]

end Matching

end Session

/-! ### Stores -/

inductive Operation where
  | intern (name : String)
  /-- A text in a session of its own, with no sharing of constants. -/
  | post (text : String)
  | session (sharing : Sharing) (requests : List Request)
deriving DecidableEq, Repr

/-- An operation, or a registration by hand. -/
inductive Action where
  | addVariable (x : Variable)
  | addConstraint (c : Constraint)
  | operate (o : Operation)
deriving DecidableEq, Repr

namespace Store
variable {σ : Type} [Store σ]

def operate (s : σ) : Operation → σ
  | .intern name => (intern s name).store
  | .post text => (Session.compile text {store := s}).2.store
  | .session sharing requests => (Session.serve requests {store := s, sharing}).2.store

def operateAll (s : σ) (operations : List Operation) : σ :=
  operations.foldl operate s

def act (s : σ) : Action → σ
  | .addVariable x => (addVariable s x).store
  | .addConstraint c => (addConstraint s c).store
  | .operate o => operate s o

def actAll (s : σ) (actions : List Action) : σ :=
  actions.foldl act s

theorem operateAll_append (s : σ) (operations more : List Operation) :
    operateAll s (operations ++ more) = operateAll (operateAll s operations) more :=
  List.foldl_append

end Store

/-! ### Growth -/

/-- A lawful store that can be built up from nothing, also by hand. -/
class BuildableStore (σ : Type) [Store σ] extends LawfulStore σ where
  empty : σ
  vars_empty : Store.vars empty = #[]
  constraints_empty : Store.constraints empty = #[]
  valid_empty : Valid empty
  addVariable_grows : ∀ {s : σ}, Valid s → ∀ x, Store.Grows s (Store.addVariable s x).store

section
variable {σ : Type} [Store σ]

namespace Session
variable [LawfulStore σ]

theorem compileAll_grows (texts : List String) {s : Session σ} (h : LawfulStore.Valid s.store) :
    Grows s.store (s.compileAll texts).2.store := by
  induction texts generalizing s with
  | nil => exact Grows.refl h
  | cons text texts ih =>
    have hfirst := compile_grows text h
    rcases s.compileAll_cons text texts with ⟨e, _, heq⟩ | ⟨c, _, heq⟩
    · rw [heq]
      exact hfirst
    · rw [heq]
      exact hfirst.trans (ih hfirst.valid)

theorem answer_grows (request : Request) {s : Session σ} (h : LawfulStore.Valid s.store) :
    Grows s.store (s.answer request).2.store := by
  cases request with
  | compile text => exact compile_grows text h
  | compileAll texts => exact compileAll_grows texts h

theorem serve_grows (requests : List Request) {s : Session σ} (h : LawfulStore.Valid s.store) :
    Grows s.store (s.serve requests).2.store := by
  induction requests generalizing s with
  | nil => exact Grows.refl h
  | cons request requests ih =>
    have hfirst := answer_grows request h
    exact hfirst.trans (ih hfirst.valid)

/-- Kept by every text after which there are numbers for all variables. -/
def Kept (P : Session σ → Prop) : Prop :=
  ∀ (s : Session σ) text, LawfulStore.Valid s.store →
    (Store.vars (s.compile text).2.store).size ≤ UInt32.size → P s → P (s.compile text).2

variable {P : Session σ → Prop}

theorem compileAll_keeps (hP : Kept P) (texts : List String) {s : Session σ}
    (hvalid : LawfulStore.Valid s.store)
    (hsize : (Store.vars (s.compileAll texts).2.store).size ≤ UInt32.size) (hs : P s) :
    P (s.compileAll texts).2 := by
  induction texts generalizing s with
  | nil => exact hs
  | cons text texts ih =>
    have hgrows := compile_grows text hvalid
    rcases s.compileAll_cons text texts with ⟨e, _, heq⟩ | ⟨c, _, heq⟩
    · rw [heq] at hsize ⊢
      exact hP s text hvalid hsize hs
    · rw [heq] at hsize ⊢
      have hrest := compileAll_grows texts hgrows.valid
      exact ih hgrows.valid hsize (hP s text hvalid (Nat.le_trans hrest.size_vars_le hsize) hs)

theorem serve_keeps (hP : Kept P) (requests : List Request) {s : Session σ}
    (hvalid : LawfulStore.Valid s.store)
    (hsize : (Store.vars (s.serve requests).2.store).size ≤ UInt32.size) (hs : P s) :
    P (s.serve requests).2 := by
  induction requests generalizing s with
  | nil => exact hs
  | cons request requests ih =>
    have hgrows := answer_grows request hvalid
    have hsize₁ := Nat.le_trans (serve_grows requests hgrows.valid).size_vars_le hsize
    refine ih hgrows.valid hsize ?_
    cases request with
    | compile text => exact hP s text hvalid hsize₁ hs
    | compileAll texts => exact compileAll_keeps hP texts hvalid hsize₁ hs

end Session

namespace Store

theorem operate_grows [LawfulStore σ] (o : Operation) {s : σ} (h : LawfulStore.Valid s) :
    Grows s (operate s o) := by
  cases o with
  | intern name => exact intern_grows h name
  | post text => exact Session.compile_grows (s := {store := s}) text h
  | session sharing requests => exact Session.serve_grows (s := {store := s, sharing}) requests h

theorem operateAll_grows [LawfulStore σ] (operations : List Operation) {s : σ}
    (h : LawfulStore.Valid s) : Grows s (operateAll s operations) := by
  induction operations generalizing s with
  | nil => exact Grows.refl h
  | cons o operations ih =>
    have hfirst := operate_grows o h
    exact hfirst.trans (ih hfirst.valid)

theorem operateAll_keeps [LawfulStore σ] {P : σ → Prop}
    (hP : ∀ s o, LawfulStore.Valid s → (vars (operate s o)).size ≤ UInt32.size → P s → P (operate s o))
    (operations : List Operation) {s : σ} (hvalid : LawfulStore.Valid s)
    (hsize : (vars (operateAll s operations)).size ≤ UInt32.size) (hs : P s) :
    P (operateAll s operations) := by
  induction operations generalizing s with
  | nil => exact hs
  | cons o operations ih =>
    have hgrows := operate_grows o hvalid
    have hrest := operateAll_grows operations hgrows.valid
    exact ih hgrows.valid hsize (hP s o hvalid (Nat.le_trans hrest.size_vars_le hsize) hs)

theorem act_grows [BuildableStore σ] (a : Action) {s : σ} (h : LawfulStore.Valid s) :
    Grows s (act s a) := by
  cases a with
  | addVariable x => exact BuildableStore.addVariable_grows h x
  | addConstraint c =>
    obtain ⟨hposts, hvalid⟩ := LawfulStore.posts h c
    exact hposts.grows hvalid
  | operate o => exact operate_grows o h

theorem actAll_grows [BuildableStore σ] (actions : List Action) {s : σ} (h : LawfulStore.Valid s) :
    Grows s (actAll s actions) := by
  induction actions generalizing s with
  | nil => exact Grows.refl h
  | cons a actions ih =>
    have hfirst := act_grows a h
    exact hfirst.trans (ih hfirst.valid)

/-- What can be done to a store that is empty at first leads to it. -/
def Reachable [BuildableStore σ] (s : σ) : Prop :=
  ∃ actions, actAll BuildableStore.empty actions = s

theorem Reachable.valid [BuildableStore σ] {s : σ} (h : Reachable s) : LawfulStore.Valid s := by
  obtain ⟨actions, rfl⟩ := h
  exact (actAll_grows actions BuildableStore.valid_empty).valid

end Store

end

/-! ### Ledgers and networks -/

instance : BuildableStore Ledger where
  empty := {}
  vars_empty := rfl
  constraints_empty := rfl
  valid_empty := trivial
  addVariable_grows := by
    intro l _ x
    have hadds : Store.Adds l x (Store.addVariable l x) := ⟨rfl, rfl, rfl⟩
    exact hadds.grows trivial

instance : BuildableStore Network where
  empty := {}
  vars_empty := rfl
  constraints_empty := rfl
  valid_empty := Network.indexed_empty
  addVariable_grows := by
    intro n h x
    cases x with
    | named name =>
      cases hfind : n.find? name with
      | some v =>
        have hstore : (Store.addVariable n (.named name)).store = n := by
          simp only [Store.addVariable, Network.addVariable, hfind]
        rw [hstore]
        exact Grows.refl h
      | none =>
        have hadds : Store.Adds n (.named name) (Store.addVariable n (.named name)) := by
          simp only [Store.addVariable, Network.addVariable, hfind]
          exact ⟨rfl, rfl, rfl⟩
        refine hadds.grows ?_
        simp only [Store.addVariable, Network.addVariable, hfind]
        exact Network.Indexed.insert h hfind
    | auxiliary =>
      obtain ⟨hadds, hvalid⟩ := LawfulStore.adds h .auxiliary rfl
      exact hadds.grows hvalid
    | constant value =>
      obtain ⟨hadds, hvalid⟩ := LawfulStore.adds h (.constant value) rfl
      exact hadds.grows hvalid

end ConstraintNet
