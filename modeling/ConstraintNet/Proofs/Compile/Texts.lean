import ConstraintNet.Compile.Session

/-! Many texts.

Texts are compiled in order, and those in error are passed over. They may share a
session, and then its constants, or each may be posted to the network on its own
(`Route`). -/
namespace ConstraintNet

/-- The application that a text states, or why it states none. -/
def stated (text : String) : Except CompileError Term :=
  match Term.parse text with
  | .error e => .error (.parse e)
  | .ok (.application operator parameters terms) => .ok (.application operator parameters terms)
  | .ok _ => .error (.bareTerm text)

/-- A text is compiled if it states an application, whatever the session. -/
theorem Session.compile_eq {σ : Type} [Store σ] (text : String) (s : Session σ) :
    s.compile text = match stated text with
      | .error e => (.error e, s)
      | .ok t =>
        let c := Lowering.root t.text t.parameters t.operands {toSession := s}
        (.ok c.1, c.2.toSession) := by
  rw [compile, stated]
  rcases Term.parse text with e | ⟨x⟩ | ⟨x, value⟩ | ⟨f, ps, ts⟩ <;> rfl

/-- Compiles texts one after another, also past those in error. -/
def Session.compileEach {σ : Type} [Store σ] : List String → Session σ →
    List (Except CompileError ConstraintId) × Session σ
  | [], s => ([], s)
  | text :: texts, s =>
    let first := s.compile text
    let others := compileEach texts first.2
    (first.1 :: others.1, others.2)

namespace Network

/-- Posts texts one after another, also past those in error. -/
def postEach : List String → Network → List (Except CompileError ConstraintId) × Network
  | [], n => ([], n)
  | text :: texts, n =>
    let first := n.post text
    let others := postEach texts first.2.1
    (first.1 :: others.1, others.2)

/-- How texts come into a network. -/
inductive Route where
  /-- Each in a session of its own. -/
  | post
  /-- All in one session. -/
  | session (sharing : Sharing)
deriving DecidableEq, Repr

def Route.sharing : Route → Sharing
  | .post => .perOccurrence
  | .session sharing => sharing

/-- What becomes of texts in a network: the outcome of each, and the network in the
end. -/
def extend (route : Route) (texts : List String) (n : Network) :
    List (Except CompileError ConstraintId) × Network :=
  match route with
  | .post => postEach texts n
  | .session sharing =>
    let r := Session.compileEach texts {store := n, sharing}
    (r.1, r.2.store)

/-- What becomes of texts in a network that is empty at first: the outcome of each,
and the network in the end. -/
def build (route : Route) (texts : List String) :
    List (Except CompileError ConstraintId) × Network :=
  extend route texts {}

end Network

end ConstraintNet
