import ConstraintNet.Network.Basic
import ConstraintNet.Reading.Parse

/-! Compiling terms into a store.

The root of a term becomes a general constraint. An operand becomes a variable: a
name the variable of that name, a literal a constant, and an application an
auxiliary variable, the result of a functional constraint over its own operands.
So `neq(abs(sub(x,y)),2)` gives `_a = sub(x,y)`, `_b = abs(_a)` and `neq(_b,_c)`
with a constant `_c`.

Variables are registered on the way down and from left to right, a result before
the operands it is computed from; constraints on the way up, the root last.

A session compiles one text after another into one store. Names are shared
through the store. Whether literals of one value are is up to the session, and
goes no further than the session (`Sharing`). -/
namespace ConstraintNet

/-- Which literals share a constant. -/
inductive Sharing where
  /-- None: each occurrence has a constant of its own. -/
  | perOccurrence
  /-- Those of one value, as long as a session lasts. -/
  | perValue
deriving DecidableEq, Repr

structure Session (σ : Type) where
  store : σ
  sharing : Sharing := .perOccurrence
  /-- The constants of this session by value, if they are shared. -/
  constants : Std.TreeMap Int64 VariableId := {}
  /-- What has been noted. -/
  journal : Array Event := #[]

/-- A session in the middle of a term, with the auxiliary variables registered for it. -/
structure Lowering (σ : Type) extends Session σ where
  auxiliaries : Nat := 0

/-! ### Operands -/

namespace Lowering
variable {σ ι : Type}

def note (l : Lowering σ) (e : Event) : Lowering σ :=
  {l with journal := l.journal.push e}

/-- Goes on with the store after a registration. -/
def take (l : Lowering σ) (r : Registered σ ι) : ι × Lowering σ :=
  (r.id, {l with store := r.store, journal := l.journal ++ r.events})

variable [Store σ]

/-- Registers an auxiliary variable. -/
def introduce (l : Lowering σ) (x : Variable) : VariableId × Lowering σ :=
  {l with auxiliaries := l.auxiliaries + 1}.take (Store.addVariable l.store x)

/-- The variable of a literal. -/
def constant (l : Lowering σ) (value : Int64) : VariableId × Lowering σ :=
  match l.sharing with
  | .perOccurrence => l.introduce (.constant value)
  | .perValue =>
    match l.constants[value]? with
    | some v => (v, l)
    | none =>
      let c := l.introduce (.constant value)
      (c.1, {c.2 with constants := c.2.constants.insert value c.1})

/-- Registers what defines the result of an application. -/
def define (l : Lowering σ) (result : VariableId) (operator : String) (parameters : List Parameter)
    (terms : List Term) (operands : List VariableId) : Lowering σ :=
  let l := l.note (.defining result (.application operator parameters terms))
  (l.take (Store.addConstraint l.store (.functional result operator parameters operands))).2

mutual

/-- The variable that an operand becomes. -/
def operand : Term → Lowering σ → VariableId × Lowering σ
  | .name text, l => l.take (Store.intern l.store text)
  | .literal _ value, l => l.constant value
  | .application operator parameters terms, l =>
    let result := l.introduce .auxiliary
    let below := operands terms result.2
    (result.1, below.2.define result.1 operator parameters terms below.1)

/-- The variables that operands become, from left to right. -/
def operands : List Term → Lowering σ → List VariableId × Lowering σ
  | [], l => ([], l)
  | term :: terms, l =>
    let first := operand term l
    let others := operands terms first.2
    (first.1 :: others.1, others.2)

end

/-- Registers the root of a term over what its operands became. -/
def root (operator : String) (parameters : List Parameter) (terms : List Term) (l : Lowering σ) :
    ConstraintId × Lowering σ :=
  let below := operands terms l
  let posted := below.2.take (Store.addConstraint below.2.store (.general operator parameters below.1))
  (posted.1, posted.2.note (.compiled (.application operator parameters terms) posted.2.auxiliaries))

end Lowering

/-! ### Texts -/

/-- Why a text was not compiled. -/
inductive CompileError where
  | parse (error : ParseError)
  /-- The text is a single name or literal, which states nothing. -/
  | bareTerm (text : String)
deriving DecidableEq, Repr

def CompileError.message : CompileError → String
  | .parse error => error.message
  | .bareTerm text => "expected a constraint, got the single term '" ++ text ++ "'"

namespace Session
variable {σ : Type} [Store σ]

/-- Compiles a text. Nothing happens to the session if the text is in error. -/
def compile (text : String) (s : Session σ) : Except CompileError ConstraintId × Session σ :=
  match Term.parse text with
  | .error e => (.error (.parse e), s)
  | .ok (.application operator parameters terms) =>
    let c := Lowering.root operator parameters terms {toSession := s}
    (.ok c.1, c.2.toSession)
  | .ok _ => (.error (.bareTerm text), s)

/-- Compiles texts one after another, up to the first in error. -/
def compileAll : List String → Session σ → Except CompileError (List ConstraintId) × Session σ
  | [], s => (.ok [], s)
  | text :: texts, s =>
    match s.compile text with
    | (.error e, t) => (.error e, t)
    | (.ok c, t) =>
      let others := t.compileAll texts
      ((c :: ·) <$> others.1, others.2)

end Session

/-- Compiles a text in a session of its own, with no sharing of constants. Gives
the network after it and what has been noted. -/
def Network.post (n : Network) (text : String) :
    Except CompileError ConstraintId × Network × Array Event :=
  let r := Session.compile text {store := n}
  (r.1, r.2.store, r.2.journal)

end ConstraintNet
