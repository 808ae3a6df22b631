import ConstraintNet.Reading.Failure
import ConstraintNet.Text.Blank

/-! Readers.

A reader takes the state of a reading, the rest of the text and the failure that
is pending, and either reads a value and leaves a state or refuses with a
failure. What was tried in vain is not forgotten: the pending failure goes on
through success (`repeated` ends by a refusal, and keeps it), and through an
alternative, which starts from the old place with the failure of the first
(`Reader.orElse`). So when all is lost, the failure that went furthest is there
to be reported. -/
namespace ConstraintNet.Reading
open Text (Span byteLength isBlank)

/-- How far a reading has come: the bytes before the place, the text from it on,
and what to report if nothing gets any further. -/
structure State where
  offset : Nat
  rest : List Char
  pending : Option Failure
deriving DecidableEq, Repr

inductive Outcome (α : Type) where
  | read (value : α) (state : State)
  | refused (failure : Failure)
deriving DecidableEq, Repr

/-- A reader of values. -/
def Reader (α : Type) : Type :=
  State → Outcome α

namespace State

/-- A reading about to start. -/
def start (text : List Char) : State :=
  ⟨0, text, none⟩

/-- The state past the characters `taken`, with `left` after them. -/
def past (s : State) (taken left : List Char) : State :=
  {s with offset := s.offset + byteLength taken, rest := left}

/-- The next character of the text, or the place of its end. -/
def next (s : State) : Span :=
  ⟨s.offset, s.offset + byteLength s.rest.head?.toList⟩

/-- What comes next is not what was expected. -/
def refuse (s : State) (e : Expectation) : Failure :=
  .furthest s.pending ⟨s.offset, s.next, .unexpected s.rest.head? [e]⟩

/-- What comes next is not in a class of characters. At the end of the text
nothing that was pending counts any more. -/
def refuseClass (s : State) (e : Expectation) : Failure :=
  match s.rest with
  | [] => ⟨s.offset, s.next, .unexpected none [.any]⟩
  | _ :: _ => s.refuse e

end State

namespace Reader
variable {α β : Type}

instance : Monad Reader where
  pure a := fun s => .read a s
  bind p f := fun s =>
    match p s with
    | .read a t => f a t
    | .refused e => .refused e

theorem bind_apply (p : Reader α) (f : α → Reader β) (s : State) :
    (p >>= f) s = match p s with
      | .read a t => f a t
      | .refused e => .refused e := rfl

/-- The second from the same place, if the first refuses. -/
def orElse (p q : Reader α) : Reader α := fun s =>
  match p s with
  | .read a t => .read a t
  | .refused f => q {s with pending := some f}

/-- A value, or none and the same place. -/
def optional (p : Reader α) : Reader (Option α) :=
  orElse (some <$> p) (pure none)

/-- Values as long as there are any; one that takes no text is the last. -/
def repeated (p : Reader α) (s : State) : List α × State :=
  match p s with
  | .refused f => ([], {s with pending := some f})
  | .read a t =>
    if t.rest.length < s.rest.length then
      let (as, u) := repeated p t
      (a :: as, u)
    else ([a], t)
termination_by s.rest.length

/-- Values as long as there are any. -/
def many (p : Reader α) : Reader (List α) := fun s =>
  let (as, t) := repeated p s
  .read as t

/-! ### Characters -/

/-- The character `c` and no other. -/
def character (c : Char) : Reader Unit := fun s =>
  match s.rest with
  | d :: left => if d = c then .read () (s.past [d] left) else .refused (s.refuse (.character c))
  | [] => .refused (s.refuse (.character c))

/-- A character of a class. -/
def oneOf (accept : Char → Bool) (e : Expectation) : Reader Char := fun s =>
  match s.rest with
  | d :: left => if accept d then .read d (s.past [d] left) else .refused (s.refuseClass e)
  | [] => .refused (s.refuseClass e)

/-- The characters up to the first that is not of a class. -/
def run (accept : Char → Bool) (e : Expectation) : Reader (List Char) := fun s =>
  let t := s.past (s.rest.takeWhile accept) (s.rest.dropWhile accept)
  .read (s.rest.takeWhile accept) {t with pending := some (t.refuseClass e)}

/-- Blanks, if there are any. -/
def blanks : Reader Unit := fun s =>
  .read () (s.past (s.rest.takeWhile isBlank) (s.rest.dropWhile isBlank))

/-- The end of the text. -/
def endOfInput : Reader Unit := fun s =>
  match s.rest with
  | [] => .read () s
  | _ :: _ => .refused (s.refuse .endOfInput)

/-! ### Blanks around, commas between -/

/-- A value with blanks on both sides. -/
def padded (p : Reader α) : Reader α := do
  blanks
  let a ← p
  blanks
  return a

/-- A delimiter with blanks on both sides. -/
def delimiter (c : Char) : Reader Unit :=
  padded (character c)

/-- One value or more, with commas between. -/
def listed (p : Reader α) : Reader (List α) := do
  let a ← p
  let as ← many (do delimiter ','; p)
  return a :: as

end Reader

end ConstraintNet.Reading
