import ConstraintNet.Reading.Term

/-! From a text to a term.

Parentheses may nest `nestingLimit` deep. That is checked first, on the
parentheses alone and whatever else the text holds (`overnested`); only then is
the text read. What went wrong is reported with its span in bytes, and with line
and column of the span's start. -/
namespace ConstraintNet
open Text (Span)

/-- The deepest nesting of operands in a text. -/
def nestingLimit : Nat := 256

/-- The place of the first parenthesis that opens a level below `limit`, in a text
from `offset` on with `depth` levels open. A parenthesis that closes nothing is
passed over. -/
def overnested (limit depth offset : Nat) : List Char → Option Nat
  | [] => none
  | c :: cs =>
    if c = '(' then
      if depth < limit then overnested limit (depth + 1) (offset + c.utf8Size) cs else some offset
    else if c = ')' then overnested limit (depth - 1) (offset + c.utf8Size) cs
    else overnested limit depth (offset + c.utf8Size) cs

/-- Why a text is no term. -/
inductive ParseError.Cause where
  | nesting
  | grammar (complaint : Reading.Complaint)
deriving DecidableEq, Repr

structure ParseError where
  cause : ParseError.Cause
  span : Span
  line : Nat
  column : Nat
deriving DecidableEq, Repr

namespace ParseError

/-- An error in a text, with line and column of the span's start. -/
def locate (text : List Char) (cause : Cause) (span : Span) : ParseError :=
  let before := Text.before span.start text
  ⟨cause, span, Text.line before, Text.column before⟩

def Cause.text : Cause → String
  | .nesting => "operands nest deeper than " ++ Text.Decimal.text nestingLimit ++ " levels"
  | .grammar complaint => complaint.text

def reason (e : ParseError) : String :=
  e.cause.text

def message (e : ParseError) : String :=
  "failed to parse expression at line " ++ Text.Decimal.text e.line
    ++ ", column " ++ Text.Decimal.text e.column
    ++ " (" ++ Text.Decimal.text e.span.start ++ ", " ++ Text.Decimal.text e.span.stop ++ "): "
    ++ e.reason

end ParseError

namespace Reading

/-- What is read where no level is left. -/
def noTerm : Reader Term := fun s =>
  .refused (s.refuse .identifier)

/-- Reads the whole of a text. Each level takes a word and a parenthesis before the
next begins, so with more levels than characters the last is never reached. -/
def wholeText (text : List Char) : Outcome Term :=
  whole noTerm (text.length + 1) (.start text)

end Reading

instance decEqParsed : DecidableEq (Except ParseError Term)
  | .ok t, .ok t' => decidable_of_iff (t = t') (by rw [Except.ok.injEq])
  | .error e, .error e' => decidable_of_iff (e = e') (by rw [Except.error.injEq])
  | .ok _, .error _ => isFalse nofun
  | .error _, .ok _ => isFalse nofun

/-- The term that a text is, or the error in it. -/
def Term.parse (text : String) : Except ParseError Term :=
  match overnested nestingLimit 0 0 text.toList with
  | some place => .error (.locate text.toList .nesting ⟨place, place + 1⟩)
  | none =>
    match Reading.wholeText text.toList with
    | .read term _ => .ok term
    | .refused f => .error (.locate text.toList (.grammar f.complaint) f.span)

end ConstraintNet
