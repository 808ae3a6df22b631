import ConstraintNet.Reading.Reader
import ConstraintNet.Term.Basic

/-! The grammar of terms, as readers.

    term        ::=  literal  |  application  |  word
    application ::=  word ['{' parameter (',' parameter)* '}'] '(' [term (',' term)*] ')'
    parameter   ::=  literal  |  word
    literal     ::=  ['-'] digit digit*
    word        ::=  letter-or-underscore letter-digit-or-underscore*

Letters and digits are those of ASCII. Blanks may stand around terms, parameters
and delimiters, hence everywhere but inside a word or a literal. A literal must
fit 64 bits. The alternatives are tried from left to right, so a word before a
parenthesis is an operator and a word alone a name.

An operand is a term one level further down. `term` counts the levels it may go
down, and is told what to read below them; how many there have to be is settled
where a text is read (`wholeText`). -/
namespace ConstraintNet.Reading
open Text

def isInitial (c : Char) : Bool :=
  c.isAlpha || c == '_'

def isWordChar (c : Char) : Bool :=
  c.isAlphanum || c == '_'

/-! ### Words and literals -/

def word : Reader String := do
  let c ← .oneOf isInitial .identifier
  let cs ← .run isWordChar .identifier
  return String.ofList (c :: cs)

def numeral : Reader (List Char) := do
  let sign ← (Reader.character '-').optional
  let d ← .oneOf Char.isDigit .digit
  let ds ← .run Char.isDigit .digit
  return (sign.map fun _ => '-').toList ++ d :: ds

/-- A numeral and its value. Its failures are kept apart from the pending one: if
it is no numeral they replace it, otherwise what ended the numeral counts as a
failure of the place where the numeral starts. -/
def literal : Reader (String × Int64) := fun s =>
  match numeral {s with pending := none} with
  | .refused f => .refused f
  | .read cs t =>
    match Decimal.int64? cs with
    | some value =>
      let filed := t.pending.map fun f => Failure.furthest s.pending {f with place := s.offset}
      .read (String.ofList cs, value) {t with pending := filed.or s.pending}
    | none =>
      let numeral := String.ofList cs
      .refused (.furthest s.pending ⟨s.offset, ⟨s.offset, t.offset⟩, .outOfRange numeral⟩)

/-! ### Parameters -/

def parameter : Reader Parameter :=
  .padded (.orElse ((fun l => .integer l.2) <$> literal) (.symbol <$> word))

/-- One parameter or more between braces. -/
def parameters : Reader (List Parameter) := do
  .delimiter '{'
  let ps ← parameter.listed
  .delimiter '}'
  return ps

/-! ### Terms -/

/-- Any number of operands between parentheses. -/
def operands (operand : Reader Term) : Reader (List Term) := do
  .delimiter '('
  let ts ← .orElse operand.listed (pure [])
  .delimiter ')'
  return ts

def application (operand : Reader Term) : Reader Term := do
  let operator ← word
  let ps ← parameters.optional
  let ts ← operands operand
  return .application operator (ps.getD []) ts

/-- A term of at most `levels` levels, with `below` for the operands of the lowest. -/
def term (below : Reader Term) : (levels : Nat) → Reader Term
  | 0 => below
  | levels + 1 =>
    .padded (.orElse ((fun l => .literal l.1 l.2) <$> literal)
      (.orElse (application (term below levels)) (.name <$> word)))

/-- A term and nothing after it. -/
def whole (below : Reader Term) (levels : Nat) : Reader Term := do
  let t ← term below levels
  .endOfInput
  return t

end ConstraintNet.Reading
