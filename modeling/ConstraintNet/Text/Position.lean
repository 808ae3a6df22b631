/-! Where a place in a text is.

A place is counted in bytes of UTF-8 from the start of the text. For a reader of
the text it is a line and a column as well, both from one: a line ends at a line
feed and nowhere else, and a column is a character, whatever its width in bytes. -/
namespace ConstraintNet.Text

/-- The bytes that a text takes in UTF-8. -/
def byteLength : List Char → Nat
  | [] => 0
  | c :: cs => c.utf8Size + byteLength cs

@[simp] theorem byteLength_append (cs ds : List Char) :
    byteLength (cs ++ ds) = byteLength cs + byteLength ds := by
  induction cs with
  | nil => exact (Nat.zero_add _).symm
  | cons c cs ih => rw [List.cons_append, byteLength, byteLength, ih, Nat.add_assoc]

/-- The bytes from `start` up to `stop`. -/
structure Span where
  start : Nat
  stop : Nat
deriving DecidableEq, Repr

/-- The characters of a text that start before the byte `place`. -/
def before (place : Nat) : List Char → List Char
  | [] => []
  | c :: cs => if place = 0 then [] else c :: before (place - c.utf8Size) cs

theorem before_byteLength (cs ds : List Char) : before (byteLength cs) (cs ++ ds) = cs := by
  induction cs with
  | nil => cases ds <;> rfl
  | cons c cs ih =>
    have hc := c.utf8Size_pos
    have hne : c.utf8Size + byteLength cs ≠ 0 := by omega
    simp only [List.cons_append, byteLength, before, if_neg hne, Nat.add_sub_cancel_left, ih]

/-- The line that the end of a text is on. -/
def line (cs : List Char) : Nat :=
  cs.count '\n' + 1

/-- The column that the end of a text is at: one more than the characters since
the last line feed, or since the start. -/
def column (cs : List Char) : Nat :=
  (cs.reverse.takeWhile (· ≠ '\n')).length + 1

end ConstraintNet.Text
