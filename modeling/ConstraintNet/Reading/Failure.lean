import ConstraintNet.Text.Position

/-! Why a text could not be read.

A reader that stops short of success leaves a `Failure`: what it complains about,
the stretch of text it complains of, and the place that ranks it among others. A
reader with alternatives meets many failures and reports one of them: the one
ranked furthest (`Failure.furthest`). Of two at one place the older keeps its
stretch; what the two would have accepted is put together, and a number out of
range takes precedence over everything that was merely not expected. -/
namespace ConstraintNet.Reading
open Text (Span)

/-- What a reader would have accepted. -/
inductive Expectation where
  | character (c : Char)
  | digit
  | identifier
  /-- Whatever comes next, at the end of a text that must go on. -/
  | any
  | endOfInput
deriving DecidableEq, Repr

def Expectation.text : Expectation → String
  | .character c => "'" ++ String.singleton c ++ "'"
  | .digit => "digit"
  | .identifier => "identifier"
  | .any => "any"
  | .endOfInput => "end of input"

inductive Complaint where
  /-- A numeral whose integer does not fit. -/
  | outOfRange (numeral : String)
  /-- A character, or the end of the text, where something else was expected. -/
  | unexpected (found : Option Char) (expected : List Expectation)
deriving DecidableEq, Repr

namespace Complaint

/-- Alternatives in a row: `a`, or `a, or b`, or `a, b, or c`. -/
def alternatives : List Expectation → String
  | [] => ""
  | [e] => e.text
  | e :: es => e.text ++ ", " ++ further es
where
  further : List Expectation → String
    | [] => ""
    | [e] => "or " ++ e.text
    | e :: es => e.text ++ ", " ++ further es

def foundText : Option Char → String
  | none => "end of input"
  | some c => "'" ++ String.singleton c ++ "'"

def text : Complaint → String
  | .outOfRange numeral => "integer literal '" ++ numeral ++ "' is out of range"
  | .unexpected found expected => "found " ++ foundText found ++ " expected " ++ alternatives expected

/-- Two complaints of one place, the older first. -/
def join : Complaint → Complaint → Complaint
  | .unexpected found expected, .unexpected _ others =>
    .unexpected found (expected ++ others.filter (· ∉ expected))
  | .unexpected _ _, .outOfRange numeral => .outOfRange numeral
  | .outOfRange numeral, _ => .outOfRange numeral

end Complaint

structure Failure where
  /-- What ranks the failure: the place where it happened, except that a failure
  inside a numeral counts as one of the place where the numeral starts. -/
  place : Nat
  span : Span
  complaint : Complaint
deriving DecidableEq, Repr

namespace Failure

/-- What is left to report of a pending failure, if there is one, and a new one. -/
def furthest (pending : Option Failure) (f : Failure) : Failure :=
  match pending with
  | none => f
  | some p =>
    if p.place < f.place then f
    else if f.place < p.place then p
    else {p with complaint := p.complaint.join f.complaint}

theorem furthest_of_lt {p f : Failure} (h : p.place < f.place) : furthest (some p) f = f :=
  if_pos h

theorem furthest_of_gt {p f : Failure} (h : f.place < p.place) : furthest (some p) f = p := by
  rw [furthest, if_neg (Nat.lt_asymm h), if_pos h]

theorem furthest_of_eq {p f : Failure} (h : p.place = f.place) :
    furthest (some p) f = {p with complaint := p.complaint.join f.complaint} := by
  rw [furthest, if_neg (by omega), if_neg (by omega)]

/-- Nothing further away is ever given up. -/
theorem place_furthest (p f : Failure) : (furthest (some p) f).place = max p.place f.place := by
  rcases Nat.lt_trichotomy p.place f.place with h | h | h
  · rw [furthest_of_lt h]
    omega
  · rw [furthest_of_eq h]
    show p.place = _
    omega
  · rw [furthest_of_gt h]
    omega

end Failure

end ConstraintNet.Reading
