import ConstraintNet.Proofs.Reading.Spans

/-! Where an error is.

The location of an error is told three times: by its span in bytes, by its line and by
its column. The span is that of a part of the text, which is nothing at its end, one
character, or a numeral out of range; and stepping to the line and the column in the
text leads to where the span starts, and nowhere else (`Term.parse_error_located`).

That goes for every place between two characters: its line and its column lead back to
it (`Text.placeAt?_line_column`), whatever the characters take in bytes. -/
namespace ConstraintNet

namespace Text

/-! ### Lines and columns -/

/-- The place that one comes to by stepping to a line and then to a column, both from one.
There is none if the text, or the line, ends before. -/
def placeAt? (line column : Nat) : List Char → Option Nat
  | [] => if line = 1 ∧ column = 1 then some 0 else none
  | c :: cs =>
    if line = 1 then
      if column = 1 then some 0
      else if c = '\n' then none
      else (placeAt? 1 (column - 1) cs).map (c.utf8Size + ·)
    else (placeAt? (if c = '\n' then line - 1 else line) column cs).map (c.utf8Size + ·)

theorem line_cons (c : Char) (cs : List Char) :
    line (c :: cs) = if c = '\n' then line cs + 1 else line cs := by
  rw [line, line, List.count_cons]
  by_cases hc : c = '\n' <;> simp [hc]

theorem line_eq_one_iff {cs : List Char} : line cs = 1 ↔ '\n' ∉ cs := by
  rw [line, Nat.add_eq_right, List.count_eq_zero]

/-- The column is counted in what stands behind the last line feed. -/
theorem exists_column (cs : List Char) :
    ∃ v w, cs = v ++ w ∧ (v = [] ∨ v.getLast? = some '\n') ∧ '\n' ∉ w ∧ column cs = w.length + 1 := by
  refine ⟨(cs.reverse.dropWhile (· ≠ '\n')).reverse, (cs.reverse.takeWhile (· ≠ '\n')).reverse,
    ?_, ?_, ?_, ?_⟩
  · rw [← List.reverse_append, List.takeWhile_append_dropWhile, List.reverse_reverse]
  · rw [List.reverse_eq_nil_iff, List.getLast?_reverse]
    cases hrest : cs.reverse.dropWhile (· ≠ '\n') with
    | nil => exact .inl rfl
    | cons c r =>
      have hc := List.head?_dropWhile_not (fun d : Char => d ≠ '\n') cs.reverse
      rw [hrest] at hc
      exact .inr (by simpa using hc)
  · intro hmem
    have hne := List.all_eq_true.mp List.all_takeWhile _ (List.mem_reverse.mp hmem)
    simp at hne
  · rw [column, List.length_reverse]

/-- On the first line the column is that of the end of the text. -/
theorem column_of_notMem {cs : List Char} (h : '\n' ∉ cs) : column cs = cs.length + 1 := by
  obtain ⟨v, w, rfl, hv, -, hcolumn⟩ := exists_column cs
  rcases hv with rfl | hv
  · exact hcolumn
  · exact absurd (List.mem_append_left w (List.mem_of_getLast? hv)) h

/-- A character in front of a line feed makes no difference to the column. -/
theorem column_cons_of_mem {cs : List Char} (h : '\n' ∈ cs) (c : Char) :
    column (c :: cs) = column cs := by
  rw [column, column, List.reverse_cons, List.takeWhile_append, if_neg]
  intro hlength
  have hmem : '\n' ∈ cs.reverse.takeWhile (· ≠ '\n') := by
    rw [(List.takeWhile_prefix _).eq_of_length hlength]
    exact List.mem_reverse.mpr h
  have hne := List.all_eq_true.mp List.all_takeWhile _ hmem
  simp at hne

theorem placeAt?_one {cs : List Char} (h : '\n' ∉ cs) (ds : List Char) :
    placeAt? 1 (cs.length + 1) (cs ++ ds) = some (byteLength cs) := by
  induction cs with
  | nil => cases ds <;> rfl
  | cons c cs ih =>
    obtain ⟨hc, hcs⟩ := List.ne_and_not_mem_of_not_mem_cons h
    rw [List.cons_append, placeAt?, if_pos rfl, if_neg (by simp), if_neg hc.symm,
      List.length_cons, Nat.add_sub_cancel, ih hcs, Option.map_some, byteLength]

/-- Line and column of a place lead back to it. -/
theorem placeAt?_line_column (cs ds : List Char) :
    placeAt? (line cs) (column cs) (cs ++ ds) = some (byteLength cs) := by
  by_cases hmem : '\n' ∈ cs
  · induction cs with
    | nil => cases hmem
    | cons c cs ih =>
      have hline : line (c :: cs) ≠ 1 := fun hone => line_eq_one_iff.mp hone hmem
      rw [List.cons_append, placeAt?, if_neg hline, line_cons, byteLength]
      by_cases hcs : '\n' ∈ cs
      · rw [column_cons_of_mem hcs]
        by_cases hc : c = '\n'
        · rw [if_pos hc, if_pos hc, Nat.add_sub_cancel, ih hcs, Option.map_some]
        · rw [if_neg hc, if_neg hc, ih hcs, Option.map_some]
      · -- It is the only line feed, so what is left is the line that the place is on.
        obtain rfl : '\n' = c := (List.mem_cons.mp hmem).resolve_right hcs
        have hcolumn : column ('\n' :: cs) = cs.length + 1 := by
          rw [column, List.reverse_cons, List.takeWhile_append_of_pos]
          · simp
          · intro d hd
            simp only [decide_eq_true_eq]
            rintro rfl
            exact hcs (List.mem_reverse.mp hd)
        rw [if_pos rfl, if_pos rfl, Nat.add_sub_cancel, line_eq_one_iff.mpr hcs, hcolumn,
          placeAt?_one hcs, Option.map_some]
  · rw [line_eq_one_iff.mpr hmem, column_of_notMem hmem]
    exact placeAt?_one hmem ds

end Text

open Text (byteLength byteLength_append before_byteLength placeAt? placeAt?_line_column)
open Reading (Points wholeText_refused_in)

/-! ### Errors -/

/-- What is nested too deep is nested in a parenthesis. -/
theorem overnested_eq_some {limit depth offset place : Nat} {cs : List Char}
    (h : overnested limit depth offset cs = some place) :
    ∃ u z, cs = u ++ '(' :: z ∧ place = offset + byteLength u := by
  induction cs generalizing depth offset with
  | nil => cases h
  | cons c cs ih =>
    have hnext : ∀ {depth : Nat}, overnested limit depth (offset + c.utf8Size) cs = some place →
        ∃ u z, c :: cs = u ++ '(' :: z ∧ place = offset + byteLength u := by
      intro depth h
      obtain ⟨u, z, rfl, rfl⟩ := ih h
      exact ⟨c :: u, z, rfl, by rw [byteLength, Nat.add_assoc]⟩
    rw [overnested] at h
    split at h
    · next hc =>
      split at h
      · exact hnext h
      · cases h
        exact ⟨[], cs, by rw [hc]; rfl, rfl⟩
    · split at h
      · exact hnext h
      · exact hnext h

namespace ParseError

/-- The span of the error is that of a part of the text, and it starts at the line and the
column of the error. -/
structure Located (e : ParseError) (u x z : List Char) : Prop where
  start : e.span.start = byteLength u
  stop : e.span.stop = byteLength (u ++ x)
  /-- The part is nothing at the end of the text, a character, or a numeral out of range. -/
  points : Points u x z
  line : e.line = u.count '\n' + 1
  /-- Columns are counted in characters from the start of the line. -/
  column : ∃ v w, u = v ++ w ∧ (v = [] ∨ v.getLast? = some '\n') ∧ '\n' ∉ w ∧ e.column = w.length + 1
  /-- Stepping to the line and the column leads to the start of the span, -/
  back : placeAt? e.line e.column (u ++ x ++ z) = some e.span.start
  /-- and no other place has this line and this column. -/
  only : ∀ v w, u ++ x ++ z = v ++ w → Text.line v = e.line → Text.column v = e.column →
    byteLength v = e.span.start

theorem located_locate {u x z : List Char} (h : Points u x z) (cause : Cause) :
    (locate (u ++ x ++ z) cause ⟨byteLength u, byteLength (u ++ x)⟩).Located u x z := by
  have hbefore : Text.before (byteLength u) (u ++ x ++ z) = u := by
    rw [List.append_assoc, before_byteLength]
  have hline : (locate (u ++ x ++ z) cause ⟨byteLength u, byteLength (u ++ x)⟩).line =
      Text.line u := congrArg Text.line hbefore
  have hcolumn : (locate (u ++ x ++ z) cause ⟨byteLength u, byteLength (u ++ x)⟩).column =
      Text.column u := congrArg Text.column hbefore
  refine ⟨rfl, rfl, h, hline, ?_, ?_, ?_⟩
  · rw [hcolumn]
    exact Text.exists_column u
  · rw [hline, hcolumn, List.append_assoc, placeAt?_line_column]
    rfl
  · intro v w hsplit hv hv'
    rw [hline] at hv
    rw [hcolumn] at hv'
    have hu := placeAt?_line_column u (x ++ z)
    rw [← List.append_assoc, hsplit, ← hv, ← hv', placeAt?_line_column] at hu
    exact Option.some.inj hu

end ParseError

namespace Term

/-- **Every error is located.** Whatever is wrong with a text, the span of the error is that
of a part of the text, and its line and its column lead to the start of that part. -/
theorem parse_error_located {s : String} {e : ParseError} (h : parse s = .error e) :
    e.span.start ≤ e.span.stop ∧ e.span.stop ≤ byteLength s.toList ∧
      ∃ u x z, s.toList = u ++ x ++ z ∧ e.Located u x z := by
  have hpart : ∃ u x z, s.toList = u ++ x ++ z ∧ e.Located u x z := by
    unfold parse at h
    split at h
    · next place hplace =>
      obtain ⟨u, z, hs, hu⟩ := overnested_eq_some hplace
      rw [Nat.zero_add] at hu
      have hone : byteLength (u ++ ['(']) = place + 1 := by rw [byteLength_append, hu]; rfl
      have hsplit : s.toList = u ++ ['('] ++ z := by rw [hs, List.append_assoc]; rfl
      refine ⟨u, ['('], z, hsplit, ?_⟩
      rw [← Except.error.inj h, hsplit, ← hone, hu]
      exact ParseError.located_locate (.character u '(' z) _
    · split at h
      · cases h
      · next f hf =>
        obtain ⟨u, x, z, hsplit, hspan, hpoints⟩ := wholeText_refused_in hf
        refine ⟨u, x, z, hsplit, ?_⟩
        rw [← Except.error.inj h, hsplit, hspan]
        exact ParseError.located_locate hpoints _
  obtain ⟨u, x, z, hsplit, hlocated⟩ := hpart
  refine ⟨?_, ?_, u, x, z, hsplit, hlocated⟩
  · rw [hlocated.start, hlocated.stop, byteLength_append]
    exact Nat.le_add_right ..
  · rw [hlocated.stop, hsplit, byteLength_append (u ++ x)]
    exact Nat.le_add_right ..

/-- A numeral out of range, on the second line behind a blank that takes three bytes. -/
theorem parse_error_located_add :
    ∃ e, parse "add(x,\n\u2003-9223372036854775809)" = .error e ∧ e.span = ⟨10, 30⟩ ∧
      e.line = 2 ∧ e.column = 2 ∧ ∃ u x z, "add(x,\n\u2003-9223372036854775809)".toList = u ++ x ++ z ∧
        e.Located u x z := by
  have herror : parse "add(x,\n\u2003-9223372036854775809)" =
      .error ⟨.grammar (.outOfRange "-9223372036854775809"), ⟨10, 30⟩, 2, 2⟩ := by
    decide +kernel
  exact ⟨_, herror, rfl, rfl, rfl, (parse_error_located herror).2.2⟩

end Term

end ConstraintNet
