import ConstraintNet.Term.Basic
import ConstraintNet.Text.Blank

/-! The grammar of terms, as texts.

    term      ::=  numeral  |  word ['{' parameter (',' parameter)* '}'] '(' [term (',' term)*] ')'  |  word
    parameter ::=  numeral  |  word

Every token may have blanks before and after it (`Spaced`); there are none inside
a word or a numeral. `Derives fits t text` says that the text is one of the term
`t`, where `fits` says which numerals have which values. Terms are read with
values that fit 64 bits (`InRange`). -/
namespace ConstraintNet.Grammar
open Text

/-! ### Tokens -/

def Blanks (cs : List Char) : Prop :=
  ∀ c ∈ cs, isBlank c = true

/-- A letter or an underscore, then letters, digits and underscores. -/
def IsWord (cs : List Char) : Prop :=
  ∃ c ds, cs = c :: ds ∧ (c.isAlpha = true ∨ c = '_') ∧ ∀ d ∈ ds, d.isAlphanum = true ∨ d = '_'

/-- A token with blanks before and after it. -/
def Spaced (token text : List Char) : Prop :=
  ∃ b a, Blanks b ∧ Blanks a ∧ text = b ++ token ++ a

/-! ### Lists -/

section Lists
variable {α : Type} (P : α → List Char → Prop)

/-- Any number of items, each after a comma. -/
inductive Following : List α → List Char → Prop where
  | nil : Following [] []
  | cons {a : α} {as : List α} {u v w : List Char} :
      Spaced [','] u → P a v → Following as w → Following (a :: as) (u ++ v ++ w)

/-- Any number of items with commas between. -/
inductive Listed : List α → List Char → Prop where
  | none : Listed [] []
  | some {a : α} {as : List α} {u v : List Char} : P a u → Following P as v → Listed (a :: as) (u ++ v)

/-- Any number of items with commas between, in brackets. -/
def Enclosed (opening closing : Char) (as : List α) (text : List Char) : Prop :=
  ∃ u v w, Spaced [opening] u ∧ Listed P as v ∧ Spaced [closing] w ∧ text = u ++ v ++ w

end Lists

/-! ### Parameters and terms -/

section Terms
variable (fits : List Char → Int64 → Prop)

/-- The text of a parameter. -/
inductive DerivesParameter : Parameter → List Char → Prop where
  | integer {n : List Char} {value : Int64} {w : List Char} :
      Decimal.IsNumeral n → fits n value → Spaced n w → DerivesParameter (.integer value) w
  | symbol {x w : List Char} : IsWord x → Spaced x w → DerivesParameter (.symbol (String.ofList x)) w

/-- Parameters in braces, or nothing if there are none. -/
def DerivesBlock (ps : List Parameter) (w : List Char) : Prop :=
  ps = [] ∧ w = [] ∨ ps ≠ [] ∧ Enclosed (DerivesParameter fits) '{' '}' ps w

/-- The text of a term. -/
inductive Derives : Term → List Char → Prop where
  | literal {n : List Char} {value : Int64} {w : List Char} :
      Decimal.IsNumeral n → fits n value → Spaced n w → Derives (.literal (String.ofList n) value) w
  | application {f : List Char} {ps : List Parameter} {ts : List Term} {u v w x y : List Char} :
      IsWord f → Spaced f u → DerivesBlock fits ps v →
      Spaced ['('] w → Listed Derives ts x → Spaced [')'] y →
      Derives (.application (String.ofList f) ps ts) (u ++ v ++ (w ++ x ++ y))
  | name {x w : List Char} : IsWord x → Spaced x w → Derives (.name (String.ofList x)) w

end Terms

/-- The numeral denotes the value, which is one of 64 bits. -/
def InRange (n : List Char) (value : Int64) : Prop :=
  Decimal.value n = value.toInt

instance (n : List Char) (value : Int64) : Decidable (InRange n value) :=
  inferInstanceAs (Decidable (Decimal.value n = value.toInt))

/-- A text of some term whose integers all fit 64 bits. -/
def IsText (text : List Char) : Prop :=
  ∃ t, Derives InRange t text

/-! ### Tokens with blanks -/

theorem blanks_nil : Blanks [] :=
  List.forall_mem_nil _

theorem isWord_letter {c : Char} (h : c.isAlpha = true) : IsWord [c] :=
  ⟨c, [], rfl, .inl h, List.forall_mem_nil _⟩

theorem Spaced.front {b : List Char} (hb : Blanks b) (token : List Char) : Spaced token (b ++ token) :=
  ⟨b, [], hb, blanks_nil, (List.append_nil _).symm⟩

theorem Spaced.refl (token : List Char) : Spaced token token :=
  Spaced.front blanks_nil token

/-- Blanks may be added at both ends. -/
theorem Spaced.pad {token w b a : List Char} (h : Spaced token w) (hb : Blanks b) (ha : Blanks a) :
    Spaced token (b ++ w ++ a) := by
  obtain ⟨b', a', hb', ha', rfl⟩ := h
  refine ⟨b ++ b', a' ++ a, ?_, ?_, by simp only [List.append_assoc]⟩
  · exact fun c hc => (List.mem_append.mp hc).elim (hb c) (hb' c)
  · exact fun c hc => (List.mem_append.mp hc).elim (ha' c) (ha c)

theorem Spaced.after {token w a : List Char} (h : Spaced token w) (ha : Blanks a) :
    Spaced token (w ++ a) := by
  have hpad := h.pad blanks_nil ha
  rwa [List.nil_append] at hpad

/-! ### Lists of other items -/

section Lists
variable {α : Type} {P : α → List Char → Prop}

/-- Every item of a list has a text. -/
theorem Following.exists_text {as : List α} {w : List Char} (h : Following P as w) :
    ∀ a ∈ as, ∃ v, P a v := by
  induction h with
  | nil => exact nofun
  | cons _ hitem _ ih =>
    intro b hb
    rcases List.mem_cons.mp hb with rfl | hb
    · exact ⟨_, hitem⟩
    · exact ih b hb

theorem Listed.exists_text {as : List α} {w : List Char} (h : Listed P as w) :
    ∀ a ∈ as, ∃ v, P a v := by
  cases h with
  | none => exact nofun
  | some hitem hrest =>
    intro b hb
    rcases List.mem_cons.mp hb with rfl | hb
    · exact ⟨_, hitem⟩
    · exact hrest.exists_text b hb

theorem Following.flatMap {text : α → List Char} {as : List α} (h : ∀ a ∈ as, P a (text a)) :
    Following P as (as.flatMap fun a => ',' :: text a) := by
  induction as with
  | nil => exact .nil
  | cons a as ih =>
    have hrest := ih fun b hb => h b (List.mem_cons_of_mem _ hb)
    exact .cons (.refl [',']) (h a (List.mem_cons_self ..)) hrest

theorem intercalate_comma (text : α → List Char) (a : α) (as : List α) :
    [','].intercalate ((a :: as).map text) = text a ++ as.flatMap fun b => ',' :: text b := by
  induction as generalizing a with
  | nil => exact (List.intercalate_singleton).trans (List.append_nil _).symm
  | cons b bs ih =>
    rw [List.map_cons, List.map_cons, List.intercalate_cons_cons, ← List.map_cons, ih,
      List.flatMap_cons, List.append_assoc]
    rfl

/-- Texts of items with commas between are a text of the list. -/
theorem Listed.intercalate {text : α → List Char} {as : List α} (h : ∀ a ∈ as, P a (text a)) :
    Listed P as ([','].intercalate (as.map text)) := by
  cases as with
  | nil => exact .none
  | cons a as =>
    rw [intercalate_comma]
    exact .some (h a (List.mem_cons_self ..)) (.flatMap fun b hb => h b (List.mem_cons_of_mem _ hb))

end Lists

/-- Blanks may be added after a term. -/
theorem Derives.after {fits : List Char → Int64 → Prop} {t : Term} {w a : List Char}
    (h : Derives fits t w) (ha : Blanks a) : Derives fits t (w ++ a) := by
  cases h with
  | literal hn hvalue hw => exact .literal hn hvalue (hw.after ha)
  | @application f ps ts u v w x y hf hu hblock hopening hlist hclosing =>
    rw [List.append_assoc (u ++ v), List.append_assoc (w ++ x)]
    exact .application hf hu hblock hopening hlist (hclosing.after ha)
  | name hx hw => exact .name hx (hw.after ha)

end ConstraintNet.Grammar
