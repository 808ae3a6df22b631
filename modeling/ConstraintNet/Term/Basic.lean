import ConstraintNet.Text.Decimal

/-! Terms.

A term is a name, an integer literal, or an operator applied to operands that are
terms again. An operator may carry parameters, integers or symbols that configure
it; they are no operands, and a leaf has none. A literal keeps the text it was
written with beside its value, so `7` and `007` are different terms.

Nothing about the texts in a term is promised: a term may be built by hand from
any name, and a literal from any text and any value. -/
namespace ConstraintNet

/-- What configures an operator. -/
inductive Parameter where
  | integer (value : Int64)
  | symbol (name : String)
deriving DecidableEq, Repr

inductive Term where
  | name (text : String)
  | literal (text : String) (value : Int64)
  | application (operator : String) (parameters : List Parameter) (operands : List Term)
deriving Repr, Inhabited

namespace Term

/-- The literal of a value with the shortest text. -/
def integer (value : Int64) : Term :=
  .literal (Text.Decimal.text value.toInt) value

/-! ### Parts -/

/-- The text at the root: a name, a literal as written, or an operator. -/
def text : Term → String
  | .name text => text
  | .literal text _ => text
  | .application operator _ _ => operator

def value? : Term → Option Int64
  | .literal _ value => some value
  | _ => none

def parameters : Term → List Parameter
  | .application _ parameters _ => parameters
  | _ => []

def operands : Term → List Term
  | .application _ _ operands => operands
  | _ => []

/-- Names and literals are leaves; an application is none, even of no operands. -/
def isLeaf : Term → Bool
  | .application .. => false
  | _ => true

/-! ### Size -/

mutual

/-- The terms on the longest way down, both ends counted. -/
def depth : Term → Nat
  | .name _ => 1
  | .literal _ _ => 1
  | .application _ _ operands => 1 + deepest operands

/-- The depth of the deepest of some terms, zero if there is none. -/
def deepest : List Term → Nat
  | [] => 0
  | term :: terms => max term.depth (deepest terms)

end

mutual

/-- The leaves in a term. -/
def leaves : Term → Nat
  | .name _ => 1
  | .literal _ _ => 1
  | .application _ _ operands => leavesOf operands

/-- The leaves in some terms together. -/
def leavesOf : List Term → Nat
  | [] => 0
  | term :: terms => term.leaves + leavesOf terms

end

mutual

/-- A term and all terms in it, each before its operands and those from left to right. -/
def subterms : Term → List Term
  | .name text => [.name text]
  | .literal text value => [.literal text value]
  | .application operator parameters operands =>
    .application operator parameters operands :: subtermsOf operands

/-- The subterms of some terms, from left to right. -/
def subtermsOf : List Term → List Term
  | [] => []
  | term :: terms => term.subterms ++ subtermsOf terms

end

/-! ### Equality

Two terms are equal when they are of one kind with equal texts, values and
parameters, and their operands are equal in order. -/

mutual

/-- Compares roots before operands. -/
def decEq : (s t : Term) → Decidable (s = t)
  | .name x, .name y => decidable_of_iff (x = y) (by simp)
  | .literal x v, .literal y w => decidable_of_iff (x = y ∧ v = w) (by simp)
  | .application f ps ss, .application g qs ts =>
    if h : f = g ∧ ps = qs then
      match decEqList ss ts with
      | isTrue hs => isTrue (by rw [h.1, h.2, hs])
      | isFalse hs => isFalse fun e => hs (Term.application.inj e).2.2
    else isFalse fun e => h ⟨(Term.application.inj e).1, (Term.application.inj e).2.1⟩
  | .name _, .literal _ _ => isFalse Term.noConfusion
  | .name _, .application _ _ _ => isFalse Term.noConfusion
  | .literal _ _, .name _ => isFalse Term.noConfusion
  | .literal _ _, .application _ _ _ => isFalse Term.noConfusion
  | .application _ _ _, .name _ => isFalse Term.noConfusion
  | .application _ _ _, .literal _ _ => isFalse Term.noConfusion

/-- Compares operands from left to right. -/
def decEqList : (ss ts : List Term) → Decidable (ss = ts)
  | [], [] => isTrue rfl
  | [], _ :: _ => isFalse (by simp)
  | _ :: _, [] => isFalse (by simp)
  | s :: ss, t :: ts =>
    match decEq s t with
    | isTrue h =>
      match decEqList ss ts with
      | isTrue hs => isTrue (by rw [h, hs])
      | isFalse hs => isFalse fun e => hs (List.cons.inj e).2
    | isFalse h => isFalse fun e => h (List.cons.inj e).1

end

instance : DecidableEq Term := decEq

/-! ### Leaves and operands -/

theorem isLeaf_eq_false_iff (t : Term) :
    t.isLeaf = false ↔ ∃ f ps ts, t = .application f ps ts := by
  cases t <;> simp [isLeaf]

theorem depth_pos (t : Term) : 0 < t.depth := by
  cases t <;> simp only [depth] <;> omega

/-! ### Leaves and depth -/

mutual

/-- The leaves in a term are those of its subterms that are leaves. -/
theorem leaves_eq_countP : ∀ t : Term, t.leaves = t.subterms.countP isLeaf
  | .name _ => rfl
  | .literal _ _ => rfl
  | .application f ps ts => by
    have hroot : ¬(application f ps ts).isLeaf := Bool.false_ne_true
    rw [leaves, subterms, List.countP_cons_of_neg hroot, leavesOf_eq_countP ts]

theorem leavesOf_eq_countP : ∀ ts : List Term, leavesOf ts = (subtermsOf ts).countP isLeaf
  | [] => rfl
  | t :: ts => by
    rw [leavesOf, subtermsOf, List.countP_append, leaves_eq_countP t, leavesOf_eq_countP ts]

end

theorem depth_eq (t : Term) : t.depth = 1 + deepest t.operands := by
  cases t <;> rfl

theorem depth_le_deepest {t : Term} {ts : List Term} (h : t ∈ ts) : t.depth ≤ deepest ts := by
  induction ts with
  | nil => cases h
  | cons u ts ih =>
    rw [deepest]
    cases h with
    | head => exact Nat.le_max_left ..
    | tail _ h => exact Nat.le_trans (ih h) (Nat.le_max_right ..)

/-- One of some terms is the deepest. -/
theorem exists_deepest {ts : List Term} (h : ts ≠ []) : ∃ t ∈ ts, t.depth = deepest ts := by
  induction ts with
  | nil => exact absurd rfl h
  | cons u ts ih =>
    rw [deepest]
    by_cases hrest : deepest ts ≤ u.depth
    · exact ⟨u, List.mem_cons_self, (Nat.max_eq_left hrest).symm⟩
    · have hne : ts ≠ [] := by
        rintro rfl
        exact hrest (Nat.zero_le _)
      obtain ⟨t, ht, hdepth⟩ := ih hne
      refine ⟨t, List.mem_cons_of_mem u ht, ?_⟩
      rw [hdepth, Nat.max_eq_right (Nat.le_of_not_le hrest)]

end Term

end ConstraintNet
