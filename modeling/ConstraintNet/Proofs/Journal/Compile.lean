import ConstraintNet.Proofs.Journal.Notes
import ConstraintNet.Proofs.Layout.Entries

/-! The journal of a session.

A network notes the names that are new to it, and a session the results that it defines and
each root. What it notes for a text is what there is to note for the term of the text
(`Lowering.operand_notes`): whenever a place in the row of the term is reached, all that
stands before it is registered, so a name is new to the network just if it is added there.

So the journal and the network tell the same story, down to the words, whatever the session was
asked for before (`Network.hold_compile_tells`). -/
namespace ConstraintNet

/-! ### Networks -/

namespace Network

/-- Only what has a name is noted when it is registered. -/
theorem events_addVariable (n : Network) {x : Variable} (hx : x.name? = none) :
    (Store.addVariable n x).events = [] := by
  cases x with
  | named name => cases hx
  | auxiliary => rfl
  | constant value => rfl

theorem events_intern (n : Network) (name : String) :
    (Store.intern n name).events = if Store.find? n name = none then [.registering name] else [] := by
  show (n.intern name).events = if n.find? name = none then [.registering name] else []
  unfold intern
  cases n.find? name with
  | none => rfl
  | some v => rfl

end Network

namespace Lowering
variable {s : Session Network} {g : Ground} {os : List Origin} {ds : List Draft} {b : Site}
  {row : List Term}

theorem journal_introduce (l : Lowering Network) {x : Variable} (hx : x.name? = none) :
    (l.introduce x).2.journal = l.journal := by
  show l.journal ++ (Store.addVariable l.store x).events = l.journal
  rw [l.store.events_addVariable hx]
  exact Array.append_empty

/-- A literal is not noted. It is counted if there is a new constant for it. -/
theorem constant_notes (h : s.Realises g os ds) (hb : Ahead os b) {text : String} {value : Int64}
    {p : Nat} {l : Lowering Network} {ds' : List Draft}
    (hl : l.Realises g (g.reached os b row p) ds') :
    (l.constant value).2.journal = l.journal ∧
      (l.constant value).2.auxiliaries = l.auxiliaries +
        (s.added? (row.take p) (.literal text value)).toList.countP Variable.isAuxiliary := by
  have hadded : s.added? (row.take p) (.literal text value) = none ↔
      g.constant (b.shift p) value ∈ g.reached os b row p := h.added?_eq_none_iff hb
  have hjournal := l.journal_introduce (x := .constant value) rfl
  have hcount : s.added? (row.take p) (.literal text value) ≠ none →
      (s.added? (row.take p) (.literal text value)).toList.countP Variable.isAuxiliary = 1 := by
    intro hne
    obtain ⟨x, hx⟩ := Option.ne_none_iff_exists'.mp hne
    rw [hx, Session.added?_eq hx]
    rfl
  cases hg : g.sharing with
  | perOccurrence =>
    have hnew : s.added? (row.take p) (.literal text value) ≠ none := by
      rw [ne_eq, hadded, Ground.constant_perOccurrence hg]
      exact (Ground.ahead_reached hb p).notMem rfl
    rw [constant_perOccurrence (hl.sharing.trans hg), hcount hnew]
    exact ⟨hjournal, rfl⟩
  | perValue =>
    have hfound := hl.constants hg value
    rw [Ground.constant_perValue hg] at hadded
    by_cases hmem : g.shared value ∈ g.reached os b row p
    · rw [numberOf?_of_mem hmem] at hfound
      rw [constant_found (hl.sharing.trans hg) hfound, hadded.mpr hmem]
      exact ⟨rfl, rfl⟩
    · rw [numberOf?_of_notMem hmem] at hfound
      rw [constant_new (hl.sharing.trans hg) hfound, hcount (mt hadded.mp hmem)]
      exact ⟨hjournal, rfl⟩

mutual

/-- What is noted for an operand is what there is to note for it, and it is counted what is
added for it besides names. -/
theorem operand_notes (h : s.Realises g os ds) (hb : Ahead os b) : ∀ (t : Term) {p : Nat}
    {l : Lowering Network} {ds' : List Draft}, Term.StandAt row p t.subterms →
    l.Realises g (g.reached os b row p) ds' →
    (operand t l).2.journal.toList = l.journal.toList ++ s.notes row t p ∧
      (operand t l).2.auxiliaries =
        l.auxiliaries + (s.additions (row.take p) t.subterms).countP Variable.isAuxiliary
  | .name x, p, l, _, hp, hl => by
    have hadded : s.added? (row.take p) (.name x) = none ↔ g.name x ∈ g.reached os b row p :=
      h.added?_eq_none_iff hb
    have hfind : Store.find? l.store x = none ↔ ¬s.added? (row.take p) (.name x) = none := by
      rw [hl.store.names x, numberOf?_eq_none_iff, hadded]
    have hjournal : (operand (.name x) l).2.journal.toList =
        l.journal.toList ++ (Store.intern l.store x).events :=
      Array.toList_appendList
    rw [hjournal, l.store.events_intern, Session.notes, Term.subterms, Session.additions,
      Session.additions, List.append_nil]
    cases hx : s.added? (row.take p) (.name x) with
    | none =>
      rw [hx] at hfind
      rw [if_pos rfl, if_neg fun hnone => hfind.mp hnone rfl]
      exact ⟨rfl, rfl⟩
    | some y =>
      rw [hx] at hfind
      rw [if_neg (Option.some_ne_none y), if_pos (hfind.mpr (Option.some_ne_none y)),
        Session.added?_eq hx]
      exact ⟨rfl, rfl⟩
  | .literal _ value, p, l, _, hp, hl => by
    obtain ⟨hjournal, hcount⟩ := constant_notes h hb hl
    rw [Session.notes, Term.subterms, Session.additions, Session.additions, List.append_nil,
      List.append_nil]
    exact ⟨congrArg Array.toList hjournal, hcount⟩
  | .application f ps ts, p, l, ds', hp, hl => by
    have hresult := (operand_reaches h hb hp hl).2
    obtain ⟨hjournal, hcount⟩ := operands_notes h hb ts hp.tail (result_reaches hb hp hl)
    have hadded : s.added? (row.take p) (.application f ps ts) = some .auxiliary := by
      simp [Session.added?, Session.held?, Session.shares, Term.entry]
    have hintroduce := l.journal_introduce (x := .auxiliary) rfl
    have hdefine : (operand (.application f ps ts) l).2.journal =
        (operands ts (l.introduce .auxiliary).2).2.journal.push
          (.defining (l.introduce .auxiliary).1 (.application f ps ts)) :=
      Array.append_empty
    have hid : (l.introduce .auxiliary).1 = s.numberAt row p := hresult
    rw [Session.notes, Term.subterms, Session.additions, hadded, hp.take_concat, hdefine, hid,
      Array.toList_push, hjournal, hintroduce, List.append_assoc, List.countP_append]
    refine ⟨rfl, hcount.trans ?_⟩
    show l.auxiliaries + 1 + _ = l.auxiliaries + (1 + _)
    rw [Nat.add_assoc]

theorem operands_notes (h : s.Realises g os ds) (hb : Ahead os b) : ∀ (ts : List Term) {p : Nat}
    {l : Lowering Network} {ds' : List Draft}, Term.StandAt row p (Term.subtermsOf ts) →
    l.Realises g (g.reached os b row p) ds' →
    (operands ts l).2.journal.toList = l.journal.toList ++ s.notesOf row ts p ∧
      (operands ts l).2.auxiliaries =
        l.auxiliaries + (s.additions (row.take p) (Term.subtermsOf ts)).countP Variable.isAuxiliary
  | [], _, _, _, _, _ => ⟨(List.append_nil _).symm, rfl⟩
  | t :: ts, p, l, _, hp, hl => by
    rw [Term.subtermsOf] at hp
    obtain ⟨hjournal, hcount⟩ := operand_notes h hb t hp.left hl
    obtain ⟨hnext, -⟩ := operand_reaches h hb hp.left hl
    obtain ⟨hjournal', hcount'⟩ := operands_notes h hb ts hp.right hnext
    have htake := hp.left.take_append
    rw [Session.notesOf, Term.subtermsOf, Session.additions_append, htake, List.countP_append,
      ← List.append_assoc, ← Nat.add_assoc, ← hjournal, ← hcount]
    exact ⟨hjournal', hcount'⟩

end

/-- The root is noted last, with what has been counted. -/
theorem journal_root (l : Lowering Network) (f : String) (ps : List Parameter) (ts : List Term) :
    (root f ps ts l).2.journal.toList = (operands ts l).2.journal.toList ++
      [.compiled (.application f ps ts) (operands ts l).2.auxiliaries] := by
  have hjournal : (root f ps ts l).2.journal = (operands ts l).2.journal.push
      (.compiled (.application f ps ts) (operands ts l).2.auxiliaries) :=
    congrArg (Array.push · _) Array.append_empty
  rw [hjournal, Array.toList_push]

end Lowering

/-! ### Sessions -/

/-- What the session `s` tells for the term `t` is what becomes of its network, with `s'` the
session after it. -/
structure Session.Tells (s : Session Network) (t : Term) (s' : Session Network) : Prop where
  /-- The root comes last, with its size and the number of results and constants that are added. -/
  journal : ∃ k, s'.journal.toList =
      s.journal.toList ++ (s.notesOf t.row t.operands 0 ++ [.compiled t k]) ∧
    s'.store.auxiliaryVariables.length = s.store.auxiliaryVariables.length + k ∧
    (Event.compiled t k).told = (.debug, "compiled '" ++ t.canonical ++ "' ("
      ++ Text.Decimal.text t.operands.length ++ " operands, "
      ++ Text.Decimal.text t.leaves ++ " leaves, depth " ++ Text.Decimal.text t.depth ++ ") with "
      ++ Text.Decimal.text k ++ " auxiliary variables")
  /-- The leaves of the root are those in the row. -/
  leaves : t.leaves = t.row.countP Term.isLeaf
  /-- It is as deep as the longest way down has terms. -/
  depth : IsGreatest {n | ∃ us, t.WayDown us ∧ us.length + 1 = n} t.depth
  /-- Before the root there are traces, each of a name or of an application. -/
  traces : ∀ e ∈ s.notesOf t.row t.operands 0, e.IsTrace
  vars : s'.store.vars.toList = s.store.vars.toList ++ s.additions [] t.row
  /-- The names that are noted are those of the variables that are added, in order. -/
  names : (s.notesOf t.row t.operands 0).filterMap Event.registered? =
    (s.additions [] t.row).filterMap Variable.name?
  constraints : s'.store.constraints.toList =
    s.store.constraints.toList ++ t.constraints (s.numberAt t.row)
  /-- The applications that are noted are those of the constraints below the root, in order,
  each with the number of its result. -/
  applications : (s.notesOf t.row t.operands 0).filterMap Event.defined? =
    (Term.applicationsOf t.operands 0).map fun a => (s.numberAt t.row a.2, a.1)
  /-- An application comes right behind all that its operands bring about. -/
  order : ∀ a ∈ Term.applicationsOf t.operands 0,
    s.notesOf t.row a.1.operands (a.2 + 1) ++ [.defining (s.numberAt t.row a.2) a.1] <:+:
      s.notesOf t.row t.operands 0

/-- There are so many variables of a kind as in the list. -/
theorem Network.length_variablesThat (n : Network) (p : Variable → Bool) :
    (n.variablesThat p).length = n.vars.toList.countP p := by
  conv_rhs => rw [← List.zipIdx_map_fst 0 n.vars.toList, List.countP_map, List.countP_eq_length_filter]
  rw [variablesThat, List.length_map]
  rfl

/-- A text is noted as it is laid out. -/
theorem Session.Realises.tells {s : Session Network} {g : Ground} {os : List Origin}
    {ds : List Draft} {i : Nat} {text : String} {t : Term} (h : s.Realises g os ds)
    (hi : NewText i os ds) (ht : stated text = .ok t) : s.Tells t (s.compile text).2 := by
  have hb := hi.ahead 1
  have hrow := Term.standAt_self t.row
  have hvars := h.toList_vars hb (h.compile_row hi ht).store
  have hconstraints := h.toList_constraints hi ht
  have hstart : Session.Realises g (Lowering.mk s 0).toSession (g.reached os ⟨i, 1⟩ t.row 0) ds := by
    rw [Ground.reached_zero]
    exact h
  obtain ⟨hnotes, hcount⟩ := Lowering.operands_notes h hb t.operands hrow hstart
  obtain ⟨f, ps, ts, rfl⟩ := (Term.isLeaf_eq_false_iff t).mp (stated_eq_ok_iff.mp ht).2
  refine ⟨⟨(s.additions [] (Term.application f ps ts).row).countP Variable.isAuxiliary, ?journal,
    ?auxiliaries, rfl⟩, Term.leavesOf_eq_countP ts, Term.isGreatest_depth _,
    fun e => isTrace_of_mem_notesOf ts, hvars, registered_notesOf ts hrow, hconstraints,
    defined_notesOf ts 0, fun a => notesOf_behind ts⟩
  case journal =>
    have hroot := Lowering.journal_root (Lowering.mk s 0) f ps ts
    have hcount' : (Lowering.operands ts (Lowering.mk s 0)).2.auxiliaries =
        (s.additions [] (Term.application f ps ts).row).countP Variable.isAuxiliary :=
      hcount.trans (Nat.zero_add _)
    rw [s.compile_of_ok ht, ← List.append_assoc, ← hcount']
    exact hroot.trans (congrArg (· ++ _) hnotes)
  case auxiliaries =>
    rw [Network.auxiliaryVariables, Network.length_variablesThat, Network.auxiliaryVariables,
      Network.length_variablesThat, ← List.countP_append]
    exact congrArg _ hvars

/-- **The journal is what happens to the network.** Whatever a session was asked for before, a
text in error is not noted. Of any other text it is told what is added for it, and of the root
its size. -/
theorem Network.hold_compile_tells {n : Network} (hreachable : Store.Reachable n)
    (sharing : Sharing) (requests : List Request) {s : Session Network}
    (hs : (Store.hold n sharing requests).2 = s) (text : String) :
    (∀ e, (s.compile text).1 = .error e → (s.compile text).2.journal = s.journal) ∧
    ∀ c, (s.compile text).1 = .ok c →
      ∃ t, Term.parse text = .ok t ∧ s.Tells t (s.compile text).2 := by
  obtain ⟨_, ds, i, -, h, hi⟩ := Store.hold_realises hreachable sharing requests
  rw [hs] at h
  constructor
  · intro e he
    rw [s.compile_of_error (s.compile_error_iff.mp he)]
  · intro c hc
    obtain ⟨t, ht⟩ := s.exists_stated hc
    exact ⟨t, (stated_eq_ok_iff.mp ht).1, h.tells hi ht⟩

/-- "neq(abs(sub(x,z)),002)" once "lt(x,2)" has been compiled. Only the `z` is new, and the
two results. -/
theorem Network.hold_compile_tells_difference :
    ∃ s t, (Store.hold equation .perValue [.compile "lt(x,2)", .compile "neq(x"]).2 = s ∧
      (s.compile "x").2.journal = s.journal ∧
      Term.parse "neq(abs(sub(x,z)),002)" = .ok t ∧
      s.Tells t (s.compile "neq(abs(sub(x,z)),002)").2 ∧
      (s.compile "neq(abs(sub(x,z)),002)").2.journal.toList.map Event.told =
        s.journal.toList.map Event.told ++
          [(.trace, "registering variable 'z'"), (.trace, "defining _4 as 'sub(x,z)'"),
            (.trace, "defining _3 as 'abs(sub(x,z))'"),
            (.debug, "compiled 'neq(abs(sub(x,z)),002)' (2 operands, 3 leaves, depth 4) " ++
              "with 2 auxiliary variables")] := by
  have hreachable : Store.Reachable equation := ⟨_, rfl⟩
  have hreport := hold_compile_tells hreachable .perValue [.compile "lt(x,2)", .compile "neq(x"] rfl
  obtain ⟨t, hparse, htells⟩ := (hreport "neq(abs(sub(x,z)),002)").2 (.ofNat 4) (by decide +kernel)
  have hterm : Term.parse "neq(abs(sub(x,z)),002)" =
      .ok (.application "neq" [] [.application "abs" [] [.application "sub" [] [.name "x", .name "z"]],
        .literal "002" 2]) := by
    decide +kernel
  obtain rfl := Except.ok.inj (hparse.symm.trans hterm)
  refine ⟨_, _, rfl, ?_, hparse, htells, by decide +kernel⟩
  exact (hreport "x").1 (.bareTerm "x") (by decide +kernel)

end ConstraintNet
