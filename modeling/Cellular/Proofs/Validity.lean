import Mathlib.Data.Nat.Notation
import Cellular.Rule.Validity

/-!
# What the check of a rule finds

What it takes for a rule to be well formed can be said without the check, and so can
which of its faults is named when it is not: the number of states comes first, then
the clauses in their order; within a clause the fields come in theirs, and a next
state that no input binds comes last.  In a rule that passes the check, every state
that a clause mentions, by itself or through a variable, is one of the states of the
rule.
-/

namespace Cellular

namespace Rule

variable {rule : Rule} {field : Field} {clause : Clause} {fault : ClauseFault}

/-! ## Fields -/

/-- A field is a state of the rule, or a declared variable whose values are all states
of the rule. -/
def AllowsField (rule : Rule) : Field → Prop
  | .state s => s < rule.stateCount
  | .var id => ∃ entry, rule.variableAt? id = some entry ∧
      ∀ s ∈ entry.2, s < rule.stateCount

/-- What is wrong with a field.  Of the values of a variable the first one that is no
state of the rule is at fault. -/
inductive FieldBreaks (rule : Rule) : Field → ClauseFault → Prop where
  | state {s : State} (hs : rule.stateCount ≤ s) :
      FieldBreaks rule (.state s) (.stateOutOfRange s rule.stateCount)
  | undeclared {id : ℕ} (hid : rule.variableAt? id = none) :
      FieldBreaks rule (.var id) (.undeclaredVariable id)
  | value {id : ℕ} {name : String} {before after : List State} {s : State}
      (hid : rule.variableAt? id = some (name, before ++ s :: after))
      (hbefore : ∀ r ∈ before, r < rule.stateCount) (hs : rule.stateCount ≤ s) :
      FieldBreaks rule (.var id) (.stateOutOfRange s rule.stateCount)

theorem fieldFault?_eq_none_iff : rule.fieldFault? field = none ↔ rule.AllowsField field := by
  cases field with
  | state s => simp [fieldFault?, AllowsField]
  | var id =>
    rw [fieldFault?, AllowsField]
    cases rule.variableAt? id with
    | none => simp
    | some entry => simp

theorem fieldFault?_eq_some_iff :
    rule.fieldFault? field = some fault ↔ rule.FieldBreaks field fault := by
  constructor
  · intro h
    cases field with
    | state s =>
      rw [fieldFault?] at h
      split at h
      · cases h
      · rename_i hs
        cases h
        exact .state (Nat.le_of_not_lt hs)
    | var id =>
      rw [fieldFault?] at h
      split at h
      · rename_i hid
        cases h
        exact .undeclared hid
      · rename_i name values hid
        obtain ⟨s, hs, rfl⟩ := Option.map_eq_some_iff.1 h
        obtain ⟨hout, before, after, rfl, hbefore⟩ := List.find?_eq_some_iff_append.1 hs
        exact .value hid (by simpa using hbefore) (by simpa using hout)
  · intro h
    cases h with
    | state hs => rw [fieldFault?, if_neg (Nat.not_lt.2 hs)]
    | undeclared hid => rw [fieldFault?, hid]
    | @value id name before after s hid hbefore hs =>
      have hfind : (before ++ s :: after).find? (fun r => rule.stateCount ≤ r) = some s :=
        List.find?_eq_some_iff_append.2
          ⟨by simpa using hs, before, after, rfl, by simpa using hbefore⟩
      simp only [fieldFault?, hid, hfind, Option.map_some]

/-! ## Clauses -/

/-- A clause can be written: all its fields are allowed, and a variable that is its
next state is one of its inputs. -/
structure AllowsClause (rule : Rule) (clause : Clause) : Prop where
  fields : ∀ field ∈ clause.fields, rule.AllowsField field
  output : ∀ id, clause.next = .var id → .var id ∈ clause.inputs

/-- What is wrong with a clause: the fault of the first field that has one, or, if all
fields are allowed, a next state that no input binds. -/
inductive ClauseBreaks (rule : Rule) (clause : Clause) : ClauseFault → Prop where
  | field {before after : List Field} {field : Field} {fault : ClauseFault}
      (hfields : clause.fields = before ++ field :: after)
      (hbefore : ∀ other ∈ before, rule.AllowsField other)
      (hfault : rule.FieldBreaks field fault) : ClauseBreaks rule clause fault
  | output {id : ℕ} {name : String} {values : List State}
      (hfields : ∀ field ∈ clause.fields, rule.AllowsField field)
      (hnext : clause.next = .var id) (hunbound : .var id ∉ clause.inputs)
      (hid : rule.variableAt? id = some (name, values)) :
      ClauseBreaks rule clause (.unboundOutput name)

theorem outputFault?_eq_none_iff :
    rule.outputFault? clause = none ↔
      ∀ id, clause.next = .var id → .var id ∈ clause.inputs := by
  rw [outputFault?]
  cases clause.next with
  | state s => simp
  | var id => simp

theorem outputFault?_eq_some_iff :
    rule.outputFault? clause = some fault ↔
      ∃ id, clause.next = .var id ∧ .var id ∉ clause.inputs ∧
        fault = .unboundOutput (((rule.variableAt? id).map Prod.fst).getD "") := by
  rw [outputFault?]
  cases clause.next with
  | state s => simp
  | var id => simp [eq_comm]

theorem clauseFault?_eq_none_iff :
    rule.clauseFault? clause = none ↔ rule.AllowsClause clause := by
  simp only [clauseFault?, Option.or_eq_none_iff, List.findSome?_eq_none_iff,
    fieldFault?_eq_none_iff, outputFault?_eq_none_iff]
  exact ⟨fun h => ⟨h.1, h.2⟩, fun h => ⟨h.fields, h.output⟩⟩

theorem clauseFault?_eq_some_iff :
    rule.clauseFault? clause = some fault ↔ rule.ClauseBreaks clause fault := by
  simp only [clauseFault?, Option.or_eq_some_iff, List.findSome?_eq_some_iff,
    List.findSome?_eq_none_iff, fieldFault?_eq_none_iff, fieldFault?_eq_some_iff,
    outputFault?_eq_some_iff]
  constructor
  · rintro (⟨before, field, after, hfields, hfault, hbefore⟩ |
      ⟨hfields, id, hnext, hunbound, rfl⟩)
    · exact .field hfields hbefore hfault
    · -- A variable among allowed fields is declared, so that it has a name.
      have hmem : Field.var id ∈ clause.fields :=
        hnext ▸ List.mem_append_right _ (List.mem_singleton_self _)
      obtain ⟨entry, hid, -⟩ := hfields _ hmem
      rw [hid]
      exact .output hfields hnext hunbound hid
  · rintro (⟨hfields, hbefore, hfault⟩ | ⟨hfields, hnext, hunbound, hid⟩)
    · exact .inl ⟨_, _, _, hfields, hfault, hbefore⟩
    · exact .inr ⟨hfields, _, hnext, hunbound, by rw [hid]; rfl⟩

/-! ## Rules -/

/-- The number of states is allowed, and so are all clauses. -/
structure IsWellFormed (rule : Rule) : Prop where
  stateCount : 2 ≤ rule.stateCount ∧ rule.stateCount ≤ 256
  clauses : ∀ clause ∈ rule.clauses, rule.AllowsClause clause

/-- What is wrong with a rule: its number of states, or else the first clause that is
not allowed, named by its place and its line. -/
inductive Breaks (rule : Rule) : RuleFault → Prop where
  | stateCount (hcount : ¬ (2 ≤ rule.stateCount ∧ rule.stateCount ≤ 256)) :
      Breaks rule (.stateCount rule.stateCount)
  | clause {before after : List Clause} {clause : Clause} {fault : ClauseFault}
      (hcount : 2 ≤ rule.stateCount ∧ rule.stateCount ≤ 256)
      (hclauses : rule.clauses = before ++ clause :: after)
      (hbefore : ∀ other ∈ before, rule.AllowsClause other)
      (hfault : rule.ClauseBreaks clause fault) :
      Breaks rule (.clause before.length clause.line fault)

theorem firstFault?_eq_none_iff {place : ℕ} {clauses : List Clause} :
    rule.firstFault? place clauses = none ↔
      ∀ clause ∈ clauses, rule.AllowsClause clause := by
  induction clauses generalizing place with
  | nil => simp [firstFault?]
  | cons clause rest ih =>
    rw [firstFault?, List.forall_mem_cons, ← clauseFault?_eq_none_iff]
    cases h : rule.clauseFault? clause with
    | none => simp [ih]
    | some fault => simp

theorem fault?_eq_none_iff : rule.fault? = none ↔ rule.IsWellFormed := by
  rw [fault?]
  by_cases hcount : IsStateCount rule.stateCount
  · rw [if_pos hcount, firstFault?_eq_none_iff]
    exact ⟨fun h => ⟨hcount, h⟩, fun h => h.clauses⟩
  · rw [if_neg hcount]
    simp only [reduceCtorEq, false_iff]
    exact fun h => hcount h.stateCount

theorem exists_of_firstFault? {place : ℕ} {clauses : List Clause} {found : RuleFault}
    (h : rule.firstFault? place clauses = some found) :
    ∃ before clause after fault, clauses = before ++ clause :: after ∧
      (∀ other ∈ before, rule.AllowsClause other) ∧ rule.ClauseBreaks clause fault ∧
      found = .clause (place + before.length) clause.line fault := by
  induction clauses generalizing place with
  | nil => cases h
  | cons first rest ih =>
    rw [firstFault?] at h
    split at h
    · rename_i fault hfirst
      cases h
      exact ⟨[], first, rest, fault, rfl, by simp, clauseFault?_eq_some_iff.1 hfirst, rfl⟩
    · rename_i hfirst
      obtain ⟨before, clause, after, fault, rfl, hbefore, hfault, rfl⟩ := ih h
      refine ⟨first :: before, clause, after, fault, rfl, ?_, hfault, ?_⟩
      · exact List.forall_mem_cons.2 ⟨clauseFault?_eq_none_iff.1 hfirst, hbefore⟩
      · rw [List.length_cons, Nat.add_assoc, Nat.add_comm 1]

theorem firstFault?_append {place : ℕ} {before after : List Clause}
    (hbefore : ∀ other ∈ before, rule.AllowsClause other)
    (hfault : rule.ClauseBreaks clause fault) :
    rule.firstFault? place (before ++ clause :: after) =
      some (.clause (place + before.length) clause.line fault) := by
  induction before generalizing place with
  | nil =>
    rw [List.nil_append, firstFault?, clauseFault?_eq_some_iff.2 hfault]
    rfl
  | cons first before ih =>
    obtain ⟨hfirst, hrest⟩ := List.forall_mem_cons.1 hbefore
    rw [List.cons_append, firstFault?, clauseFault?_eq_none_iff.2 hfirst]
    simp only [ih hrest]
    rw [List.length_cons, Nat.add_assoc, Nat.add_comm 1]

theorem fault?_eq_some_iff {found : RuleFault} :
    rule.fault? = some found ↔ rule.Breaks found := by
  rw [fault?]
  constructor
  · intro h
    split at h
    · rename_i hcount
      obtain ⟨before, clause, after, fault, hclauses, hbefore, hfault, rfl⟩ :=
        exists_of_firstFault? h
      rw [Nat.zero_add]
      exact .clause hcount hclauses hbefore hfault
    · rename_i hcount
      cases h
      exact .stateCount hcount
  · intro h
    cases h with
    | stateCount hcount => exact if_neg hcount
    | clause hcount hclauses hbefore hfault =>
      have hallowed : IsStateCount rule.stateCount := hcount
      rw [if_pos hallowed, hclauses, firstFault?_append hbefore hfault, Nat.zero_add]

theorem validate_eq_ok_iff : rule.validate = .ok () ↔ rule.fault? = none := by
  rw [validate]
  cases rule.fault? with
  | none => simp
  | some fault => simp

theorem validate_eq_ok_iff_isWellFormed : rule.validate = .ok () ↔ rule.IsWellFormed := by
  rw [validate_eq_ok_iff, fault?_eq_none_iff]

theorem validate_eq_error_iff {found : RuleFault} :
    rule.validate = .error found ↔ rule.Breaks found := by
  rw [← fault?_eq_some_iff, validate]
  cases rule.fault? with
  | none => simp
  | some other => simp

/-! ## What a well-formed rule promises -/

section Promises

variable {s : State} (hvalid : rule.validate = .ok ()) (hclause : clause ∈ rule.clauses)
include hvalid hclause

/-- A state that a clause of a well-formed rule mentions is a state of the rule. -/
theorem state_lt_stateCount (hfield : Field.state s ∈ clause.fields) :
    s < rule.stateCount :=
  ((validate_eq_ok_iff_isWellFormed.1 hvalid).clauses clause hclause).fields _ hfield

/-- So are all values of a variable that a clause mentions. -/
theorem domain_lt_stateCount {id : ℕ} (hfield : Field.var id ∈ clause.fields)
    (hs : s ∈ rule.domain id) : s < rule.stateCount := by
  have hallows := (validate_eq_ok_iff_isWellFormed.1 hvalid).clauses clause hclause
  obtain ⟨entry, hid, hvalues⟩ := hallows.fields _ hfield
  rw [domain, hid] at hs
  exact hvalues s hs

end Promises

end Rule

end Cellular
