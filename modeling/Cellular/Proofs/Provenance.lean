import Cellular.Proofs.BuildFaults
import Cellular.Proofs.Transcript

/-!
# Where the parts of a rule stand in its text

A rule that was read has an allowed number of states and variables with proper names
and with values; its clauses stand on lines of the text, from the top to the bottom,
and each one below the declarations of the variables it mentions.  That leaves little
for the check to find: a state out of range, or a next state that no input binds.
-/

namespace Cellular

namespace NumberedLine

open TableLine

variable {lines : List NumberedLine} {clauses : List Clause} {clause : Clause}

/-- Of ascending numbers, those below a bound come first. -/
theorem filter_number_isPrefix
    (hlines : lines.Pairwise fun line other => line.number < other.number) (number : ℕ) :
    (lines.filter fun line => line.number < number) <+: lines := by
  induction lines with
  | nil => exact List.prefix_rfl
  | cons first rest ih =>
    obtain ⟨hfirst, hrest⟩ := List.pairwise_cons.1 hlines
    by_cases hbelow : first.number < number
    · rw [List.filter_cons_of_pos (by simpa using hbelow)]
      exact List.cons_prefix_cons.2 ⟨rfl, ih hrest⟩
    · have hnone : (first :: rest).filter (fun line => line.number < number) = [] := by
        rw [List.filter_eq_nil_iff, List.forall_mem_cons]
        refine ⟨by simpa using hbelow, fun other hother => ?_⟩
        have hlater := hfirst other hother
        simp only [decide_eq_true_eq]
        omega
      rw [hnone]
      exact List.nil_prefix

/-- The name with an index among those declared above a line is that of a declaration
above it, and has the same index among all names. -/
theorem exists_declaration_of_namesAbove
    (hlines : lines.Pairwise fun line other => line.number < other.number)
    {number id : ℕ} {name : String} (hname : (namesAbove lines number)[id]? = some name) :
    ((declarationLines lines).map declaredName)[id]? = some name ∧
      ∃ declaration ∈ lines, declaration.number < number ∧
        IsDeclaration declaration.text ∧ declaration.declaredName = name := by
  have hdeclarations := hlines.sublist (List.filter_sublist (p := fun line =>
    IsDeclaration line.text))
  constructor
  · obtain ⟨rest, hrest⟩ :=
      (filter_number_isPrefix hdeclarations number).map declaredName
    rw [declarationLines, ← hrest, List.getElem?_append_left]
    · exact hname
    · exact (List.getElem?_eq_some_iff.1 hname).1
  · obtain ⟨declaration, hmem, hdeclared⟩ := List.mem_map.1 (List.mem_of_getElem? hname)
    obtain ⟨hdeclaration, hbelow⟩ := List.mem_filter.1 hmem
    obtain ⟨hline, hform⟩ := List.mem_filter.1 hdeclaration
    exact ⟨declaration, hline, by simpa using hbelow, by simpa using hform, hdeclared⟩

theorem AreClausesOf.map_line (h : AreClausesOf lines clauses) :
    clauses.map Clause.line = (transitionLines lines).map number := by
  rw [← List.forall₂_eq_eq_eq, List.forall₂_map_left_iff, List.forall₂_map_right_iff]
  exact (h.imp fun _ _ hclause => hclause.number).flip

theorem AreClausesOf.exists_line (h : AreClausesOf lines clauses) (hclause : clause ∈ clauses) :
    ∃ line ∈ lines, IsTransition line.text ∧ IsClauseOf lines line clause := by
  obtain ⟨i, hi, rfl⟩ := List.getElem_of_mem hclause
  have hi' : i < (transitionLines lines).length := h.length_eq ▸ hi
  obtain ⟨hline, hform⟩ := List.mem_filter.1 (List.getElem_mem hi')
  exact ⟨_, hline, by simpa using hform, h.get hi' hi⟩

end NumberedLine

namespace Rule

open NumberedLine TableLine

variable {r next rule : Rule}

/-! ## The number of states -/

theorem isStateCount_of_readTableLine (hcount : IsStateCount r.stateCount) {line : ℕ}
    {text : List Char} (h : r.readTableLine line text = .ok next) :
    IsStateCount next.stateCount := by
  rw [readTableLine] at h
  split at h
  · obtain ⟨-, -, values, -, rfl⟩ := readDeclaration_eq_ok_iff.1 h
    exact hcount
  · cases setsParameter_of_readParameter h with
    | stateCount hkey hread => exact (readStateCount_eq_ok_iff.1 hread).2
    | neighborhood | symmetry | other => exact hcount
  · split at h
    · cases h
    · cases h
      exact hcount
  · cases h

theorem isStateCount_of_readLines (hcount : IsStateCount r.stateCount) {line : ℕ}
    {raws : List (List Char)} {current : Section}
    (h : readLines line raws current r = .ok rule) : IsStateCount rule.stateCount := by
  induction raws generalizing line current r with
  | nil =>
    cases h
    exact hcount
  | cons raw rest ih =>
    rw [readLines] at h
    split at h
    · cases h
    · rename_i opened next hline
      refine ih ?_ h
      rcases readLine_cases hline with ⟨name, description, rfl⟩ | ⟨text, hread⟩
      · exact hcount
      · exact isStateCount_of_readTableLine hcount hread

/-! ## The parts and their lines -/

/-- A rule stands in the lines of a text: its number of states is allowed, its
variables have proper names and have values, its clauses have ascending line numbers,
each of them the number of a line that is not blank, and every variable of a clause is
declared on an earlier line. -/
structure StandsIn (rule : Rule) (raws : List (List Char)) : Prop where
  stateCount : 2 ≤ rule.stateCount ∧ rule.stateCount ≤ 256
  named : ∀ entry ∈ rule.declarations.entries,
    Text.isIdentifier entry.1.toList = true ∧ entry.2 ≠ []
  ascending : rule.clauses.Pairwise fun clause other => clause.line < other.line
  within : ∀ clause ∈ rule.clauses, 1 ≤ clause.line ∧ clause.line ≤ raws.length ∧
    ∃ raw, raws[clause.line - 1]? = some raw ∧ Line.IsPlain raw
  declared : ∀ clause ∈ rule.clauses, ∀ id, .var id ∈ clause.fields →
    ∃ declaration ∈ Line.tableLines raws, declaration.number < clause.line ∧
      IsDeclaration declaration.text ∧
      rule.declarations.keys[id]? = some declaration.declaredName

theorem ne_nil_of_mem_entries {lines : List NumberedLine}
    {declared : InsertionMap String (List State)} (h : AreVariablesOf lines declared)
    {entry : String × List State} (hentry : entry ∈ declared.entries) : entry.2 ≠ [] := by
  obtain ⟨i, hi, rfl⟩ := List.getElem_of_mem hentry
  have hlength := congrArg List.length h.names
  rw [InsertionMap.keys, List.length_map, List.length_map] at hlength
  have hline : i < (declarationLines lines).length := hlength ▸ hi
  obtain ⟨-, -, -, -, -, hne⟩ := h.values i _ _ (List.getElem?_eq_getElem hline)
    (List.getElem?_eq_getElem hi)
  exact hne

theorem Transcribes.standsIn {raws : List (List Char)}
    (h : rule.Transcribes (Line.tableLines raws)) (hcount : IsStateCount rule.stateCount) :
    rule.StandsIn raws := by
  have hlines := Line.pairwise_tableLines raws
  refine ⟨hcount, fun entry hentry => ⟨?_, ?_⟩, ?_, fun clause hclause => ?_,
    fun clause hclause id hid => ?_⟩
  · exact h.names _ (List.mem_map_of_mem hentry)
  · exact ne_nil_of_mem_entries h.declarations hentry
  · rw [← List.pairwise_map (f := Clause.line) (R := (· < ·)), h.clauses.map_line,
      List.pairwise_map]
    exact hlines.sublist List.filter_sublist
  · obtain ⟨line, hline, -, hof⟩ := h.clauses.exists_line hclause
    rw [hof.number]
    exact Line.exists_raw_of_mem_tableLines hline
  · obtain ⟨line, -, -, hof⟩ := h.clauses.exists_line hclause
    obtain ⟨i, hi, hfield⟩ := List.getElem_of_mem hid
    have htoken : i < line.tokens.length := hof.fields.length_eq ▸ hi
    have hstands := hof.fields.get htoken hi
    rw [List.get_eq_getElem, List.get_eq_getElem, hfield] at hstands
    cases hstands with
    | var hname =>
      obtain ⟨hkey, declaration, hmem, hbelow, hform, hdeclared⟩ :=
        exists_declaration_of_namesAbove hlines hname
      rw [h.declarations.names, hof.number, hkey, ← hdeclared]
      exact ⟨declaration, hmem, hbelow, hform, rfl⟩

theorem standsIn_of_read {text : String} (h : read text = .ok rule) :
    rule.StandsIn (Line.rawLines text.toList) := by
  obtain ⟨last, hlast⟩ := hasRead_nil.readLines h
  exact hlast.transcribes.standsIn (isStateCount_of_readLines (by decide) h)

/-! ## What is left to find -/

/-- The fault is that of a clause, named by its place and by its line in a text, and it
is a state out of range or a next state that no input binds. -/
inductive FaultsLine (rule : Rule) : RuleFault → Prop where
  | stateOutOfRange {place : ℕ} {clause : Clause} {s : State}
      (hclause : rule.clauses[place]? = some clause) (hline : 1 ≤ clause.line) :
      FaultsLine rule (.clause place clause.line (.stateOutOfRange s rule.stateCount))
  | unboundOutput {place : ℕ} {clause : Clause} {name : String}
      (hclause : rule.clauses[place]? = some clause) (hline : 1 ≤ clause.line) :
      FaultsLine rule (.clause place clause.line (.unboundOutput name))

theorem StandsIn.faultsLine {raws : List (List Char)} (h : rule.StandsIn raws)
    {fault : RuleFault} (hfault : rule.Breaks fault) : rule.FaultsLine fault := by
  cases hfault with
  | stateCount hcount => exact absurd h.stateCount hcount
  | @clause before after clause fault hcount hclauses hbefore hbreaks =>
    have hmem : clause ∈ rule.clauses := by simp [hclauses]
    have hplace : rule.clauses[before.length]? = some clause := by simp [hclauses]
    have hline := (h.within clause hmem).1
    cases hbreaks with
    | output => exact .unboundOutput hplace hline
    | @field earlier later field _ hfields hearlier hfield =>
      cases hfield with
      | state | value => exact .stateOutOfRange hplace hline
      | @undeclared id hid =>
        have hfield : Field.var id ∈ clause.fields := by simp [hfields]
        obtain ⟨declaration, -, -, -, hkey⟩ := h.declared clause hmem id hfield
        rw [InsertionMap.keys, List.getElem?_map] at hkey
        have hentry : rule.declarations.entries[id]? = none := hid
        rw [hentry] at hkey
        cases hkey

/-- A rule that was read stands in its text.  The check finds nothing in it but a state
out of range or a next state that no input binds, in a clause that it names by its line;
and if a build fails for another reason, it is that there are more configurations than
may be filled in. -/
theorem read_rule_stands_in_text {text : String} (h : read text = .ok rule) :
    rule.StandsIn (Line.rawLines text.toList) ∧
    (∀ fault, rule.validate = .error fault → rule.FaultsLine fault) ∧
    ∀ settings e, rule.build settings = .error e →
      (∃ fault, e = .illFormed fault ∧ rule.FaultsLine fault) ∨
      (settings.fill = .identity ∧ settings.fillLimit < rule.stateCount ^ 9 ∧
        e = .fillTooLarge (rule.stateCount ^ 9) settings.fillLimit) := by
  have hstands := standsIn_of_read h
  refine ⟨hstands, fun fault hfault => ?_, fun settings e hbuild => ?_⟩
  · exact hstands.faultsLine (validate_eq_error_iff.1 hfault)
  · cases build_eq_error_iff.1 hbuild with
    | illFormed hfault => exact .inl ⟨_, rfl, hstands.faultsLine hfault⟩
    | fillTooLarge _ hfill hlimit => exact .inr ⟨hfill, hlimit, rfl⟩

/-- The second variable of this table is declared between two clauses, of which the
second gives a state that there is not. -/
def stackedText : String :=
  "@RULE Stacked\n@TABLE\nn_states:3\nvar a={0,1}\n0,a,0,0,0,0,0,0,0,1\n\n" ++
    "var b={a,2}\nb,a,0,0,0,0,0,0,0,5\n"

def stackedRule : Rule where
  name := some "Stacked"
  stateCount := 3
  declarations := (InsertionMap.empty.insert "a" [0, 1]).insert "b" [0, 1, 2]
  clauses :=
    [{ center := .state 0
       ring := ⟨[.var 0, .state 0, .state 0, .state 0, .state 0, .state 0, .state 0,
         .state 0], rfl⟩
       next := .state 1
       line := 5 },
     { center := .var 1
       ring := ⟨[.var 0, .state 0, .state 0, .state 0, .state 0, .state 0, .state 0,
         .state 0], rfl⟩
       next := .state 5
       line := 8 }]

theorem stacked_stands_in_text :
    read stackedText = .ok stackedRule ∧
    stackedRule.StandsIn (Line.rawLines stackedText.toList) ∧
    stackedRule.validate = .error (.clause 1 8 (.stateOutOfRange 5 3)) ∧
    stackedRule.FaultsLine (.clause 1 8 (.stateOutOfRange 5 3)) := by
  have hread : read stackedText = .ok stackedRule := by decide +kernel
  have hfault : stackedRule.validate = .error (.clause 1 8 (.stateOutOfRange 5 3)) := by
    decide
  obtain ⟨hstands, hfaults, -⟩ := read_rule_stands_in_text hread
  exact ⟨hread, hstands, hfault, hfaults _ hfault⟩

/-- A build can fail without naming a clause, for there may be too many configurations
to fill in. -/
theorem filling_names_no_clause :
    ¬ ∀ text rule settings e, read text = .ok rule → rule.build settings = .error e →
      ∃ place line fault, e = .illFormed (.clause place line fault) ∧ 1 ≤ line := by
  intro hnames
  have hread : read "@TABLE\n" = .ok {} := by decide +kernel
  have hbuild : ({} : Rule).build { fill := .identity, fillLimit := 511 } =
      .error (.fillTooLarge 512 511) := rfl
  obtain ⟨place, line, fault, he, -⟩ := hnames _ _ _ _ hread hbuild
  cases he

end Rule

end Cellular
