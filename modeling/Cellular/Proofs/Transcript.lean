import Cellular.Proofs.Description

/-!
# A rule is what its table says

The lines of a text are read one after another, and with each line of the table the
rule so far stays what the lines so far say.  So no line of the table is passed over
or taken for something else, and nothing stands in the rule that is not in a line.
-/

namespace Cellular

namespace Rule

open NumberedLine TableLine

variable {r next : Rule}

/-- The rule is what the lines of a table say, all of it and nothing else. -/
structure Transcribes (rule : Rule) (lines : List NumberedLine) : Prop where
  forms : ∀ line ∈ lines,
    IsDeclaration line.text ∨ IsParameter line.text ∨ IsTransition line.text
  clauses : AreClausesOf lines rule.clauses
  declarations : AreVariablesOf lines rule.declarations
  names : rule.HasProperNames
  parameters : SetParameters lines rule

theorem transcribes_default : ({} : Rule).Transcribes [] where
  forms := fun line hline => by cases hline
  clauses := .nil
  declarations := ⟨rfl, fun i line entry hline => by cases hline⟩
  names := hasProperNames_default
  parameters := ⟨rfl, rfl, rfl, fun key => by split <;> rfl⟩

/-- The name and the description of a rule say nothing of its table. -/
theorem Transcribes.retitled {lines : List NumberedLine} (h : r.Transcribes lines)
    (name : Option String) (description : String) :
    ({ r with name, description }).Transcribes lines :=
  ⟨h.forms, h.clauses, h.declarations, h.names,
    ⟨h.parameters.stateCount, h.parameters.neighborhood, h.parameters.symmetry,
      h.parameters.others⟩⟩

/-- What a line of the table adds to a rule is what the line says. -/
theorem Transcribes.readTableLine {lines : List NumberedLine} (h : r.Transcribes lines)
    {line : NumberedLine}
    (habove : ∀ other ∈ lines, other.number < line.number) {text : List Char}
    (htext : line.text = Text.trimEnd (Line.uncommented text))
    (hread : r.readTableLine line.number text = .ok next) :
    next.Transcribes (lines ++ [line]) := by
  have hforms : (IsDeclaration line.text ∨ IsParameter line.text ∨ IsTransition line.text) →
      ∀ other ∈ lines ++ [line], IsDeclaration other.text ∨ IsParameter other.text ∨
        IsTransition other.text := by
    intro hform other hother
    rcases List.mem_append.1 hother with hearlier | hlast
    · exact h.forms other hearlier
    · rwa [List.mem_singleton.1 hlast]
  have hnames := hasProperNames_of_readTableLine h.names hread
  rw [Rule.readTableLine, ← htext] at hread
  cases hform : ofContent line.text with
  | declaration name valueSet =>
    obtain ⟨hdeclaration, rfl, rfl⟩ := isDeclaration_of_ofContent hform
    rw [hform] at hread
    obtain ⟨-, hcontains, values, hvalues, rfl⟩ := readDeclaration_eq_ok_iff.1 hread
    have hnew : line.declaredName ∉ r.declarations.keys := by
      rw [← InsertionMap.contains_iff]
      exact Bool.not_eq_true _ ▸ hcontains
    have hnotParameter : ¬ IsParameter line.text := fun hparameter =>
      hparameter.1 hdeclaration
    have hkept := h.parameters.append_of_not hnotParameter
    exact ⟨hforms (.inl hdeclaration),
      h.clauses.append_of_not habove fun htransition => htransition.1 hdeclaration,
      h.declarations.append hdeclaration hnew ((readValueSet_eq_ok_iff h.names).1 hvalues),
      hnames,
      ⟨hkept.stateCount, hkept.neighborhood, hkept.symmetry, hkept.others⟩⟩
  | parameter key value =>
    obtain ⟨hparameter, rfl, rfl⟩ := isParameter_of_ofContent hform
    rw [hform] at hread
    have hset := setsParameter_of_readParameter hread
    have hclauses : next.clauses = r.clauses := by cases hset <;> rfl
    refine ⟨hforms (.inr (.inl hparameter)), ?_, ?_, hnames,
      h.parameters.append hparameter hset⟩
    · rw [hclauses]
      exact h.clauses.append_of_not habove fun htransition => htransition.2.1 hparameter
    · rw [declarations_of_readParameter hread]
      exact h.declarations.append_of_not hparameter.1
  | transition tokens =>
    obtain ⟨htransition, rfl⟩ := isTransition_of_ofContent hform
    rw [hform] at hread
    simp only at hread
    split at hread
    · cases hread
    · rename_i clause hclause
      cases hread
      obtain ⟨hnumber, hlength, hfields⟩ := (readTransition_eq_ok_iff h.names).1 hclause
      rw [h.declarations.names] at hfields
      have hkept := h.parameters.append_of_not htransition.2.1
      exact ⟨hforms (.inr (.inr htransition)),
        h.clauses.append habove htransition hnumber hlength hfields,
        h.declarations.append_of_not htransition.1, hnames,
        ⟨hkept.stateCount, hkept.neighborhood, hkept.symmetry, hkept.others⟩⟩
  | unrecognized =>
    rw [hform] at hread
    cases hread

/-! ## Reading line by line -/

/-- What holds after some lines of a text were read. -/
structure HasRead (raws : List (List Char)) (current : Section) (rule : Rule) : Prop where
  current : current = .table ↔ Line.InTable raws
  transcribes : rule.Transcribes (Line.tableLines raws)

theorem hasRead_nil : HasRead [] .table {} where
  current := by simp [Line.InTable]
  transcribes := transcribes_default

/-- One line, read in the section that the headers above it open. -/
theorem HasRead.readLine {raws : List (List Char)} {current opened : Section}
    (hsofar : HasRead raws current r) {raw : List Char}
    (h : readLine (raws.length + 1) raw current r = .ok (opened, next)) :
    HasRead (raws ++ [raw]) opened next := by
  rw [Rule.readLine] at h
  cases hkind : Line.classify raw with
  | skipped =>
    rw [hkind] at h
    cases h
    obtain ⟨hplain, hname⟩ := Line.not_plain_of_classify_skipped hkind
    refine ⟨?_, ?_⟩
    · rw [hsofar.current, Line.inTable_append_singleton, hname]
    · rw [Line.tableLines_append_of_not fun hline => hplain hline.1]
      exact hsofar.transcribes
  | header text =>
    rw [hkind] at h
    obtain ⟨hplain, hname⟩ := Line.not_plain_of_classify_header hkind
    obtain ⟨htable, name, rfl⟩ := exists_name_of_openSection h
    refine ⟨?_, ?_⟩
    · rw [htable, Line.inTable_append_singleton, hname]
    · rw [Line.tableLines_append_of_not fun hline => hplain hline.1]
      exact hsofar.transcribes.retitled name r.description
  | content text =>
    rw [hkind] at h
    obtain ⟨hplain, htext, hname⟩ := Line.plain_of_classify_content hkind
    have hcurrent : current = .table ↔ Line.InTable (raws ++ [raw]) := by
      rw [hsofar.current, Line.inTable_append_singleton, hname]
    have houtside : current ≠ .table →
        Line.tableLines (raws ++ [raw]) = Line.tableLines raws := by
      intro hne
      exact Line.tableLines_append_of_not fun hline => hne (hsofar.current.2 hline.2)
    cases current with
    | table =>
      simp only at h
      split at h
      · cases h
      · rename_i hread
        cases h
        refine ⟨hcurrent, ?_⟩
        rw [Line.tableLines_append_singleton, if_pos ⟨hplain, hsofar.current.1 rfl⟩]
        exact hsofar.transcribes.readTableLine
          (fun other hother => Nat.lt_succ_of_le (Line.number_le_of_mem_tableLines hother))
          htext hread
    | description =>
      cases h
      refine ⟨hcurrent, ?_⟩
      rw [houtside (by decide)]
      exact hsofar.transcribes.retitled r.name _
    | ignored =>
      cases h
      refine ⟨hcurrent, ?_⟩
      rw [houtside (by decide)]
      exact hsofar.transcribes

/-- Lines that are read leave a section and a rule, from which reading goes on. -/
theorem HasRead.exists_readLines_append {done rest : List (List Char)} {current : Section}
    {final : Rule} (hsofar : HasRead done current r)
    (h : Rule.readLines (done.length + 1) rest current r = .ok final) :
    ∃ last, HasRead (done ++ rest) last final ∧ ∀ below,
      Rule.readLines (done.length + 1) (rest ++ below) current r =
        Rule.readLines ((done ++ rest).length + 1) below last final := by
  induction rest generalizing done current r with
  | nil =>
    cases h
    refine ⟨current, ?_, fun below => ?_⟩
    · rwa [List.append_nil]
    · rw [List.append_nil, List.nil_append]
  | cons raw rest ih =>
    rw [Rule.readLines] at h
    split at h
    · cases h
    · rename_i opened next hline
      have hnext := hsofar.readLine hline
      have hlength : (done ++ [raw]).length = done.length + 1 := by simp
      rw [← hlength] at h
      obtain ⟨last, hlast, hbelow⟩ := ih hnext h
      rw [List.append_assoc, List.singleton_append] at hlast hbelow
      refine ⟨last, hlast, fun below => ?_⟩
      rw [List.cons_append, Rule.readLines, hline, ← hlength]
      exact hbelow below

theorem HasRead.readLines {done rest : List (List Char)} {current : Section} {final : Rule}
    (hsofar : HasRead done current r)
    (h : readLines (done.length + 1) rest current r = .ok final) :
    ∃ last, HasRead (done ++ rest) last final := by
  obtain ⟨last, hlast, -⟩ := hsofar.exists_readLines_append h
  exact ⟨last, hlast⟩

/-- A rule that is read is what the lines of its table say: every line of the table has
one of the three forms, and all that it says stands in the rule. -/
theorem read_transcribes_tableLines {text : String} {rule : Rule}
    (h : read text = .ok rule) :
    rule.Transcribes (Line.tableLines (Line.rawLines text.toList)) := by
  obtain ⟨last, hlast⟩ := hasRead_nil.readLines h
  exact hlast.transcribes

/-- A table with lines of every kind, in and out of its section. -/
def mixedText : String :=
  "n_states:4 # 3 colours\n@RULE Mixed\na,b\n@COLORS\n1:0\n@TABLE\nvar a={0,1,}\n" ++
    "var b={ a , 2 }\nsymmetry: Rotate4\n0,a, b,0,0,0,0,0,1 0,3\nauthor:me"

def mixedRule : Rule where
  name := some "Mixed"
  description := "a,b\n"
  stateCount := 4
  symmetry := .rotate4
  declarations := (InsertionMap.empty.insert "a" [0, 1]).insert "b" [0, 1, 2]
  clauses :=
    [{ center := .state 0
       ring := ⟨[.var 0, .var 1, .state 0, .state 0, .state 0, .state 0, .state 0,
         .state 10], rfl⟩
       next := .state 3
       line := 10 }]
  parameters := InsertionMap.empty.insert "author" "me"

theorem mixedRule_transcribes :
    read mixedText = .ok mixedRule ∧
    (Line.tableLines (Line.rawLines mixedText.toList)).map (·.number) =
      [1, 7, 8, 9, 10, 11] ∧
    mixedRule.Transcribes (Line.tableLines (Line.rawLines mixedText.toList)) := by
  have hread : read mixedText = .ok mixedRule := by decide +kernel
  exact ⟨hread, by decide +kernel, read_transcribes_tableLines hread⟩

end Rule

end Cellular
