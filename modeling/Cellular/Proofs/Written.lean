import Cellular.Proofs.WrittenLine

/-!
# Reading a rule that was written

The lines of a written rule are read one after another, and each adds what it was
written for.  So a rule whose parts can be written is read back from its text, and
only what the text does not hold is lost: the description, the other parameters and
the line numbers.
-/

namespace Cellular

theorem InsertionMap.eq_of_entries_eq {κ α : Type} {map other : InsertionMap κ α}
    (h : map.entries = other.entries) : map = other := by
  cases map
  cases other
  cases h
  rfl

/-- Lines that are written one after another are told apart again. -/
theorem Line.rawLines_flatten {lines : List (List Char)} (h : ∀ line ∈ lines, '\n' ∉ line) :
    rawLines (lines.map fun line => line ++ ['\n']).flatten = lines ++ [[]] := by
  induction lines with
  | nil => rfl
  | cons first rest ih =>
    rw [rawLines] at ih ⊢
    rw [List.map_cons, List.flatten_cons, List.append_assoc, List.singleton_append,
      List.splitOn_append_cons_self_of_not_mem (h first List.mem_cons_self),
      ih fun line hline => h line (List.mem_cons_of_mem first hline), List.cons_append]

namespace Rule

variable {r next rule : Rule} {line : ℕ}

/-! ## Blocks of lines -/

/-- The lines of the variables, one by one: the variables so far are the first of
those that are written. -/
theorem readLines_writeDeclarations {declared : InsertionMap String (List State)}
    {todo : List (String × List State)}
    (hentries : declared.entries = r.declarations.entries ++ todo)
    (hnames : ∀ label ∈ declared.keys, Text.isIdentifier label.toList = true)
    (hvalues : ∀ entry ∈ todo, entry.2 ≠ [] ∧ ∀ s ∈ entry.2, s < Text.numeralBound)
    (rest : List (List Char)) :
    readLines line (todo.map (fun entry => writeDeclaration entry.1 entry.2) ++ rest) .table r =
      readLines (line + todo.length) rest .table { r with declarations := declared } := by
  induction todo generalizing line r with
  | nil =>
    rw [List.append_nil] at hentries
    rw [InsertionMap.eq_of_entries_eq hentries]
    rfl
  | cons entry todo ih =>
    have hkeys : declared.keys = r.declarations.keys ++ entry.1 :: todo.map Prod.fst := by
      rw [InsertionMap.keys, hentries, List.map_append]
      rfl
    have hnew : entry.1 ∉ r.declarations.keys := by
      intro hold
      have hnodup : declared.keys.Nodup := declared.nodup
      rw [hkeys, List.nodup_append] at hnodup
      exact hnodup.2.2 _ hold _ List.mem_cons_self rfl
    have hproper : r.HasProperNames := fun label hlabel =>
      hnames label (by rw [hkeys]; exact List.mem_append_left _ hlabel)
    have hname : Text.isIdentifier entry.1.toList = true := hnames _ (by simp [hkeys])
    obtain ⟨hne, hbound⟩ := hvalues entry List.mem_cons_self
    have hread : r.readTableLine line (writeDeclaration entry.1 entry.2) =
        .ok (r.declare entry.1 entry.2) :=
      readTableLine_writeDeclaration hproper hname hnew hne hbound
    have hnext : declared.entries = (r.declare entry.1 entry.2).declarations.entries ++ todo := by
      rw [declare, InsertionMap.entries_insert_of_not_mem hnew, hentries, List.append_assoc]
      rfl
    rw [List.map_cons, List.cons_append,
      readLines_cons_of_isClean
        (isClean_writeDeclaration (Text.isWord_of_isIdentifier hname) _) hread,
      ih hnext fun later hlater => hvalues later (List.mem_cons_of_mem entry hlater),
      List.length_cons, Nat.add_right_comm, Nat.add_assoc]
    rfl

/-- Clauses with the numbers of successive lines. -/
def numberedFrom (line : ℕ) : List Clause → List Clause
  | [] => []
  | clause :: rest => { clause with line } :: numberedFrom (line + 1) rest

theorem map_fields_numberedFrom (line : ℕ) (clauses : List Clause) :
    (numberedFrom line clauses).map Clause.fields = clauses.map Clause.fields := by
  induction clauses generalizing line with
  | nil => rfl
  | cons clause rest ih =>
    rw [numberedFrom, List.map_cons, List.map_cons, ih]
    rfl

/-- The lines of the clauses, one by one. -/
theorem readLines_writeClauses (hnames : rule.HasProperNames) {todo : List Clause}
    (hfields : ∀ clause ∈ todo, ∀ field ∈ clause.fields, rule.CanWrite field)
    (hsame : r.declarations = rule.declarations) (rest : List (List Char)) :
    readLines line (todo.map rule.writeClause ++ rest) .table r =
      readLines (line + todo.length) rest .table
        { r with clauses := r.clauses ++ numberedFrom line todo } := by
  induction todo generalizing line r with
  | nil =>
    rw [numberedFrom, List.append_nil]
    rfl
  | cons clause todo ih =>
    have hclause := hfields clause List.mem_cons_self
    have hnext : (r.push { clause with line }).declarations = rule.declarations := hsame
    rw [List.map_cons, List.cons_append,
      readLines_cons_of_isClean (isClean_writeClause hnames hclause)
        (readTableLine_writeClause hnames hclause hsame),
      ih (fun later hlater => hfields later (List.mem_cons_of_mem clause hlater)) hnext,
      List.length_cons, Nat.add_right_comm, Nat.add_assoc, push, numberedFrom,
      List.append_assoc]
    rfl

/-! ## Headers -/

theorem readLines_cons_header {header : List Char} {current opened : Section}
    (htrim : Text.trim ('@' :: header) = '@' :: header)
    (hopen : r.openSection header = .ok (opened, next)) (rest : List (List Char)) :
    readLines line (('@' :: header) :: rest) current r =
      readLines (line + 1) rest opened next := by
  rw [readLines, readLine, Line.classify, htrim]
  simp only [hopen]

theorem readLines_nameLine {name : String} (hne : name ≠ "")
    (htrim : Text.trim name.toList = name.toList) {current : Section}
    (rest : List (List Char)) :
    readLines line (("@RULE ".toList ++ name.toList) :: rest) current r =
      readLines (line + 1) rest .description { r with name := some name } := by
  have hnonempty : name.toList ≠ [] := by simpa using hne
  have hend := Text.trimEnd_of_trim htrim
  have hkeyword : Text.isIdentifier "RULE".toList = true := by decide
  have hplain := (Text.isWord_of_isIdentifier hkeyword).isBlank_eq_false
  have hline : Text.trim ('@' :: ("RULE".toList ++ ' ' :: name.toList)) =
      '@' :: ("RULE".toList ++ ' ' :: name.toList) := by
    rw [Text.trim_cons_of_not_isBlank rfl, List.append_cons,
      Text.trimEnd_append _ (hend.symm ▸ hnonempty), hend]
  have hargument : Line.headerArgument ("RULE".toList ++ ' ' :: name.toList) = name.toList := by
    rw [Line.headerArgument_append hplain rfl, Text.trim_cons_of_isBlank rfl, htrim]
  have hopen : r.openSection ("RULE".toList ++ ' ' :: name.toList) =
      .ok (.description, { r with name := some name }) := by
    rw [openSection_eq, Line.headerName_append hplain rfl, hargument, String.ofList_toList,
      List.isEmpty_eq_false_iff.2 hnonempty]
    simp
  exact readLines_cons_header hline hopen rest

/-! ## Whole texts -/

/-- A rule whose text tells its parts apart: the variables are named by identifiers
and have values, the states are ones that numerals may denote, and the name is a
trimmed line. -/
structure IsWritable (rule : Rule) : Prop where
  stateCount : IsStateCount rule.stateCount
  names : rule.HasProperNames
  values : ∀ entry ∈ rule.declarations.entries,
    entry.2 ≠ [] ∧ ∀ s ∈ entry.2, s < Text.numeralBound
  fields : ∀ clause ∈ rule.clauses, ∀ field ∈ clause.fields, rule.CanWrite field
  name : ∀ name ∈ rule.name,
    name ≠ "" ∧ Text.trim name.toList = name.toList ∧ '\n' ∉ name.toList

theorem readLines_writeName {name : Option String}
    (h : ∀ label ∈ name, label ≠ "" ∧ Text.trim label.toList = label.toList)
    (rest : List (List Char)) :
    readLines 1 (writeName name ++ "@TABLE".toList :: rest) .table {} =
      readLines ((writeName name).length + 2) rest .table { name } := by
  cases name with
  | none => rfl
  | some label =>
    obtain ⟨hne, htrim⟩ := h label rfl
    rw [writeName, List.singleton_append, readLines_nameLine hne htrim]
    rfl

theorem isWord_neighborhood (neighborhood : Neighborhood) :
    Text.IsWord neighborhood.name.toList := by
  cases neighborhood
  decide

theorem isWord_symmetry (symmetry : Symmetry) : Text.IsWord symmetry.name.toList := by
  cases symmetry <;> decide

/-- The lines of the parameters that are always written. -/
def parameterLines (rule : Rule) : List (List Char) :=
  ["n_states".toList ++ ':' :: Text.numeral rule.stateCount,
   "neighborhood".toList ++ ':' :: rule.neighborhood.name.toList,
   "symmetries".toList ++ ':' :: rule.symmetry.name.toList]

theorem isClean_of_mem_parameterLines :
    ∀ raw ∈ rule.parameterLines, Line.IsClean raw := by
  intro raw hraw
  simp only [parameterLines, List.mem_cons, List.not_mem_nil, or_false] at hraw
  rcases hraw with rfl | rfl | rfl
  · exact isClean_parameter (by decide) (Text.isWord_numeral _)
  · exact isClean_parameter (by decide) (isWord_neighborhood _)
  · exact isClean_parameter (by decide) (isWord_symmetry _)

theorem readLines_parameterLines (hcount : IsStateCount rule.stateCount)
    (rest : List (List Char)) :
    readLines line (rule.parameterLines ++ rest) .table r =
      readLines (line + 3) rest .table
        { r with
          stateCount := rule.stateCount
          neighborhood := rule.neighborhood
          symmetry := rule.symmetry } := by
  have hbound : rule.stateCount < Text.numeralBound := by
    have hle := hcount.2
    rw [greatestStateCount] at hle
    rw [Text.numeralBound]
    omega
  have hneighborhood : Neighborhood.ofName? rule.neighborhood.name.toList =
      some rule.neighborhood := by
    cases rule.neighborhood
    decide
  have hsymmetry : Symmetry.ofName? rule.symmetry.name.toList = some rule.symmetry := by
    cases rule.symmetry <;> decide
  have hclean := @isClean_of_mem_parameterLines rule
  simp only [parameterLines, List.mem_cons, List.not_mem_nil, or_false, forall_eq_or_imp,
    forall_eq] at hclean
  obtain ⟨hfirst, hsecond, hthird⟩ := hclean
  rw [parameterLines, List.cons_append, List.cons_append, List.cons_append, List.nil_append,
    readLines_cons_of_isClean hfirst
      (readTableLine_parameter (by decide) (Text.isWord_numeral _)
        (.stateCount rfl (readStateCount_eq_ok_iff.2
          ⟨Text.readSignedNumeral_numeral hbound, hcount⟩))),
    readLines_cons_of_isClean hsecond
      (readTableLine_parameter (by decide) (isWord_neighborhood _)
        (.neighborhood rfl hneighborhood)),
    readLines_cons_of_isClean hthird
      (readTableLine_parameter (by decide) (isWord_symmetry _)
        (.symmetry (.inl rfl) hsymmetry))]

theorem writeLines_eq (rule : Rule) :
    rule.writeLines =
      writeName rule.name ++ "@TABLE".toList :: (rule.parameterLines ++
        (rule.declarations.entries.map (fun entry => writeDeclaration entry.1 entry.2) ++
          rule.clauses.map rule.writeClause)) := by
  rw [writeLines]
  simp [parameterLines]

theorem newline_not_mem_writeLines (h : rule.IsWritable) :
    ∀ raw ∈ rule.writeLines, '\n' ∉ raw := by
  intro raw hraw
  rw [writeLines_eq, List.mem_append, List.mem_cons, List.mem_append, List.mem_append] at hraw
  rcases hraw with hname | rfl | hparameter | hdeclaration | hclause
  · cases hlabel : rule.name with
    | none =>
      rw [hlabel] at hname
      cases hname
    | some name =>
      rw [hlabel, writeName, List.mem_singleton] at hname
      have hkeyword : '\n' ∉ "@RULE ".toList := by decide
      rw [hname, List.mem_append, not_or]
      exact ⟨hkeyword, (h.name name hlabel).2.2⟩
  · decide
  · exact (isClean_of_mem_parameterLines raw hparameter).newline
  · obtain ⟨entry, hentry, rfl⟩ := List.mem_map.1 hdeclaration
    have hproper := h.names entry.1 (List.mem_map.2 ⟨entry, hentry, rfl⟩)
    exact (isClean_writeDeclaration (Text.isWord_of_isIdentifier hproper) _).newline
  · obtain ⟨clause, hmem, rfl⟩ := List.mem_map.1 hclause
    exact (isClean_writeClause h.names (h.fields clause hmem)).newline

/-- A written rule is read back, all but what the text does not hold. -/
theorem read_write_eq (h : rule.IsWritable) :
    read rule.write = .ok
      { rule with
        description := ""
        parameters := .empty
        clauses := numberedFrom
          ((writeName rule.name).length + 5 + rule.declarations.size) rule.clauses } := by
  have hname : ∀ name ∈ rule.name, name ≠ "" ∧ Text.trim name.toList = name.toList :=
    fun name hname => ⟨(h.name name hname).1, (h.name name hname).2.1⟩
  have hclauses := fun line =>
    @readLines_writeClauses { rule with description := "", parameters := .empty, clauses := [] }
      rule line h.names rule.clauses h.fields rfl [[]]
  rw [read, write, String.toList_ofList,
    Line.rawLines_flatten (newline_not_mem_writeLines h), writeLines_eq, List.append_assoc,
    List.cons_append, List.append_assoc, List.append_assoc,
    readLines_writeName hname, readLines_parameterLines h.stateCount,
    readLines_writeDeclarations rfl h.names h.values, hclauses]
  rfl

/-- Reading undoes writing: of every rule whose parts can be written, the text is read
as a rule with the same name, parameters and variables and with the same clauses. -/
theorem written_rule_is_read_back (h : rule.IsWritable) :
    ∃ copy, read rule.write = .ok copy ∧ copy.name = rule.name ∧
      copy.stateCount = rule.stateCount ∧ copy.neighborhood = rule.neighborhood ∧
      copy.symmetry = rule.symmetry ∧ copy.declarations = rule.declarations ∧
      copy.clauses.map Clause.fields = rule.clauses.map Clause.fields :=
  ⟨_, read_write_eq h, rfl, rfl, rfl, rfl, rfl, map_fields_numberedFrom _ _⟩

/-- A rule whose names look like other parts of a rule table. -/
def masked : Rule where
  name := some "#1 @TABLE"
  stateCount := 256
  symmetry := .rotate8
  declarations :=
    ((InsertionMap.empty.insert "var" [4294967295, 0]).insert "n_states" [1]).insert "0a" [7, 7]
  clauses :=
    [{ center := .var 0
       ring := ⟨[.var 1, .var 2, .state 0, .state 0, .state 0, .state 0, .state 0, .var 1], rfl⟩
       next := .state 4294967295
       line := 0 }]

theorem masked_is_read_back :
    masked.IsWritable ∧
    masked.write = "@RULE #1 @TABLE\n@TABLE\nn_states:256\nneighborhood:Moore\n" ++
      "symmetries:rotate8\nvar var={4294967295,0}\nvar n_states={1}\nvar 0a={7,7}\n" ++
      "var,n_states,0a,0,0,0,0,0,n_states,4294967295\n" ∧
    ∃ copy, read masked.write = .ok copy ∧ copy.name = masked.name ∧
      copy.stateCount = masked.stateCount ∧ copy.neighborhood = masked.neighborhood ∧
      copy.symmetry = masked.symmetry ∧ copy.declarations = masked.declarations ∧
      copy.clauses.map Clause.fields = masked.clauses.map Clause.fields := by
  have hnames : ∀ label ∈ masked.declarations.keys, Text.isIdentifier label.toList = true := by
    decide +kernel
  have hwritable : masked.IsWritable := by
    refine ⟨by decide, hnames, by decide, by decide, ?_⟩
    rintro name ⟨rfl⟩
    decide
  exact ⟨hwritable, by decide +kernel, written_rule_is_read_back hwritable⟩

end Rule

end Cellular
