import Cellular.Proofs.Key

/-!
# Faults that a key hides

A line that is at fault stays at fault in its shortest layout, with one
exception: where a mark stands in place of the name that a declaration should
give, the blank after the keyword is left out, and what remains can be a
parameter.  So a text whose key can be read is itself read exactly if it has no
such line.
-/

namespace Cellular

namespace TableLine

open Rule (isTight squeezed)

/-- A declaration that is a parameter in its shortest layout: a mark stands in
place of the name, and there is one colon. -/
def LosesKeyword (text : List Char) : Prop :=
  ∃ body ∈ declarationBody? text,
    (Text.trimStart body).head?.any isTight = true ∧ text.count ':' = 1

instance (text : List Char) : Decidable (LosesKeyword text) :=
  inferInstanceAs (Decidable (∃ body ∈ declarationBody? text, _))

variable {text : List Char}

theorem ofContent_squeezed_of_mark {body : List Char}
    (h : declarationBody? text = some body)
    (hmark : (Text.trimStart body).head?.any isTight = true)
    (hcount : text.count ':' ≠ 1) : ofContent (squeezed text) = .unrecognized := by
  obtain ⟨c, htext, hc, hmem⟩ := declarationBody?_eq_some_iff.1 h
  have hequals : '=' ∈ text := by
    rw [htext]
    exact List.mem_append_right _ (List.mem_cons_of_mem c hmem)
  have hhead : (squeezed body).head?.any isTight = true := by
    rw [squeezed, Text.head?_squeeze]
    exact hmark
  have hsqueezed : squeezed text = "var".toList ++ squeezed body := by
    rw [htext, squeezed_keyword_append hc, if_neg]
    rw [head?_any_not_isTight ((Rule.mem_squeezed_iff rfl).2 hmem), hhead]
    exact Bool.false_ne_true
  have hbody : declarationBody? (squeezed text) = none := by
    rw [← Option.not_isSome_iff_eq_none]
    intro hsome
    obtain ⟨rest, hrest⟩ := Option.isSome_iff_exists.1 hsome
    obtain ⟨d, htight, hd, -⟩ := declarationBody?_eq_some_iff.1 hrest
    rw [hsqueezed, List.append_cancel_left_eq] at htight
    rw [htight] at hhead
    rw [Text.isBlank_of_isTight hhead] at hd
    cases hd
  have hshaped : isTransitionShaped (squeezed text) = false := by
    rw [isTransitionShaped_squeezed, isTransitionShaped, ← Bool.not_eq_true,
      Bool.and_eq_true, List.all_eq_true]
    intro hboth
    exact absurd (hboth.2 '=' hequals) (by decide)
  rw [ofContent_of_no_declarationBody hbody, Rule.count_squeezed rfl, if_neg hcount,
    hshaped, if_neg Bool.false_ne_true]

theorem ofContent_squeezed_of_unrecognized
    (hstart : text.head?.any Text.isBlank = false)
    (h : ofContent text = .unrecognized) :
    ofContent (squeezed text) = .unrecognized := by
  cases hbody : declarationBody? text with
  | some body =>
    rw [ofContent_of_declarationBody hbody] at h
    cases h
  | none =>
    rw [ofContent_of_no_declarationBody hbody] at h
    rw [ofContent_of_no_declarationBody (declarationBody?_squeezed_eq_none hstart hbody),
      Rule.count_squeezed rfl, isTransitionShaped_squeezed]
    split at h
    · cases h
    · rename_i hcount
      split at h
      · cases h
      · rename_i hshaped
        rw [if_neg hcount, if_neg hshaped]

end TableLine

namespace Rule

variable {r s : Rule}

/-! ## Lines of the table section -/

/-- A declaration that is read in its shortest layout is read. -/
theorem exists_readDeclaration_of_squeezed (hdeclarations : s.declarations = r.declarations)
    (hnames : r.HasProperNames) {name valueSet : List Char} {moved : Rule}
    (hname : Text.trim name = name) (hvalueSet : Text.trim valueSet = valueSet)
    (h : s.readDeclaration (squeezed name) (squeezed valueSet) = .ok moved) :
    ∃ next, r.readDeclaration name valueSet = .ok next := by
  obtain ⟨hidentifier, hcontains, values, hvalues, -⟩ := readDeclaration_eq_ok_iff.1 h
  have hsame := Text.trim_eq_of_squeeze_eq (Text.plain_of_isIdentifier hidentifier) rfl
  rw [← hsame, hname] at hidentifier hcontains hvalues
  rw [hdeclarations] at hcontains
  rw [readValueSet_congr hdeclarations, readValueSet_squeezed_iff hnames hvalueSet]
    at hvalues
  exact ⟨_, readDeclaration_eq_ok_iff.2 ⟨hidentifier, hcontains, values, hvalues, rfl⟩⟩

/-- A parameter that is read in its shortest layout is read. -/
theorem exists_readParameter_of_squeezed {key value : List Char} {moved : Rule}
    (hkey : Text.trim key = key) (hvalue : Text.trim value = value)
    (h : s.readParameter (squeezed key) (squeezed value) = .ok moved) :
    ∃ next, r.readParameter key value = .ok next := by
  have hkeyword : ∀ word : String, Text.isIdentifier word.toList = true →
      (String.ofList (squeezed key) = word ↔ String.ofList key = word) :=
    fun word => ofList_squeezed_eq_iff hkey
  have hstates := hkeyword "n_states" rfl
  have hneighborhood := hkeyword "neighborhood" rfl
  have hsymmetries := hkeyword "symmetries" rfl
  have hsymmetry := hkeyword "symmetry" rfl
  have hset : ∃ next, r.SetsParameter (String.ofList key) value next := by
    cases setsParameter_of_readParameter h with
    | stateCount hword hread =>
      exact ⟨_, .stateCount (hstates.1 hword) ((readStateCount_squeezed_iff hvalue).1 hread)⟩
    | neighborhood hword hread =>
      rw [neighborhood_squeezed] at hread
      exact ⟨_, .neighborhood (hneighborhood.1 hword) hread⟩
    | symmetry hword hread =>
      exact ⟨_, .symmetry (hword.imp hsymmetries.1 hsymmetry.1)
        (symmetry_squeezed_iff.1 hread)⟩
    | other hotherStates hotherNeighborhood hotherSymmetries hotherSymmetry =>
      exact ⟨_, .other (mt hstates.2 hotherStates)
        (mt hneighborhood.2 hotherNeighborhood) (mt hsymmetries.2 hotherSymmetries)
        (mt hsymmetry.2 hotherSymmetry)⟩
  obtain ⟨next, hnext⟩ := hset
  exact ⟨next, readParameter_of_setsParameter hnext⟩

/-- The part of a line of the table section that is looked at. -/
abbrev tableText (text : List Char) : List Char :=
  Text.trimEnd (Line.uncommented text)

/-- A line that is read in its shortest layout is read, unless it loses its
keyword there. -/
theorem exists_readTableLine_of_tightened (hdeclarations : s.declarations = r.declarations)
    (hnames : r.HasProperNames) (line : ℕ) {other : ℕ} {text : List Char} {moved : Rule}
    (hstart : (tableText text).head?.any Text.isBlank = false)
    (hkeeps : ¬ TableLine.LosesKeyword (tableText text))
    (h : s.readTableLine other (tightened text) = .ok moved) :
    ∃ next, r.readTableLine line text = .ok next := by
  rw [readTableLine, uncommented_tightened] at h
  rw [readTableLine]
  cases hform : TableLine.ofContent (tableText text) with
  | declaration name valueSet =>
    obtain ⟨body, hbody, hname, hvalueSet⟩ :=
      TableLine.ofContent_eq_declaration_iff.1 hform
    cases hmark : (Text.trimStart body).head?.any isTight with
    | true =>
      -- A mark in place of the name: one colon more or less would leave nothing.
      have hcount : (tableText text).count ':' ≠ 1 :=
        fun hone => hkeeps ⟨body, hbody, hmark, hone⟩
      rw [TableLine.ofContent_squeezed_of_mark hbody hmark hcount] at h
      cases h
    | false =>
      rw [← Text.head?_squeeze isTight] at hmark
      rw [TableLine.ofContent_squeezed_of_declarationBody hbody hmark] at h
      rw [← squeezed_trim, ← squeezed_trim (TableLine.cutAt '=' body).2, ← hname,
        ← hvalueSet] at h
      apply exists_readDeclaration_of_squeezed hdeclarations hnames _ _ h
      · rw [hname, Text.trim_trim]
      · rw [hvalueSet, Text.trim_trim]
  | parameter key value =>
    rw [TableLine.ofContent_squeezed_of_parameter hstart hform] at h
    obtain ⟨-, -, hkey, hvalue⟩ := TableLine.ofContent_eq_parameter_iff.1 hform
    apply exists_readParameter_of_squeezed _ _ h
    · rw [hkey, Text.trim_trim]
    · rw [hvalue, Text.trim_trim]
  | transition tokens =>
    rw [TableLine.ofContent_squeezed_of_transition hstart hform] at h
    cases hread : s.readTransition other tokens with
    | error fault =>
      simp only [hread] at h
      cases h
    | ok clause =>
      obtain ⟨found, hfound, -⟩ := exists_readTransition hdeclarations.symm line hread
      simp only [hfound]
      exact ⟨_, rfl⟩
  | unrecognized =>
    rw [TableLine.ofContent_squeezed_of_unrecognized hstart hform] at h
    cases h

/-- A line that is read gives a name where it starts with the keyword. -/
theorem not_losesKeyword_of_readTableLine {line : ℕ} {text : List Char} {next : Rule}
    (h : r.readTableLine line text = .ok next) :
    ¬ TableLine.LosesKeyword (tableText text) := by
  rintro ⟨body, hbody, hmark, -⟩
  obtain ⟨c, -, -, hmem⟩ := TableLine.declarationBody?_eq_some_iff.1 hbody
  rw [readTableLine, TableLine.ofContent_of_declarationBody hbody] at h
  have hname := (readDeclaration_eq_ok_iff.1 h).1
  have hplain := (TableLine.head?_squeezed_of_isIdentifier hmem hname).2
  rw [squeezed, Text.head?_squeeze, hmark] at hplain
  cases hplain

/-! ## Texts -/

/-- The lines of the table section, as far as they are looked at.  `inTable`
tells whether the first line is in the table section. -/
def tableTexts (inTable : Bool) : List (List Char) → List (List Char)
  | [] => []
  | raw :: rest =>
    match Line.classify raw with
    | .skipped => tableTexts inTable rest
    | .header text => tableTexts (opensTable text) rest
    | .content text =>
      if inTable then tableText text :: tableTexts inTable rest
      else tableTexts inTable rest

theorem exists_openSection_iff {header : List Char} :
    (∃ result, r.openSection header = .ok result) ↔
      String.ofList (Line.headerName header) ≠ "" := by
  rw [openSection_eq]
  split
  · rename_i hempty
    simp [hempty]
  · rename_i hempty
    simp only [ne_eq, hempty, not_false_iff, iff_true]
    split
    · split <;> exact ⟨_, rfl⟩
    · split <;> exact ⟨_, rfl⟩

/-- The first line of a text that is read loses no keyword, and the other lines
are looked at as reading goes on with them. -/
theorem tableTexts_of_readLine {line : ℕ} {raw : List Char} {current opened : Section}
    {next : Rule} (h : readLine line raw current r = .ok (opened, next)) :
    ∃ first, (∀ text ∈ first, ¬ TableLine.LosesKeyword text) ∧
      ∀ rest, tableTexts (current = .table) (raw :: rest) =
        first ++ tableTexts (opened = .table) rest := by
  have hnone : ∀ text ∈ ([] : List (List Char)), ¬ TableLine.LosesKeyword text := by
    intro text hmem
    cases hmem
  rw [readLine] at h
  cases hclass : Line.classify raw with
  | skipped =>
    rw [hclass] at h
    cases h
    refine ⟨[], hnone, fun rest => ?_⟩
    simp only [tableTexts, hclass, List.nil_append]
  | header text =>
    rw [hclass] at h
    refine ⟨[], hnone, fun rest => ?_⟩
    simp only [tableTexts, hclass, opensTable_of_openSection h, List.nil_append]
  | content text =>
    rw [hclass] at h
    cases current with
    | table =>
      cases hread : r.readTableLine line text with
      | error fault =>
        simp only [hread] at h
        cases h
      | ok read =>
        simp only [hread] at h
        cases h
        refine ⟨[tableText text], ?_, fun rest => ?_⟩
        · rw [List.forall_mem_singleton]
          exact not_losesKeyword_of_readTableLine hread
        · simp only [tableTexts, hclass, decide_true, if_true, List.singleton_append]
    | description | ignored =>
      cases h
      refine ⟨[], hnone, fun rest => ?_⟩
      simp [tableTexts, hclass]

/-- The first line of a text is read if the first line of the key is, unless it
loses its keyword. -/
theorem exists_readLine_of_keyLines (hsame : SameReading s r) (hnames : r.HasProperNames)
    (line : ℕ) {other : ℕ} {raw : List Char} {rest : List (List Char)}
    {current : Section} {moved : Rule}
    (hkeeps : ∀ text ∈ tableTexts (current = .table) (raw :: rest),
      ¬ TableLine.LosesKeyword text)
    (h : readLines other (keyLines (current = .table) (raw :: rest)) current s =
      .ok moved) :
    ∃ opened next, readLine line raw current r = .ok (opened, next) := by
  rw [keyLines] at h
  rw [tableTexts] at hkeeps
  rw [readLine]
  cases hclass : Line.classify raw with
  | skipped => exact ⟨_, _, rfl⟩
  | header text =>
    rw [hclass] at h
    obtain ⟨header, hheader, hname, -⟩ := exists_header text
    cases hopen : s.openSection header with
    | error fault =>
      simp only [readLines, readLine, hheader, hopen] at h
      cases h
    | ok result =>
      have hnonempty := exists_openSection_iff.1 ⟨result, hopen⟩
      rw [hname] at hnonempty
      obtain ⟨⟨opened, next⟩, hnext⟩ := (exists_openSection_iff (r := r)).2 hnonempty
      exact ⟨opened, next, hnext⟩
  | content text =>
    rw [hclass] at h hkeeps
    cases current with
    | table =>
      simp only [decide_true, if_true, List.forall_mem_cons] at h hkeeps
      obtain ⟨hcontent, hstart⟩ := classify_tightened hclass
      cases hread : s.readTableLine other (tightened text) with
      | error fault =>
        simp only [readLines, readLine, hcontent, hread] at h
        cases h
      | ok between =>
        obtain ⟨next, hnext⟩ := exists_readTableLine_of_tightened
          hsame.declarations_eq hnames line hstart hkeeps.1 hread
        simp only [hnext]
        exact ⟨_, _, rfl⟩
    | description | ignored => exact ⟨_, _, rfl⟩

/-- The two readings, side by side from any line on: where the one of the key
succeeds, so does the one of the text. -/
theorem exists_readLines_of_keyLines {line other : ℕ} {raws : List (List Char)}
    {current : Section} {moved : Rule} (hsame : SameReading s r)
    (hnames : r.HasProperNames)
    (hkeeps : ∀ text ∈ tableTexts (current = .table) raws,
      ¬ TableLine.LosesKeyword text)
    (h : readLines other (keyLines (current = .table) raws) current s = .ok moved) :
    ∃ final, readLines line raws current r = .ok final := by
  induction raws generalizing line other current r s with
  | nil => exact ⟨r, rfl⟩
  | cons raw rest ih =>
    obtain ⟨opened, next, hread⟩ :=
      exists_readLine_of_keyLines hsame hnames line hkeeps h
    obtain ⟨between, later, hnext, hstep⟩ := readLine_keyLines hsame hnames other hread
    obtain ⟨first, -, htexts⟩ := tableTexts_of_readLine hread
    rw [hstep] at h
    rw [htexts, List.forall_mem_append] at hkeeps
    rw [readLines, hread]
    exact ih hnext (hasProperNames_of_readLine hnames hread) hkeeps.2 h

/-- No line of a text that is read loses its keyword. -/
theorem not_losesKeyword_of_readLines {line : ℕ} {raws : List (List Char)}
    {current : Section} {final : Rule} (h : readLines line raws current r = .ok final) :
    ∀ text ∈ tableTexts (current = .table) raws, ¬ TableLine.LosesKeyword text := by
  induction raws generalizing line current r with
  | nil =>
    intro text hmem
    cases hmem
  | cons raw rest ih =>
    rw [readLines] at h
    cases hread : readLine line raw current r with
    | error fault =>
      rw [hread] at h
      cases h
    | ok result =>
      obtain ⟨opened, next⟩ := result
      rw [hread] at h
      obtain ⟨first, hfirst, htexts⟩ := tableTexts_of_readLine hread
      rw [htexts, List.forall_mem_append]
      exact ⟨hfirst, ih h⟩

theorem not_losesKeyword_of_read {text : String} {rule : Rule} (h : read text = .ok rule) :
    ∀ line ∈ tableTexts true (Line.rawLines text.toList), ¬ TableLine.LosesKeyword line := by
  rw [read] at h
  have hkeeps := not_losesKeyword_of_readLines h
  exact hkeeps

/-- A text is read if its key is and no line of its table section loses its keyword. -/
theorem exists_read_of_read_key {text : String} {moved : Rule}
    (h : read (key text) = .ok moved)
    (hkeeps : ∀ line ∈ tableTexts true (Line.rawLines text.toList),
      ¬ TableLine.LosesKeyword line) : ∃ rule, read text = .ok rule := by
  rw [read, readLines_rawLines_key] at h
  have hstart : SameReading {} {} := ⟨rfl, rfl⟩
  have hlines : readLines 1 (keyLines (decide (Section.table = .table))
      (Line.rawLines text.toList)) .table {} = .ok moved := h
  exact exists_readLines_of_keyLines hstart hasProperNames_default hkeeps hlines

/-- A text whose key can be read, or is the key of another text that can be read,
is itself read exactly if no line of its table section loses its keyword in the
shortest layout. -/
theorem exists_read_iff_of_read_key {text : String}
    (h : (∃ moved, read (key text) = .ok moved) ∨
      ∃ other rule, key other = key text ∧ read other = .ok rule) :
    (∃ rule, read text = .ok rule) ↔
      ∀ line ∈ tableTexts true (Line.rawLines text.toList),
        ¬ TableLine.LosesKeyword line := by
  have hkey : ∃ moved, read (key text) = .ok moved := by
    rcases h with hmoved | ⟨other, rule, hsame, hread⟩
    · exact hmoved
    · obtain ⟨moved, hmoved, -⟩ := read_key hread
      exact ⟨moved, hsame ▸ hmoved⟩
  obtain ⟨moved, hmoved⟩ := hkey
  exact ⟨fun ⟨_, hread⟩ => not_losesKeyword_of_read hread, exists_read_of_read_key hmoved⟩

/-- Blanks before the marks of a parameter and of a declaration. -/
theorem blanksBeforeMarks_read :
    ((∃ moved, read (key "var :a\nvar b ={0}") = .ok moved) ∨
      ∃ other rule, key other = key "var :a\nvar b ={0}" ∧ read other = .ok rule) ∧
    ∃ rule, read "var :a\nvar b ={0}" = .ok rule := by
  have hkey : key "var :a\nvar b ={0}" = "var:a\nvar b={0}" := by decide +kernel
  have hread : ∃ rule, read "var:a\nvar b={0}" = .ok rule := ⟨_, rfl⟩
  rw [← hkey] at hread
  have h : (∃ moved, read (key "var :a\nvar b ={0}") = .ok moved) ∨
      ∃ other rule, key other = key "var :a\nvar b ={0}" ∧ read other = .ok rule :=
    Or.inl hread
  exact ⟨h, (exists_read_iff_of_read_key h).2 (by decide +kernel)⟩

/-- A declaration without a name and a parameter with the same key: the one is
refused, the other is read. -/
theorem unnamedDeclaration_hidden :
    key "@TABLE\nvar ={0:1}\n" = key "@TABLE\nvar={0:1}\n" ∧
    (∃ rule, read "@TABLE\nvar={0:1}\n" = .ok rule) ∧
    ¬ ((∃ moved, read (key "@TABLE\nvar ={0:1}\n") = .ok moved) →
      ∃ rule, read "@TABLE\nvar ={0:1}\n" = .ok rule) := by
  have hkey : key "@TABLE\nvar ={0:1}\n" = "@TABLE\nvar={0:1}" := by decide +kernel
  have hother : key "@TABLE\nvar={0:1}\n" = "@TABLE\nvar={0:1}" := by decide +kernel
  have hfault : read "@TABLE\nvar ={0:1}\n" =
      .error ⟨2, .declaration (.badName "")⟩ := by decide +kernel
  refine ⟨hkey.trans hother.symm, ⟨_, rfl⟩, fun hlegal => ?_⟩
  obtain ⟨rule, hread⟩ := hlegal ⟨_, by rw [hkey]; rfl⟩
  rw [hfault] at hread
  cases hread

end Rule

end Cellular
