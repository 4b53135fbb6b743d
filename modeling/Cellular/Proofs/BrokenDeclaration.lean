import Cellular.Proofs.Layout
import Cellular.Proofs.Transcript
import Cellular.Proofs.WrittenLine

/-!
# Broken declarations

A line may start like the declaration of a variable and go on in another way.  An
equals sign anywhere on the line is what makes it a declaration: with one, the line is
reported as a broken declaration, and without one it is taken for something else.
-/

namespace Cellular

/-- The faults that only declarations have. -/
def LineFault.IsOfDeclaration : LineFault → Prop
  | .declaration _ | .duplicateVariable _ => True
  | _ => False

namespace Text

theorem trim_gap_append {gap : List Char} (hgap : IsGap gap) (text : List Char) :
    trim (gap ++ text) = trim text := by
  induction gap with
  | nil => rfl
  | cons c gap ih =>
    rw [IsGap, List.forall_mem_cons] at hgap
    rw [List.cons_append, trim_cons_of_isBlank hgap.1, ih hgap.2]

theorem isGap_of_trimEnd_eq_nil {text : List Char} (h : trimEnd text = []) : IsGap text := by
  induction text with
  | nil => exact isGap_nil
  | cons c text ih =>
    rw [trimEnd_cons] at h
    split at h
    · rename_i hblank
      exact List.forall_mem_cons.2 ⟨hblank.1, ih hblank.2⟩
    · cases h

/-- Only blanks can follow a whole identifier in a text that is trimmed to one. -/
theorem isGap_of_isIdentifier_trim {name rest : List Char} (hname : isIdentifier name = true)
    (hends : rest.head?.any isNameChar = false)
    (h : isIdentifier (trim (name ++ rest)) = true) : IsGap rest := by
  by_contra hgap
  have hne : trimEnd rest ≠ [] := fun hnil => hgap (isGap_of_trimEnd_eq_nil hnil)
  have htrim : trim (name ++ rest) = name ++ trimEnd rest := by
    rw [← trimEnd_append name hne]
    obtain ⟨c, name, rfl⟩ := List.exists_cons_of_ne_nil (ne_nil_of_isIdentifier hname)
    have hc := (plain_of_isIdentifier hname c List.mem_cons_self).1
    rw [List.cons_append, trim_cons_of_not_isBlank hc, trimEnd_cons_of_not_isBlank hc]
  obtain ⟨d, others, hothers⟩ := List.exists_cons_of_ne_nil hne
  have hhead : rest.head? = some d := by
    rw [← head?_trimEnd hne, hothers, List.head?_cons]
  have hd : isNameChar d = true := by
    apply (isWord_of_isIdentifier h).isNameChar_eq_true
    rw [htrim, hothers]
    exact List.mem_append_right _ List.mem_cons_self
  rw [hhead, Option.any_some, hd] at hends
  cases hends

end Text

namespace TableLine

/-- An equals sign and, up to blanks, a value set. -/
def IsAssignment (declared : List (String × List State)) (rest : List Char) : Prop :=
  ∃ gap valueSet values, Text.IsGap gap ∧ rest = gap ++ '=' :: valueSet ∧
    IsValueSet declared (Text.trim valueSet) values

/-- The line starts with the keyword and a whole name, as declarations do, but goes on in
another way. -/
def IsBrokenDeclaration (declared : List (String × List State)) (text : List Char) : Prop :=
  ∃ gap name rest, text = "var".toList ++ gap ++ name ++ rest ∧
    Text.IsGap gap ∧ gap ≠ [] ∧ Text.isIdentifier name = true ∧
    rest.head?.any Text.isNameChar = false ∧ ¬ IsAssignment declared rest

variable {declared : List (String × List State)} {text : List Char}

/-- With an equals sign the line has the form of a declaration, whose name or value set is
not one. -/
theorem IsBrokenDeclaration.ofContent_eq (h : IsBrokenDeclaration declared text)
    (hmem : '=' ∈ text) :
    ∃ name valueSet, ofContent text = .declaration name valueSet ∧
      (Text.isIdentifier name = true → ∀ values, ¬ IsValueSet declared valueSet values) := by
  obtain ⟨gap, name, rest, rfl, hgap, hne, hname, hends, hrest⟩ := h
  obtain ⟨c, gap, rfl⟩ := List.exists_cons_of_ne_nil hne
  rw [Text.IsGap, List.forall_mem_cons] at hgap
  have hgapEquals : '=' ∉ gap := Text.IsGap.not_mem hgap.2 rfl
  have hnameEquals : '=' ∉ name := by
    intro hmem
    cases (Text.plain_of_isIdentifier hname '=' hmem).2
  have hc : '=' ≠ c := by
    rintro rfl
    cases hgap.1
  have hmemRest : '=' ∈ rest := by simpa [hc, hgapEquals, hnameEquals] using hmem
  obtain ⟨left, valueSet, rfl, hleft⟩ := List.eq_append_cons_of_mem hmemRest
  have hbody : declarationBody? ("var".toList ++ c :: gap ++ name ++ (left ++ '=' :: valueSet)) =
      some (gap ++ name ++ left ++ '=' :: valueSet) :=
    declarationBody?_eq_some_iff.2 ⟨c, by simp, hgap.1, by simp⟩
  have hcut : cutAt '=' (gap ++ name ++ left ++ '=' :: valueSet) =
      (gap ++ (name ++ left), valueSet) := by
    rw [cutAt_append (by simp [hgapEquals, hnameEquals, hleft]), List.append_assoc]
  refine ⟨_, _, ofContent_of_declarationBody hbody, ?_⟩
  rw [hcut, Text.trim_gap_append hgap.2]
  intro hwhole values hvalues
  have hleftEnds : left.head?.any Text.isNameChar = false := by
    cases left with
    | nil => rfl
    | cons d left => exact hends
  exact hrest ⟨left, valueSet, values, Text.isGap_of_isIdentifier_trim hname hleftEnds hwhole,
    rfl, hvalues⟩

theorem IsBrokenDeclaration.head? (h : IsBrokenDeclaration declared text) :
    text.head? = some 'v' := by
  obtain ⟨gap, name, rest, rfl, -⟩ := h
  rfl

theorem head?_trim_cutAt (h : text.head? = some 'v') :
    (Text.trim (cutAt ':' text).1).head? = some 'v' := by
  obtain ⟨rest, rfl⟩ := List.head?_eq_some_iff.1 h
  have hcut : (cutAt ':' ('v' :: rest)).1 = 'v' :: (cutAt ':' rest).1 := rfl
  rw [hcut, Text.trim_cons_of_not_isBlank rfl, List.head?_cons]

end TableLine

namespace Rule

open TableLine

variable {r final : Rule} {text content : List Char} {line : ℕ}

/-! ## One line -/

theorem isOfDeclaration_of_readDeclaration {name valueSet : List Char} {fault : LineFault}
    (h : r.readDeclaration name valueSet = .error fault) : fault.IsOfDeclaration := by
  rw [readDeclaration] at h
  split at h
  · cases h
    trivial
  · split at h
    · cases h
      trivial
    · split at h
      · cases h
        trivial
      · cases h

/-- The rule with the two sides of the colon of a line as a parameter. -/
def keeping (r : Rule) (text : List Char) : Rule :=
  { r with
    parameters := r.parameters.insert (String.ofList (Text.trim (cutAt ':' text).1))
      (String.ofList (Text.trim (cutAt ':' text).2)) }

/-- No parameter that means something has a name with this initial. -/
theorem readParameter_of_head? {key : List Char} (h : key.head? = some 'v')
    (value : List Char) :
    r.readParameter key value = .ok { r with
      parameters := r.parameters.insert (String.ofList key) (String.ofList value) } := by
  have hne : ∀ word : String, word.toList.head? ≠ some 'v' → String.ofList key ≠ word := by
    rintro word hword rfl
    rw [String.toList_ofList] at hword
    exact hword h
  exact readParameter_of_setsParameter (.other (hne _ (by decide)) (hne _ (by decide))
    (hne _ (by decide)) (hne _ (by decide)))

section Line

variable (line : ℕ) (htext : text = Text.trimEnd (Line.uncommented content))
include htext

theorem readTableLine_of_mem (hnames : r.HasProperNames)
    (hbroken : IsBrokenDeclaration r.declarations.entries text) (hmem : '=' ∈ text) :
    ∃ fault, r.readTableLine line content = .error fault ∧ fault.IsOfDeclaration := by
  obtain ⟨name, valueSet, hform, hvalueSet⟩ := hbroken.ofContent_eq hmem
  have hread : r.readTableLine line content = r.readDeclaration name valueSet := by
    rw [readTableLine, ← htext, hform]
  rw [hread]
  cases hresult : r.readDeclaration name valueSet with
  | error fault => exact ⟨fault, rfl, isOfDeclaration_of_readDeclaration hresult⟩
  | ok next =>
    obtain ⟨hname, -, values, hvalues, -⟩ := readDeclaration_eq_ok_iff.1 hresult
    exact absurd ((readValueSet_eq_ok_iff hnames).1 hvalues) (hvalueSet hname values)

/-- Without an equals sign the line is kept as a parameter, taken for a transition or not
recognized. -/
theorem readTableLine_cases_of_not_mem (hnames : r.HasProperNames)
    (hbroken : IsBrokenDeclaration r.declarations.entries text) (hmem : '=' ∉ text) :
    (text.count ':' = 1 ∧ r.readTableLine line content = .ok (r.keeping text)) ∨
      text.count ':' ≠ 1 ∧
        ((∃ next, r.readTableLine line content = .ok next) ∧
            (text.splitOn ',').length = Clause.fieldCount ∨
          ∃ fault, r.readTableLine line content = .error fault ∧ ¬ fault.IsOfDeclaration) := by
  rw [readTableLine, ← htext]
  cases hform : ofContent text with
  | declaration name valueSet => exact absurd (isDeclaration_of_ofContent hform).1.2.2 hmem
  | parameter key value =>
    obtain ⟨-, hcount, rfl, rfl⟩ := ofContent_eq_parameter_iff.1 hform
    exact .inl ⟨hcount, readParameter_of_head? (head?_trim_cutAt hbroken.head?) _⟩
  | transition tokens =>
    obtain ⟨-, hcount, -, rfl⟩ := ofContent_eq_transition_iff.1 hform
    refine .inr ⟨hcount, ?_⟩
    cases hread : r.readTransition line ((text.splitOn ',').map Text.squash) with
    | error fault => exact .inr ⟨.transition fault, by simp only [hread], id⟩
    | ok clause =>
      have hlength := ((readTransition_eq_ok_iff hnames).1 hread).2.1
      rw [List.length_map] at hlength
      exact .inl ⟨⟨r.push clause, by simp only [hread]⟩, hlength⟩
  | unrecognized =>
    have hcount : text.count ':' ≠ 1 := by
      intro hcount
      rw [ofContent_of_no_declarationBody (declarationBody?_eq_none_iff.2
        fun hdeclaration => hmem hdeclaration.2.2), if_pos hcount] at hform
      cases hform
    exact .inr ⟨hcount, .inr ⟨_, rfl, id⟩⟩

end Line

/-! ## The line in its text -/

theorem readLines_cons_content {raw : List Char} (hclass : Line.classify raw = .content content)
    (below : List (List Char)) :
    readLines line (raw :: below) .table r =
      match r.readTableLine line content with
      | .error fault => .error ⟨line, fault⟩
      | .ok next => readLines (line + 1) below .table next := by
  simp only [readLines, readLine, hclass]
  cases r.readTableLine line content with
  | error fault => rfl
  | ok next => rfl

/-- Faults name lines that are still to be read. -/
theorem le_line_of_readLines {raws : List (List Char)} {current : Section} {error : ReadError}
    (h : readLines line raws current r = .error error) : line ≤ error.line := by
  induction raws generalizing line current r with
  | nil => cases h
  | cons raw raws ih =>
    rw [readLines] at h
    split at h
    · cases h
      exact Nat.le_refl line
    · exact Nat.le_of_succ_le (ih h)

/-- A line that says something with a sign of its own is read as what it says. -/
theorem exists_classify_content {raw : List Char} (h : (Line.said raw).head? = some 'v') :
    ∃ content, Line.classify raw = .content content ∧
      Line.said raw = Text.trimEnd (Line.uncommented content) := by
  have hhead := Text.head?_trim_any raw
  cases htrim : Text.trim raw with
  | nil =>
    rw [Line.said, htrim] at h
    cases h
  | cons c rest =>
    have hc : Text.isBlank c = false := by simpa [htrim] using hhead
    have hcomment : c ≠ '#' := by
      rintro rfl
      rw [Line.said, htrim] at h
      cases h
    have hsign : c = 'v' := by
      rw [Line.said, htrim, Line.uncommented, List.takeWhile_cons_of_pos (by simpa using hcomment),
        Text.trim_cons_of_not_isBlank hc, List.head?_cons, Option.some.injEq] at h
      exact h
    subst hsign
    have hclass := Line.classify_of_trim htrim hcomment (by decide)
    exact ⟨_, hclass, (Line.plain_of_classify_content hclass).2.1⟩

section Below

variable {source : String} {k : ℕ} {raw : List Char} {rule : Rule}
  (hraw : (Line.rawLines source.toList)[k]? = some raw)
  (habove : readLines 1 ((Line.rawLines source.toList).take k) .table {} = .ok rule)
  (htable : Line.InTable ((Line.rawLines source.toList).take k))
include hraw habove htable

/-- Below lines that can be read, a line of the table is read by itself. -/
theorem exists_read_eq (hclass : Line.classify raw = .content content) :
    rule.HasProperNames ∧ ∃ below,
      (read source = match rule.readTableLine (k + 1) content with
        | .error fault => .error ⟨k + 1, fault⟩
        | .ok next => readLines (k + 2) below .table next) ∧
      readLines 1 ((Line.rawLines source.toList).take (k + 1)) .table {} =
        match rule.readTableLine (k + 1) content with
        | .error fault => .error ⟨k + 1, fault⟩
        | .ok next => .ok next := by
  obtain ⟨hk, hget⟩ := List.getElem?_eq_some_iff.1 hraw
  have hlength : ((Line.rawLines source.toList).take k).length = k := by
    rw [List.length_take, Nat.min_eq_left (Nat.le_of_lt hk)]
  obtain ⟨last, hlast, hbelow⟩ := hasRead_nil.exists_readLines_append habove
  obtain rfl := hlast.current.2 htable
  rw [List.nil_append, hlength] at hbelow
  have hread : ∀ below, readLines 1 ((Line.rawLines source.toList).take k ++ raw :: below)
      .table {} = match rule.readTableLine (k + 1) content with
        | .error fault => .error ⟨k + 1, fault⟩
        | .ok next => readLines (k + 2) below .table next :=
    fun below => (hbelow _).trans (readLines_cons_content hclass below)
  refine ⟨hlast.transcribes.names, (Line.rawLines source.toList).drop (k + 1), ?_, ?_⟩
  · rw [← hread, ← hget, ← List.drop_eq_getElem_cons hk, List.take_append_drop, read]
  · rw [List.take_succ_eq_append_getElem hk, hget]
    exact hread []

/-- A line of the table that starts like a declaration and goes on in another way is
reported as a broken declaration exactly if it has an equals sign.  Unless it has the ten
fields of a transition, it is passed exactly if it has no equals sign and one colon, and
then it is kept as a parameter. -/
theorem broken_declaration_is_reported_iff
    (hbroken : IsBrokenDeclaration rule.declarations.entries (Line.said raw)) :
    ((∃ fault, read source = .error ⟨k + 1, fault⟩ ∧ fault.IsOfDeclaration) ↔
      '=' ∈ Line.said raw) ∧
    (((Line.said raw).splitOn ',').length ≠ Clause.fieldCount →
      ∀ next, readLines 1 ((Line.rawLines source.toList).take (k + 1)) .table {} = .ok next ↔
        '=' ∉ Line.said raw ∧ (Line.said raw).count ':' = 1 ∧
          rule.keeping (Line.said raw) = next) := by
  obtain ⟨content, hclass, hsaid⟩ := exists_classify_content hbroken.head?
  obtain ⟨hnames, below, hread, hupTo⟩ := exists_read_eq hraw habove htable hclass
  -- A fault of a line below is no fault of this line.
  have hlater : ∀ {next fault}, readLines (k + 2) below .table next ≠ .error ⟨k + 1, fault⟩ :=
    fun hfault => absurd (le_line_of_readLines hfault) (Nat.not_succ_le_self _)
  by_cases hmem : '=' ∈ Line.said raw
  · obtain ⟨fault, hfault, hkind⟩ := readTableLine_of_mem (k + 1) hsaid hnames hbroken hmem
    simp only [hfault] at hread hupTo
    simp [hread, hupTo, hmem, hkind]
  · rcases readTableLine_cases_of_not_mem (k + 1) hsaid hnames hbroken hmem with
      ⟨hcount, hnext⟩ | ⟨hcount, ⟨⟨next, hnext⟩, hlength⟩ | ⟨fault, hfault, hkind⟩⟩
    · simp only [hnext] at hread hupTo
      simp [hread, hupTo, hmem, hcount, hlater]
    · simp only [hnext] at hread hupTo
      simp [hread, hmem, hlength, hlater]
    · simp only [hfault] at hread hupTo
      simp [hread, hupTo, hmem, hcount, hkind]

end Below

/-- An item that no line above declares. -/
theorem unknownItem_is_reported :
    IsBrokenDeclaration [] (Line.said "var a={0,q}".toList) ∧
    read "@TABLE\nvar a={0,q}\n" = .error ⟨2, .declaration (.badItem "q")⟩ ∧
    ∃ fault, read "@TABLE\nvar a={0,q}\n" = .error ⟨2, fault⟩ ∧ fault.IsOfDeclaration := by
  have hbroken : IsBrokenDeclaration [] (Line.said "var a={0,q}".toList) := by
    refine ⟨[' '], ['a'], "={0,q}".toList, by decide, by decide, by decide, by decide,
      by decide, ?_⟩
    rintro ⟨gap, valueSet, values, hgap, hrest, hvalues⟩
    cases gap with
    | nil =>
      obtain rfl := (List.cons.inj hrest).2
      have hread : ({} : Rule).readValueSet "a" (Text.trim "{0,q}".toList) = .ok values :=
        (readValueSet_eq_ok_iff hasProperNames_default).2 hvalues
      cases hread
    | cons c gap =>
      obtain rfl := (List.cons.inj hrest).1
      exact absurd (hgap '=' List.mem_cons_self) (by decide)
  exact ⟨hbroken, by decide +kernel,
    (broken_declaration_is_reported_iff (k := 1) rfl rfl (by decide) hbroken).1.2 (by decide)⟩

/-- Without its equals sign a declaration is not recognized. -/
theorem missingEquals_is_unrecognized :
    (Line.rawLines "@TABLE\nvar a {0,1}\n".toList)[1]? = some "var a {0,1}".toList ∧
    readLines 1 ((Line.rawLines "@TABLE\nvar a {0,1}\n".toList).take 1) .table {} = .ok {} ∧
    Line.InTable ((Line.rawLines "@TABLE\nvar a {0,1}\n".toList).take 1) ∧
    IsBrokenDeclaration [] (Line.said "var a {0,1}".toList) ∧
    ((Line.said "var a {0,1}".toList).splitOn ',').length ≠ Clause.fieldCount ∧
    read "@TABLE\nvar a {0,1}\n" = .error ⟨2, .unrecognized "var a {0,1}"⟩ ∧
    ¬ ∃ fault, read "@TABLE\nvar a {0,1}\n" = .error ⟨2, fault⟩ ∧ fault.IsOfDeclaration := by
  have hread : read "@TABLE\nvar a {0,1}\n" = .error ⟨2, .unrecognized "var a {0,1}"⟩ := by
    decide +kernel
  have hbroken : IsBrokenDeclaration [] (Line.said "var a {0,1}".toList) := by
    refine ⟨[' '], ['a'], " {0,1}".toList, by decide, by decide, by decide, by decide,
      by decide, ?_⟩
    rintro ⟨gap, valueSet, values, -, hrest, -⟩
    have hmem : '=' ∈ " {0,1}".toList := by simp [hrest]
    exact absurd hmem (by decide)
  refine ⟨rfl, rfl, by decide, hbroken, by decide, hread, ?_⟩
  rintro ⟨fault, hfault, hkind⟩
  rw [hread] at hfault
  cases hfault
  exact hkind

example : ∃ rule, read "@TABLE\nvar a: 1\n" = .ok rule := ⟨_, rfl⟩

end Rule

end Cellular
