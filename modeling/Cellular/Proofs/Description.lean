import Cellular.Proofs.Key
import Cellular.Proofs.Token

/-!
# What the lines of a rule table say

Which lines of a text belong to its table, and what they say, can be told line by
line without reading: a line belongs to the table if the last header above it opens
the table, and it sees the variables whose declarations stand above it.  One more
line at the end changes nothing of what the lines above it say.
-/

namespace Cellular

/-- A line that says something, with its number. -/
structure NumberedLine where
  number : ℕ
  text : List Char

namespace Line

/-- The name of the section that a line opens, if it is a header. -/
def sectionName? (raw : List Char) : Option (List Char) :=
  match Text.trim raw with
  | '@' :: rest => some (headerName rest)
  | _ => none

/-- What a line says: all that comes before its first comment sign, without the
blanks around it. -/
def said (raw : List Char) : List Char :=
  Text.trim (uncommented (Text.trim raw))

/-- The line is no blank line, no comment and no header, and says something. -/
def IsPlain (raw : List Char) : Prop :=
  Text.trim raw ≠ [] ∧ (Text.trim raw).head? ≠ some '#' ∧
    (Text.trim raw).head? ≠ some '@' ∧ said raw ≠ []

/-- The last of the given lines that is a header opens the table, or none of them is
a header. -/
def InTable (above : List (List Char)) : Prop :=
  ∀ name ∈ (above.filterMap sectionName?).getLast?, name = "TABLE".toList

instance (raw : List Char) : Decidable (IsPlain raw) :=
  inferInstanceAs (Decidable (_ ∧ _))

instance (above : List (List Char)) : Decidable (InTable above) :=
  inferInstanceAs (Decidable (∀ name ∈ _, _))

/-- The line with an index, if it belongs to the table. -/
def tableLine? (raws : List (List Char)) (i : ℕ) : Option NumberedLine :=
  raws[i]?.bind fun raw =>
    if IsPlain raw ∧ InTable (raws.take i) then some ⟨i + 1, said raw⟩ else none

/-- The lines of the table, with their numbers. -/
def tableLines (raws : List (List Char)) : List NumberedLine :=
  (List.range raws.length).filterMap (tableLine? raws)

variable {raw text : List Char} {raws : List (List Char)}

theorem tableLines_append_singleton (raws : List (List Char)) (raw : List Char) :
    tableLines (raws ++ [raw]) =
      tableLines raws ++
        if IsPlain raw ∧ InTable raws then [⟨raws.length + 1, said raw⟩] else [] := by
  have hearlier : ∀ i ∈ List.range raws.length,
      tableLine? (raws ++ [raw]) i = tableLine? raws i := by
    intro i hi
    have hlt := List.mem_range.1 hi
    rw [tableLine?, tableLine?, List.getElem?_append_left hlt,
      List.take_append_of_le_length (Nat.le_of_lt hlt)]
  have hlast : tableLine? (raws ++ [raw]) raws.length =
      if IsPlain raw ∧ InTable raws then some ⟨raws.length + 1, said raw⟩ else none := by
    rw [tableLine?, List.getElem?_concat_length, List.take_left]
    rfl
  rw [tableLines, List.length_append, List.length_singleton, List.range_succ,
    List.filterMap_append, List.filterMap_congr hearlier, ← tableLines]
  by_cases hline : IsPlain raw ∧ InTable raws
  · simp [hlast, hline]
  · simp [hlast, hline]

theorem tableLines_append_of_not (h : ¬ (IsPlain raw ∧ InTable raws)) :
    tableLines (raws ++ [raw]) = tableLines raws := by
  rw [tableLines_append_singleton, if_neg h, List.append_nil]

theorem tableLine?_eq_some_iff {i : ℕ} {line : NumberedLine} :
    tableLine? raws i = some line ↔
      ∃ raw, raws[i]? = some raw ∧ (IsPlain raw ∧ InTable (raws.take i)) ∧
        line = ⟨i + 1, said raw⟩ := by
  rw [tableLine?, Option.bind_eq_some_iff]
  simp only [Option.ite_none_right_eq_some, Option.some.injEq, @eq_comm _ line]

/-- A line of the table has the number of a line of the text that is not blank. -/
theorem exists_raw_of_mem_tableLines {line : NumberedLine} (h : line ∈ tableLines raws) :
    1 ≤ line.number ∧ line.number ≤ raws.length ∧
      ∃ raw, raws[line.number - 1]? = some raw ∧ IsPlain raw := by
  obtain ⟨i, hi, hline⟩ := List.mem_filterMap.1 h
  obtain ⟨raw, hraw, ⟨hplain, -⟩, rfl⟩ := tableLine?_eq_some_iff.1 hline
  exact ⟨Nat.le_add_left 1 i, List.mem_range.1 hi, raw, hraw, hplain⟩

theorem number_le_of_mem_tableLines {line : NumberedLine} (h : line ∈ tableLines raws) :
    line.number ≤ raws.length :=
  (exists_raw_of_mem_tableLines h).2.1

/-- The lines of the table have ascending numbers. -/
theorem pairwise_tableLines (raws : List (List Char)) :
    (tableLines raws).Pairwise fun line other => line.number < other.number := by
  rw [tableLines, List.pairwise_filterMap]
  refine List.pairwise_lt_range.imp fun {i j} hij line hline other hother => ?_
  obtain ⟨_, -, -, rfl⟩ := tableLine?_eq_some_iff.1 hline
  obtain ⟨_, -, -, rfl⟩ := tableLine?_eq_some_iff.1 hother
  exact Nat.succ_lt_succ hij

theorem inTable_append_singleton (raws : List (List Char)) (raw : List Char) :
    InTable (raws ++ [raw]) ↔
      match sectionName? raw with
      | some name => name = "TABLE".toList
      | none => InTable raws := by
  rw [InTable, List.filterMap_append]
  cases hname : sectionName? raw with
  | none => simp [InTable, hname]
  | some name => simp [hname]

/-! ## The kinds of line -/

theorem plain_of_classify_content (h : classify raw = .content text) :
    IsPlain raw ∧ said raw = Text.trimEnd (uncommented text) ∧ sectionName? raw = none := by
  obtain ⟨c, rest, rfl, hblank, hcomment, hheader⟩ := exists_of_classify_content h
  have htrim : Text.trim raw = c :: rest := by
    rw [classify] at h
    split at h
    · cases h
    · cases h
    · cases h
    · exact content.inj h
  have huncommented : uncommented (c :: rest) = c :: uncommented rest := by
    rw [uncommented, List.takeWhile_cons_of_pos]
    · rfl
    · simpa using hcomment
  have hsaid : said raw = Text.trimEnd (uncommented (c :: rest)) := by
    rw [said, htrim, huncommented, Text.trim_cons_of_not_isBlank hblank,
      Text.trimEnd_cons_of_not_isBlank hblank]
  refine ⟨⟨?_, ?_, ?_, ?_⟩, hsaid, ?_⟩
  · simp [htrim]
  · simpa [htrim] using hcomment
  · simpa [htrim] using hheader
  · simp [hsaid, huncommented, Text.trimEnd_cons_of_not_isBlank hblank]
  · rw [sectionName?, htrim]
    split
    · rename_i heq
      cases heq
      exact absurd rfl hheader
    · rfl

theorem not_plain_of_classify_skipped (h : classify raw = .skipped) :
    ¬ IsPlain raw ∧ sectionName? raw = none := by
  rw [classify] at h
  split at h
  · rename_i htrim
    have hname : sectionName? raw = none := by rw [sectionName?, htrim]
    exact ⟨fun hplain => hplain.1 htrim, hname⟩
  · rename_i htrim
    have hname : sectionName? raw = none := by
      rw [sectionName?, htrim]
      rfl
    exact ⟨fun hplain => hplain.2.1 (by rw [htrim]; rfl), hname⟩
  · cases h
  · cases h

theorem not_plain_of_classify_header (h : classify raw = .header text) :
    ¬ IsPlain raw ∧ sectionName? raw = some (headerName text) := by
  rw [classify] at h
  split at h
  · cases h
  · cases h
  · rename_i htrim
    cases h
    have hname : sectionName? raw = some (headerName text) := by
      rw [sectionName?, htrim]
      rfl
    exact ⟨fun hplain => hplain.2.2.1 (by rw [htrim]; rfl), hname⟩
  · cases h

end Line

namespace TableLine

variable {text : List Char}

/-- The line starts with the keyword and a blank, and has an equals sign. -/
def IsDeclaration (text : List Char) : Prop :=
  "var".toList <+: text ∧ text[3]?.any Text.isBlank = true ∧ '=' ∈ text

/-- The line is no declaration and has exactly one colon. -/
def IsParameter (text : List Char) : Prop :=
  ¬ IsDeclaration text ∧ text.count ':' = 1

/-- The line is neither a declaration nor a parameter, has a comma and is made of
letters, digits, underscores, commas and blanks. -/
def IsTransition (text : List Char) : Prop :=
  ¬ IsDeclaration text ∧ ¬ IsParameter text ∧ ',' ∈ text ∧
    ∀ c ∈ text, Text.isNameChar c = true ∨ c = ',' ∨ Text.isBlank c = true

instance (text : List Char) : Decidable (IsDeclaration text) :=
  inferInstanceAs (Decidable (_ ∧ _))

instance (text : List Char) : Decidable (IsParameter text) :=
  inferInstanceAs (Decidable (_ ∧ _))

instance (text : List Char) : Decidable (IsTransition text) :=
  have : Decidable
      (∀ c ∈ text, Text.isNameChar c = true ∨ c = ',' ∨ Text.isBlank c = true) :=
    List.decidableBAll _ text
  inferInstanceAs (Decidable (_ ∧ _ ∧ _ ∧ ∀ c ∈ text, _))

theorem declarationBody?_eq_some_iff_isDeclaration {body : List Char} :
    declarationBody? text = some body ↔ IsDeclaration text ∧ body = text.drop 4 := by
  rw [declarationBody?_eq_some_iff]
  constructor
  · rintro ⟨c, rfl, hc, hmem⟩
    exact ⟨⟨List.prefix_append _ _, hc, by simp [hmem]⟩, rfl⟩
  · rintro ⟨⟨⟨rest, rfl⟩, hblank, hmem⟩, rfl⟩
    cases rest with
    | nil => cases hblank
    | cons c body =>
      have hc : Text.isBlank c = true := hblank
      refine ⟨c, rfl, hc, ?_⟩
      have hne : '=' ≠ c := by
        rintro rfl
        cases hc
      simpa [hne] using hmem

theorem declarationBody?_eq_none_iff :
    declarationBody? text = none ↔ ¬ IsDeclaration text := by
  constructor
  · intro hnone hdeclaration
    have hbody := declarationBody?_eq_some_iff_isDeclaration.2 ⟨hdeclaration, rfl⟩
    rw [hnone] at hbody
    cases hbody
  · intro hdeclaration
    cases hbody : declarationBody? text with
    | none => rfl
    | some body =>
      exact absurd (declarationBody?_eq_some_iff_isDeclaration.1 hbody).1 hdeclaration

theorem isDeclaration_of_ofContent {name valueSet : List Char}
    (h : ofContent text = .declaration name valueSet) :
    IsDeclaration text ∧ name = Text.trim (cutAt '=' (text.drop 4)).1 ∧
      valueSet = Text.trim (cutAt '=' (text.drop 4)).2 := by
  obtain ⟨body, hbody, hname, hvalueSet⟩ := ofContent_eq_declaration_iff.1 h
  obtain ⟨hdeclaration, rfl⟩ := declarationBody?_eq_some_iff_isDeclaration.1 hbody
  exact ⟨hdeclaration, hname, hvalueSet⟩

theorem isParameter_of_ofContent {key value : List Char}
    (h : ofContent text = .parameter key value) :
    IsParameter text ∧ key = Text.trim (cutAt ':' text).1 ∧
      value = Text.trim (cutAt ':' text).2 := by
  obtain ⟨hbody, hcount, hkey, hvalue⟩ := ofContent_eq_parameter_iff.1 h
  exact ⟨⟨declarationBody?_eq_none_iff.1 hbody, hcount⟩, hkey, hvalue⟩

theorem isTransition_of_ofContent {tokens : List (List Char)}
    (h : ofContent text = .transition tokens) :
    IsTransition text ∧ tokens = (text.splitOn ',').map Text.squash := by
  obtain ⟨hbody, hcount, hshaped, htokens⟩ := ofContent_eq_transition_iff.1 h
  simp only [isTransitionShaped, isTransitionChar, Bool.and_eq_true, List.contains_iff_mem,
    List.all_eq_true, Bool.or_eq_true, beq_iff_eq, or_assoc] at hshaped
  exact ⟨⟨declarationBody?_eq_none_iff.1 hbody, fun hparameter => hcount hparameter.2,
    hshaped⟩, htokens⟩

end TableLine

/-! ## What the lines of a table say -/

namespace NumberedLine

open TableLine

/-- The name that a declaration gives its variable. -/
def declaredName (line : NumberedLine) : String :=
  String.ofList (Text.trim (cutAt '=' (line.text.drop 4)).1)

/-- What a declaration says about the values of its variable. -/
def valueSet (line : NumberedLine) : List Char :=
  Text.trim (cutAt '=' (line.text.drop 4)).2

/-- The name of the parameter that a line sets. -/
def key (line : NumberedLine) : String :=
  String.ofList (Text.trim (cutAt ':' line.text).1)

/-- What a line sets its parameter to. -/
def value (line : NumberedLine) : List Char :=
  Text.trim (cutAt ':' line.text).2

/-- The texts between the commas of a transition, without blanks. -/
def tokens (line : NumberedLine) : List (List Char) :=
  (line.text.splitOn ',').map Text.squash

/-- The declarations among the lines. -/
def declarationLines (lines : List NumberedLine) : List NumberedLine :=
  lines.filter fun line => IsDeclaration line.text

/-- The transitions among the lines. -/
def transitionLines (lines : List NumberedLine) : List NumberedLine :=
  lines.filter fun line => IsTransition line.text

/-- The names of the variables that are declared above a line. -/
def namesAbove (lines : List NumberedLine) (number : ℕ) : List String :=
  ((declarationLines lines).filter fun line => line.number < number).map declaredName

/-- What the last line that sets one of some parameters sets it to. -/
def lastSetting? (lines : List NumberedLine) (keys : List String) : Option (List Char) :=
  ((lines.filter fun line => IsParameter line.text ∧ line.key ∈ keys).getLast?).map value

/-- A clause stands for a transition: it has the number of the line and ten fields,
and each field is what its token stands for, given the variables declared above. -/
structure IsClauseOf (lines : List NumberedLine) (line : NumberedLine) (clause : Clause) :
    Prop where
  number : clause.line = line.number
  length : line.tokens.length = Clause.fieldCount
  fields : List.Forall₂ (Field.StandsFor (namesAbove lines line.number)) line.tokens
    clause.fields

/-- The clauses stand for the transitions, one by one and in their order. -/
def AreClausesOf (lines : List NumberedLine) (clauses : List Clause) : Prop :=
  List.Forall₂ (IsClauseOf lines) (transitionLines lines) clauses

/-- The variables are those of the declarations, in their order, and the values of
each are those that its declaration lists, given the variables declared above. -/
structure AreVariablesOf (lines : List NumberedLine)
    (declared : InsertionMap String (List State)) : Prop where
  names : declared.keys = (declarationLines lines).map declaredName
  values : ∀ (i : ℕ) (line : NumberedLine) (entry : String × List State),
    (declarationLines lines)[i]? = some line → declared.entries[i]? = some entry →
      IsValueSet (declared.entries.take i) line.valueSet entry.2

/-- The parameters that mean something by themselves. -/
def knownKeys : List String :=
  ["n_states", "neighborhood", "symmetries", "symmetry"]

/-- Each parameter is what the last line that sets it says, or its default. -/
structure SetParameters (lines : List NumberedLine) (rule : Rule) : Prop where
  stateCount : (lastSetting? lines ["n_states"]).elim (some 2) Text.readSignedNumeral =
    some rule.stateCount
  neighborhood : (lastSetting? lines ["neighborhood"]).elim (some .moore)
    Neighborhood.ofName? = some rule.neighborhood
  symmetry : (lastSetting? lines ["symmetries", "symmetry"]).elim (some .permute)
    Symmetry.ofName? = some rule.symmetry
  others : ∀ key, rule.parameters.get? key =
    if key ∈ knownKeys then none else (lastSetting? lines [key]).map String.ofList

/-! ## One more line -/

section Append

variable {lines : List NumberedLine} {line : NumberedLine}

theorem declarationLines_append_singleton (lines : List NumberedLine)
    (line : NumberedLine) :
    declarationLines (lines ++ [line]) =
      declarationLines lines ++ if IsDeclaration line.text then [line] else [] := by
  rw [declarationLines, List.filter_append, ← declarationLines]
  by_cases hform : IsDeclaration line.text <;> simp [hform]

theorem transitionLines_append_singleton (lines : List NumberedLine)
    (line : NumberedLine) :
    transitionLines (lines ++ [line]) =
      transitionLines lines ++ if IsTransition line.text then [line] else [] := by
  rw [transitionLines, List.filter_append, ← transitionLines]
  by_cases hform : IsTransition line.text <;> simp [hform]

theorem lastSetting?_append_singleton (lines : List NumberedLine) (line : NumberedLine)
    (keys : List String) :
    lastSetting? (lines ++ [line]) keys =
      if IsParameter line.text ∧ line.key ∈ keys then some line.value
      else lastSetting? lines keys := by
  rw [lastSetting?, List.filter_append]
  by_cases hsets : IsParameter line.text ∧ line.key ∈ keys
  · simp [hsets]
  · rw [List.filter_singleton, if_neg hsets]
    simp [lastSetting?, hsets]

theorem namesAbove_append_singleton {number : ℕ} (h : number ≤ line.number) :
    namesAbove (lines ++ [line]) number = namesAbove lines number := by
  rw [namesAbove, declarationLines_append_singleton]
  split
  · simp [namesAbove, h]
  · rw [List.append_nil, ← namesAbove]

theorem namesAbove_eq {number : ℕ} (h : ∀ other ∈ lines, other.number < number) :
    namesAbove lines number = (declarationLines lines).map declaredName := by
  rw [namesAbove, List.filter_eq_self.2]
  intro other hother
  simpa using h other (List.mem_of_mem_filter hother)

section Below

variable (habove : ∀ other ∈ lines, other.number < line.number)
include habove

/-- A line below does not change what the transitions stand for. -/
theorem areClauses_of_below {clauses : List Clause} (h : AreClausesOf lines clauses) :
    List.Forall₂ (IsClauseOf (lines ++ [line])) (transitionLines lines) clauses := by
  have hearlier : ∀ other ∈ transitionLines lines, other.number ≤ line.number :=
    fun other hother => Nat.le_of_lt (habove other (List.mem_of_mem_filter hother))
  refine ((List.forall₂_and_left _ _).2 ⟨hearlier, h⟩).imp ?_
  rintro other clause ⟨hle, hclause⟩
  refine ⟨hclause.number, hclause.length, ?_⟩
  rw [namesAbove_append_singleton hle]
  exact hclause.fields

theorem AreClausesOf.append_of_not {clauses : List Clause} (h : AreClausesOf lines clauses)
    (hform : ¬ IsTransition line.text) : AreClausesOf (lines ++ [line]) clauses := by
  rw [AreClausesOf, transitionLines_append_singleton, if_neg hform, List.append_nil]
  exact areClauses_of_below habove h

theorem AreClausesOf.append {clauses : List Clause} (h : AreClausesOf lines clauses)
    (hform : IsTransition line.text) {clause : Clause} (hnumber : clause.line = line.number)
    (hlength : line.tokens.length = Clause.fieldCount)
    (hfields : List.Forall₂ (Field.StandsFor ((declarationLines lines).map declaredName))
      line.tokens clause.fields) :
    AreClausesOf (lines ++ [line]) (clauses ++ [clause]) := by
  have hlast : IsClauseOf (lines ++ [line]) line clause := by
    refine ⟨hnumber, hlength, ?_⟩
    rw [namesAbove_append_singleton (Nat.le_refl _), namesAbove_eq habove]
    exact hfields
  rw [AreClausesOf, transitionLines_append_singleton, if_pos hform]
  exact List.rel_append (areClauses_of_below habove h) (.cons hlast .nil)

end Below

theorem AreVariablesOf.append_of_not {declared : InsertionMap String (List State)}
    (h : AreVariablesOf lines declared) (hform : ¬ IsDeclaration line.text) :
    AreVariablesOf (lines ++ [line]) declared := by
  have hsame : declarationLines (lines ++ [line]) = declarationLines lines := by
    rw [declarationLines_append_singleton, if_neg hform, List.append_nil]
  constructor
  · rw [hsame]
    exact h.names
  · rw [hsame]
    exact h.values

theorem AreVariablesOf.append {declared : InsertionMap String (List State)}
    (h : AreVariablesOf lines declared) (hform : IsDeclaration line.text)
    (hnew : line.declaredName ∉ declared.keys) {values : List State}
    (hvalues : IsValueSet declared.entries line.valueSet values) :
    AreVariablesOf (lines ++ [line]) (declared.insert line.declaredName values) := by
  have hentries : (declared.insert line.declaredName values).entries =
      declared.entries ++ [(line.declaredName, values)] :=
    InsertionMap.entries_insert_of_not_mem hnew
  have hlines : declarationLines (lines ++ [line]) = declarationLines lines ++ [line] := by
    rw [declarationLines_append_singleton, if_pos hform]
  have hlength : (declarationLines lines).length = declared.entries.length := by
    have hkeys := congrArg List.length h.names
    rw [List.length_map, InsertionMap.keys, List.length_map] at hkeys
    exact hkeys.symm
  constructor
  · rw [hlines, InsertionMap.keys, hentries, List.map_append, List.map_append, ← h.names]
    rfl
  · intro i other entry hother hentry
    rw [hlines] at hother
    rw [hentries] at hentry ⊢
    by_cases hi : i < declared.entries.length
    · rw [List.getElem?_append_left (by omega)] at hother hentry
      rw [List.take_append_of_le_length (by omega)]
      exact h.values i other entry hother hentry
    · have hlast : i = declared.entries.length := by
        have hbound := (List.getElem?_eq_some_iff.1 hentry).1
        rw [List.length_append, List.length_singleton] at hbound
        omega
      subst hlast
      rw [List.getElem?_concat_length] at hentry
      rw [← hlength, List.getElem?_concat_length] at hother
      cases hentry
      cases hother
      rw [List.take_left]
      exact hvalues

theorem SetParameters.append_of_not {rule : Rule} (h : SetParameters lines rule)
    (hform : ¬ IsParameter line.text) : SetParameters (lines ++ [line]) rule := by
  have hsame : ∀ keys, lastSetting? (lines ++ [line]) keys = lastSetting? lines keys := by
    intro keys
    rw [lastSetting?_append_singleton, if_neg fun hsets => hform hsets.1]
  constructor
  · rw [hsame, h.stateCount]
  · rw [hsame, h.neighborhood]
  · rw [hsame, h.symmetry]
  · intro key
    rw [hsame, h.others]

theorem SetParameters.append {rule next : Rule} (h : SetParameters lines rule)
    (hform : IsParameter line.text) (hset : rule.SetsParameter line.key line.value next) :
    SetParameters (lines ++ [line]) next := by
  have hlast : ∀ keys, lastSetting? (lines ++ [line]) keys =
      if line.key ∈ keys then some line.value else lastSetting? lines keys := by
    intro keys
    simp only [lastSetting?_append_singleton, hform, true_and]
  have hothers : line.key ∈ knownKeys → ∀ key, rule.parameters.get? key =
      if key ∈ knownKeys then none
      else (lastSetting? (lines ++ [line]) [key]).map String.ofList := by
    intro hknown key
    rw [h.others]
    split
    · rfl
    · rename_i hunknown
      have hne : line.key ∉ [key] := by
        rw [List.mem_singleton]
        exact fun heq => hunknown (heq ▸ hknown)
      rw [hlast, if_neg hne]
  cases hset with
  | stateCount hkey hread =>
    refine ⟨?_, ?_, ?_, hothers (by simp [knownKeys, hkey])⟩
    · simpa [hlast, hkey] using (Rule.readStateCount_eq_ok_iff.1 hread).1
    · simpa [hlast, hkey] using h.neighborhood
    · simpa [hlast, hkey] using h.symmetry
  | neighborhood hkey hread =>
    refine ⟨?_, ?_, ?_, hothers (by simp [knownKeys, hkey])⟩
    · simpa [hlast, hkey] using h.stateCount
    · simpa [hlast, hkey] using hread
    · simpa [hlast, hkey] using h.symmetry
  | symmetry hkey hread =>
    have hknown : line.key ∈ knownKeys := by
      cases hkey with
      | inl hkey | inr hkey => simp [knownKeys, hkey]
    refine ⟨?_, ?_, ?_, hothers hknown⟩
    · cases hkey with
      | inl hkey | inr hkey => simpa [hlast, hkey] using h.stateCount
    · cases hkey with
      | inl hkey | inr hkey => simpa [hlast, hkey] using h.neighborhood
    · cases hkey with
      | inl hkey | inr hkey => simpa [hlast, hkey] using hread
  | other hstates hneighborhood hsymmetries hsymmetry =>
    have hunknown : line.key ∉ knownKeys := by
      simp [knownKeys, hstates, hneighborhood, hsymmetries, hsymmetry]
    refine ⟨?_, ?_, ?_, fun key => ?_⟩
    · simpa [hlast, hstates] using h.stateCount
    · simpa [hlast, hneighborhood] using h.neighborhood
    · simpa [hlast, hsymmetries, hsymmetry] using h.symmetry
    · rw [InsertionMap.get?_insert, hlast, h.others]
      by_cases hkey : key = line.key
      · subst hkey
        simp [hunknown]
      · simp [hkey, Ne.symm hkey]

end Append

end NumberedLine

end Cellular
