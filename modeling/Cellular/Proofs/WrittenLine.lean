import Cellular.Proofs.Description
import Cellular.Rule.Writer

/-!
# The lines of a written rule

Each line of a written rule is recognized for what it is, whatever its names look
like: an equals sign stands in declarations only and a colon in parameters only.
Names and numerals have no blanks and no marks in them, so the parts of a line are
told apart again.
-/

namespace Cellular

namespace Text

/-- The text is nonempty and made of the characters of names, as identifiers and
numerals are. -/
def IsWord (text : List Char) : Prop :=
  text ≠ [] ∧ text.all isNameChar = true

instance (text : List Char) : Decidable (IsWord text) :=
  inferInstanceAs (Decidable (_ ∧ _))

variable {text word : List Char}

theorem IsWord.isNameChar_eq_true (h : IsWord word) : ∀ c ∈ word, isNameChar c = true :=
  List.all_eq_true.1 h.2

theorem isWord_of_isIdentifier (h : isIdentifier text = true) : IsWord text := by
  refine ⟨ne_nil_of_isIdentifier h, ?_⟩
  simp only [isIdentifier, Bool.and_eq_true] at h
  exact h.1.2

theorem isDigit_of_mem_numeral {c : Char} {n : ℕ} (h : c ∈ numeral n) :
    c.isDigit = true :=
  Nat.isDigit_of_mem_toDigits (by decide) (by decide) h

theorem isWord_numeral (n : ℕ) : IsWord (numeral n) := by
  refine ⟨Nat.toDigits_ne_nil, List.all_eq_true.2 fun c hc => ?_⟩
  rw [isNameChar, Char.isAlphanum, isDigit_of_mem_numeral hc, Bool.or_true, Bool.true_or]

theorem isNumeral_numeral (n : ℕ) : isNumeral (numeral n) = true := by
  rw [isNumeral, Bool.and_eq_true, List.all_eq_true]
  refine ⟨?_, fun c hc => isDigit_of_mem_numeral hc⟩
  rw [Bool.not_eq_true', List.isEmpty_eq_false_iff]
  exact Nat.toDigits_ne_nil

theorem readNumeral_numeral {n : ℕ} (h : n < numeralBound) :
    readNumeral (numeral n) = some n := by
  rw [readNumeral_eq_some_iff, numeralValue_numeral]
  exact ⟨isNumeral_numeral n, h, rfl⟩

theorem readSignedNumeral_numeral {n : ℕ} (h : n < numeralBound) :
    readSignedNumeral (numeral n) = some n := by
  rw [readSignedNumeral.eq_def]
  split
  · rename_i digits hdigits
    have hsign : '+' ∈ numeral n := hdigits ▸ List.mem_cons_self
    exact absurd (isDigit_of_mem_numeral hsign) (by decide)
  · exact readNumeral_numeral h

theorem IsWord.isBlank_eq_false (h : IsWord word) : ∀ c ∈ word, isBlank c = false :=
  fun c hc => (plain_of_isNameChar (h.isNameChar_eq_true c hc)).1

theorem IsWord.not_mem (h : IsWord word) {c : Char} (hc : isNameChar c = false) :
    c ∉ word := by
  intro hmem
  rw [h.isNameChar_eq_true c hmem] at hc
  cases hc

theorem trimEnd_of_trim (h : trim text = text) : trimEnd text = text := by
  calc
    trimEnd text = trimEnd (trim text) := by rw [h]
    _ = trim text := trimEnd_trimEnd _
    _ = text := h

theorem trimEnd_append (left : List Char) {right : List Char} (h : trimEnd right ≠ []) :
    trimEnd (left ++ right) = left ++ trimEnd right := by
  induction left with
  | nil => rfl
  | cons c left ih =>
    rw [List.cons_append, trimEnd_cons, ih, if_neg]
    · rfl
    · intro hblank
      exact h (List.append_eq_nil_iff.1 hblank.2).2

theorem trim_eq_self (h : ∀ c ∈ text, isBlank c = false) : trim text = text := by
  have hend : ∀ text : List Char, (∀ c ∈ text, isBlank c = false) →
      trimEnd text = text := by
    intro text h
    induction text with
    | nil => rfl
    | cons c rest ih =>
      rw [trimEnd_cons_of_not_isBlank (h c List.mem_cons_self),
        ih fun d hd => h d (List.mem_cons_of_mem c hd)]
  cases text with
  | nil => rfl
  | cons c rest =>
    rw [trim_cons_of_not_isBlank (h c List.mem_cons_self),
      hend rest fun d hd => h d (List.mem_cons_of_mem c hd)]

theorem squash_eq_self (h : ∀ c ∈ text, isBlank c = false) : squash text = text := by
  rw [squash, List.filter_eq_self]
  intro c hc
  rw [h c hc]
  rfl

end Text

/-! ## Lines that are recognized -/

namespace Line

variable {raw : List Char}

/-- The line is trimmed, has no comment sign and is no header. -/
structure IsClean (raw : List Char) : Prop where
  trim_eq : Text.trim raw = raw
  ne_nil : raw ≠ []
  comment : '#' ∉ raw
  header : raw.head? ≠ some '@'
  newline : '\n' ∉ raw

theorem isClean_of_marks (hne : raw ≠ [])
    (h : ∀ c ∈ raw, Text.isNameChar c = true ∨ c = ',' ∨ c = ':') : IsClean raw := by
  have hblank : ∀ c ∈ raw, Text.isBlank c = false := by
    intro c hc
    rcases h c hc with hname | rfl | rfl
    · exact (Text.plain_of_isNameChar hname).1
    · rfl
    · rfl
  have hother : ∀ c, Text.isNameChar c = false → c ≠ ',' → c ≠ ':' → c ∉ raw := by
    intro c hname hcomma hcolon hc
    rcases h c hc with hmem | rfl | rfl
    · rw [hname] at hmem
      cases hmem
    · exact hcomma rfl
    · exact hcolon rfl
  refine ⟨Text.trim_eq_self hblank, hne, ?_, ?_, ?_⟩
  · exact hother '#' (by decide) (by decide) (by decide)
  · intro hhead
    exact hother '@' (by decide) (by decide) (by decide) (List.mem_of_mem_head? hhead)
  · exact hother '\n' (by decide) (by decide) (by decide)

namespace IsClean

theorem classify_eq (h : IsClean raw) : classify raw = .content raw := by
  cases raw with
  | nil => exact absurd rfl h.ne_nil
  | cons c rest =>
    apply classify_of_trim h.trim_eq
    · rintro rfl
      exact h.comment List.mem_cons_self
    · rintro rfl
      exact h.header rfl

theorem trimEnd_uncommented (h : IsClean raw) : Text.trimEnd (uncommented raw) = raw := by
  have huncommented : uncommented raw = raw := by
    rw [uncommented, List.takeWhile_eq_self_iff]
    intro c hc
    rw [decide_eq_true_iff]
    rintro rfl
    exact h.comment hc
  rw [huncommented, Text.trimEnd_of_trim h.trim_eq]

end IsClean

end Line

namespace Rule

variable {r next rule : Rule} {line : ℕ}

theorem readLines_cons_of_isClean {raw : List Char} (hclean : Line.IsClean raw)
    (hread : r.readTableLine line raw = .ok next) (rest : List (List Char)) :
    readLines line (raw :: rest) .table r = readLines (line + 1) rest .table next := by
  rw [readLines, readLine, hclean.classify_eq]
  simp only [hread]

/-! ## Parameters -/

section Parameters

variable {key value : List Char} (hkey : Text.IsWord key) (hvalue : Text.IsWord value)
include hkey hvalue

theorem isClean_parameter : Line.IsClean (key ++ ':' :: value) := by
  apply Line.isClean_of_marks (by simp)
  intro c hc
  rcases List.mem_append.1 hc with hc | hc
  · exact .inl (hkey.isNameChar_eq_true c hc)
  · rcases List.mem_cons.1 hc with rfl | hc
    · exact .inr (.inr rfl)
    · exact .inl (hvalue.isNameChar_eq_true c hc)

theorem readTableLine_parameter (hset : r.SetsParameter (String.ofList key) value next) :
    r.readTableLine line (key ++ ':' :: value) = .ok next := by
  have hequals : '=' ∉ key ++ ':' :: value := by
    have hmark : Text.isNameChar '=' = false := by decide
    simp [hkey.not_mem hmark, hvalue.not_mem hmark]
  have hcount : (key ++ ':' :: value).count ':' = 1 := by
    have hmark : Text.isNameChar ':' = false := by decide
    rw [List.count_append, List.count_cons_self, List.count_eq_zero.2 (hkey.not_mem hmark),
      List.count_eq_zero.2 (hvalue.not_mem hmark)]
  have hform : TableLine.ofContent (key ++ ':' :: value) = .parameter key value := by
    rw [TableLine.ofContent_eq_parameter_iff,
      TableLine.cutAt_append (hkey.not_mem (by decide)),
      Text.trim_eq_self hkey.isBlank_eq_false, Text.trim_eq_self hvalue.isBlank_eq_false]
    exact ⟨TableLine.declarationBody?_eq_none_iff.2 fun h => hequals h.2.2, hcount, rfl, rfl⟩
  rw [readTableLine, (isClean_parameter hkey hvalue).trimEnd_uncommented, hform]
  exact readParameter_of_setsParameter hset

end Parameters

/-! ## Lists with commas -/

section CommaSeparated

variable {items : List (List Char)}

theorem mem_commaSeparated {c : Char} (h : c ∈ commaSeparated items) :
    c = ',' ∨ ∃ item ∈ items, c ∈ item := by
  induction items with
  | nil => cases h
  | cons first others ih =>
    cases others with
    | nil =>
      rw [commaSeparated, List.intercalate_singleton] at h
      exact .inr ⟨first, List.mem_cons_self, h⟩
    | cons second others =>
      rw [commaSeparated, List.intercalate_cons_cons, List.append_assoc, List.mem_append] at h
      rcases h with hfirst | hlater
      · exact .inr ⟨first, List.mem_cons_self, hfirst⟩
      · rcases List.mem_cons.1 hlater with hcomma | hlater
        · exact .inl hcomma
        · refine (ih hlater).imp_right ?_
          rintro ⟨item, hitem, hc⟩
          exact ⟨item, List.mem_cons_of_mem first hitem, hc⟩

variable (hwords : ∀ item ∈ items, Text.IsWord item) (hne : items ≠ [])
include hwords

theorem mem_commaSeparated_of_isWord {c : Char} (h : c ∈ commaSeparated items) :
    c = ',' ∨ Text.isNameChar c = true := by
  refine (mem_commaSeparated h).imp_right ?_
  rintro ⟨item, hitem, hc⟩
  exact (hwords item hitem).isNameChar_eq_true c hc

include hne

theorem splitOn_commaSeparated : (commaSeparated items).splitOn ',' = items :=
  List.splitOn_intercalate ',' (fun item hitem => (hwords item hitem).not_mem (by decide)) hne

theorem itemsOf_commaSeparated : itemsOf (commaSeparated items) = items := by
  have htrim : items.map Text.trim = items := by
    refine (List.map_congr_left fun item hitem => ?_).trans (List.map_id items)
    exact Text.trim_eq_self (hwords item hitem).isBlank_eq_false
  rw [itemsOf, splitOn_commaSeparated hwords hne, htrim, List.filter_eq_self]
  intro item hitem
  rw [Bool.not_eq_true', List.isEmpty_eq_false_iff]
  exact (hwords item hitem).1

end CommaSeparated

/-! ## Declarations -/

section Declarations

variable {name : String} {values : List State}

theorem writeDeclaration_eq (name : String) (values : List State) :
    writeDeclaration name values =
      "var".toList ++ ' ' :: (name.toList ++ '=' ::
        ('\x7b' :: (commaSeparated (values.map Text.numeral) ++ ['\x7d']))) := by
  delta writeDeclaration
  rw [List.append_assoc, List.append_assoc, List.append_assoc]
  rfl

theorem isWord_of_mem_numerals : ∀ item ∈ values.map Text.numeral, Text.IsWord item := by
  intro item hitem
  obtain ⟨s, -, rfl⟩ := List.mem_map.1 hitem
  exact Text.isWord_numeral s

theorem isClean_writeDeclaration (hname : Text.IsWord name.toList) (values : List State) :
    Line.IsClean (writeDeclaration name values) := by
  have hchars : ∀ c ∈ writeDeclaration name values,
      Text.isNameChar c = true ∨ c ∈ [' ', '=', '\x7b', ',', '\x7d'] := by
    intro c hc
    rw [writeDeclaration_eq] at hc
    rcases List.mem_append.1 hc with hkeyword | hc
    · have hword := Text.isWord_of_isIdentifier TableLine.isIdentifier_keyword
      exact .inl (hword.isNameChar_eq_true c hkeyword)
    · simp only [List.mem_cons, List.mem_append, List.not_mem_nil, or_false] at hc ⊢
      rcases hc with hspace | hc | hequals | hopen | hc | hclose
      · exact .inr (.inl hspace)
      · exact .inl (hname.isNameChar_eq_true c hc)
      · exact .inr (.inr (.inl hequals))
      · exact .inr (.inr (.inr (.inl hopen)))
      · rcases mem_commaSeparated_of_isWord isWord_of_mem_numerals hc with hcomma | hc
        · exact .inr (.inr (.inr (.inr (.inl hcomma))))
        · exact .inl hc
      · exact .inr (.inr (.inr (.inr (.inr hclose))))
  have hne : writeDeclaration name values ≠ [] := by
    rw [writeDeclaration_eq]
    exact List.cons_ne_nil _ _
  refine ⟨?_, hne, ?_, ?_, ?_⟩
  · rw [Text.trim, Text.trimStart_eq_self rfl]
    delta writeDeclaration
    rw [Text.trimEnd_append _ (by decide)]
    rfl
  · exact fun hmem => absurd (hchars _ hmem) (by decide)
  · exact fun hhead => absurd (hchars _ (List.mem_of_mem_head? hhead)) (by decide)
  · exact fun hmem => absurd (hchars _ hmem) (by decide)

theorem ofContent_writeDeclaration (hname : Text.IsWord name.toList) :
    TableLine.ofContent (writeDeclaration name values) =
      .declaration name.toList
        ('\x7b' :: (commaSeparated (values.map Text.numeral) ++ ['\x7d'])) := by
  rw [TableLine.ofContent_of_declarationBody
    (TableLine.declarationBody?_eq_some_iff.2 ⟨' ', writeDeclaration_eq name values, rfl,
      by simp⟩),
    TableLine.cutAt_append (hname.not_mem (by decide)),
    Text.trim_eq_self hname.isBlank_eq_false, Text.trim_cons_of_not_isBlank rfl,
    Text.trimEnd_append _ (by decide)]
  rfl

theorem isValueSet_numerals {declared : List (String × List State)} (hne : values ≠ [])
    (hbound : ∀ s ∈ values, s < Text.numeralBound) :
    IsValueSet declared
      ('\x7b' :: (commaSeparated (values.map Text.numeral) ++ ['\x7d'])) values := by
  have hitems : ∀ s ∈ values, ItemStandsFor declared (Text.numeral s) [s] := by
    intro s hs
    have hstate : ItemStandsFor declared (Text.numeral s) [Text.numeralValue (Text.numeral s)] :=
      .state (Text.isNumeral_numeral s) (by rw [Text.numeralValue_numeral]; exact hbound s hs)
    rwa [Text.numeralValue_numeral] at hstate
  refine ⟨_, values.map fun s => [s], rfl, ?_, by simp [← List.flatMap_def], hne⟩
  rw [itemsOf_commaSeparated isWord_of_mem_numerals (by simpa using hne),
    List.forall₂_map_left_iff, List.forall₂_map_right_iff, List.forall₂_same]
  exact hitems

theorem readTableLine_writeDeclaration (hnames : r.HasProperNames)
    (hname : Text.isIdentifier name.toList = true) (hnew : name ∉ r.declarations.keys)
    (hne : values ≠ []) (hbound : ∀ s ∈ values, s < Text.numeralBound) :
    r.readTableLine line (writeDeclaration name values) = .ok (r.declare name values) := by
  have hword := Text.isWord_of_isIdentifier hname
  have hread : r.readDeclaration name.toList
      ('\x7b' :: (commaSeparated (values.map Text.numeral) ++ ['\x7d'])) =
      .ok (r.declare name values) := by
    rw [readDeclaration_eq_ok_iff, String.ofList_toList]
    refine ⟨hname, ?_, values, ?_, rfl⟩
    · rw [← Bool.not_eq_true, InsertionMap.contains_iff]
      exact hnew
    · exact (readValueSet_eq_ok_iff hnames).2 (isValueSet_numerals hne hbound)
  rw [readTableLine, (isClean_writeDeclaration hword values).trimEnd_uncommented,
    ofContent_writeDeclaration hword]
  exact hread

end Declarations

/-! ## Clauses -/

/-- A field that can be written: a state that a numeral may denote, or a variable of
the rule. -/
def CanWrite (rule : Rule) : Field → Prop
  | .state s => s < Text.numeralBound
  | .var id => id < rule.declarations.size

instance (rule : Rule) (field : Field) : Decidable (rule.CanWrite field) :=
  match field with
  | .state s => inferInstanceAs (Decidable (s < _))
  | .var id => inferInstanceAs (Decidable (id < _))

section Clauses

variable (hnames : rule.HasProperNames)
include hnames

theorem standsFor_writeField {field : Field} (h : rule.CanWrite field) :
    Text.IsWord (rule.writeField field) ∧
      Field.StandsFor rule.declarations.keys (rule.writeField field) field := by
  cases field with
  | state s =>
    have hstate : Field.StandsFor rule.declarations.keys (Text.numeral s)
        (.state (Text.numeralValue (Text.numeral s))) :=
      .state (Text.isNumeral_numeral s) (by rw [Text.numeralValue_numeral]; exact h)
    rw [Text.numeralValue_numeral] at hstate
    exact ⟨Text.isWord_numeral s, hstate⟩
  | var id =>
    obtain ⟨entry, hentry⟩ : ∃ entry, rule.declarations.entries[id]? = some entry :=
      ⟨_, List.getElem?_eq_getElem h⟩
    have hkey : rule.declarations.keys[id]? = some entry.1 := by
      rw [InsertionMap.keys, List.getElem?_map, hentry]
      rfl
    have hwrite : rule.writeField (.var id) = entry.1.toList := by
      rw [writeField, variableAt?, InsertionMap.entryAt?, hentry]
    rw [hwrite]
    refine ⟨Text.isWord_of_isIdentifier (hnames _ (List.mem_of_getElem? hkey)), .var ?_⟩
    rw [hkey, String.ofList_toList]

variable {clause : Clause} (hfields : ∀ field ∈ clause.fields, rule.CanWrite field)
include hfields

theorem isWord_of_mem_writeFields :
    ∀ token ∈ clause.fields.map rule.writeField, Text.IsWord token := by
  intro token htoken
  obtain ⟨field, hfield, rfl⟩ := List.mem_map.1 htoken
  exact (standsFor_writeField hnames (hfields field hfield)).1

theorem splitOn_writeClause :
    (rule.writeClause clause).splitOn ',' = clause.fields.map rule.writeField := by
  apply splitOn_commaSeparated (isWord_of_mem_writeFields hnames hfields)
  rw [← List.length_pos_iff, List.length_map, clause.length_fields]
  decide

theorem comma_mem_writeClause : ',' ∈ rule.writeClause clause := by
  by_contra hcomma
  have hlength := congrArg List.length (splitOn_writeClause hnames hfields)
  rw [List.splitOn_eq_singleton hcomma, List.length_map, clause.length_fields] at hlength
  cases hlength

theorem isClean_writeClause : Line.IsClean (rule.writeClause clause) := by
  apply Line.isClean_of_marks (List.ne_nil_of_mem (comma_mem_writeClause hnames hfields))
  intro c hc
  rcases mem_commaSeparated_of_isWord (isWord_of_mem_writeFields hnames hfields) hc with
    hcomma | hname
  · exact .inr (.inl hcomma)
  · exact .inl hname

theorem ofContent_writeClause :
    TableLine.ofContent (rule.writeClause clause) =
      .transition (clause.fields.map rule.writeField) := by
  have hwords := isWord_of_mem_writeFields hnames hfields
  have hother : ∀ mark, Text.isNameChar mark = false → mark ≠ ',' →
      mark ∉ rule.writeClause clause := by
    intro mark hmark hne hmem
    rcases mem_commaSeparated_of_isWord hwords hmem with hcomma | hname
    · exact hne hcomma
    · rw [hmark] at hname
      cases hname
  have hcount : (rule.writeClause clause).count ':' = 0 :=
    List.count_eq_zero.2 (hother ':' (by decide) (by decide))
  have hequals := hother '=' (by decide) (by decide)
  rw [TableLine.ofContent_eq_transition_iff]
  refine ⟨TableLine.declarationBody?_eq_none_iff.2 fun h => hequals h.2.2, by omega, ?_, ?_⟩
  · rw [TableLine.isTransitionShaped, Bool.and_eq_true, List.contains_iff_mem,
      List.all_eq_true]
    refine ⟨comma_mem_writeClause hnames hfields, fun c hc => ?_⟩
    rcases mem_commaSeparated_of_isWord hwords hc with rfl | hname
    · rfl
    · rw [TableLine.isTransitionChar, hname, Bool.true_or, Bool.true_or]
  · rw [splitOn_writeClause hnames hfields]
    refine ((List.map_congr_left fun token htoken => ?_).trans (List.map_id _)).symm
    exact Text.squash_eq_self (hwords token htoken).isBlank_eq_false

theorem readTableLine_writeClause (hsame : r.declarations = rule.declarations) :
    r.readTableLine line (rule.writeClause clause) = .ok (r.push { clause with line }) := by
  have hproper : r.HasProperNames := by
    intro label hlabel
    rw [hsame] at hlabel
    exact hnames label hlabel
  have hread : r.readTransition line (clause.fields.map rule.writeField) =
      .ok { clause with line } := by
    rw [readTransition_eq_ok_iff hproper, List.length_map, hsame, List.forall₂_map_left_iff]
    refine ⟨rfl, clause.length_fields, List.forall₂_same.2 fun field hfield => ?_⟩
    exact (standsFor_writeField hnames (hfields field hfield)).2
  rw [readTableLine, (isClean_writeClause hnames hfields).trimEnd_uncommented,
    ofContent_writeClause hnames hfields]
  simp only [hread]

end Clauses

end Rule

end Cellular
