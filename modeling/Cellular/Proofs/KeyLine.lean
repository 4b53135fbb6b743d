import Mathlib.Data.List.TakeWhile
import Cellular.Proofs.Core
import Cellular.Proofs.TableLine

/-!
# Reading one line of a key

A line that is read without fault is read as well in its shortest layout, and
means the same.
-/

namespace Cellular

namespace Rule

/-- The name with single spaces. -/
def collapsed (name : String) : String :=
  String.ofList (Text.singleSpaced name.toList)

/-- The rule `s` says what `r` says, under a name with single spaces. -/
structure SameReading (s r : Rule) : Prop where
  core_eq : s.core = r.core
  name_eq : s.name = r.name.map collapsed

/-- Variables are named by identifiers. -/
def HasProperNames (rule : Rule) : Prop :=
  ∀ label ∈ rule.declarations.keys, Text.isIdentifier label.toList = true

variable {r s : Rule}

namespace SameReading

theorem declarations_eq (h : SameReading s r) : s.declarations = r.declarations :=
  (core_eq_iff.1 h.core_eq).2.2.2.1

theorem declare (h : SameReading s r) (label : String) (values : List State) :
    SameReading (s.declare label values) (r.declare label values) := by
  obtain ⟨hcount, hneighborhood, hsymmetry, hdeclarations, hclauses⟩ :=
    core_eq_iff.1 h.core_eq
  constructor
  · rw [core_eq_iff, Rule.declare, Rule.declare, hdeclarations]
    exact ⟨hcount, hneighborhood, hsymmetry, rfl, hclauses⟩
  · exact h.name_eq

theorem push (h : SameReading s r) {left right : Clause}
    (hclause : left.unnumbered = right.unnumbered) :
    SameReading (s.push left) (r.push right) := by
  obtain ⟨hcount, hneighborhood, hsymmetry, hdeclarations, hclauses⟩ :=
    core_eq_iff.1 h.core_eq
  constructor
  · rw [core_eq_iff, Rule.push, Rule.push, List.map_append, List.map_append, hclauses,
      List.map_singleton, List.map_singleton, hclause]
    exact ⟨hcount, hneighborhood, hsymmetry, hdeclarations, rfl⟩
  · exact h.name_eq

end SameReading

/-! ## Declarations -/

theorem readItem_congr (h : s.declarations = r.declarations) (item : List Char) :
    s.readItem item = r.readItem item := by
  rw [readItem, readItem, h]

theorem readItems_congr (h : s.declarations = r.declarations)
    (items : List (List Char)) : s.readItems items = r.readItems items := by
  induction items with
  | nil => rfl
  | cons item rest ih => rw [readItems, readItems, readItem_congr h, ih]

theorem readValueSet_congr (h : s.declarations = r.declarations) (label : String)
    (valueSet : List Char) :
    s.readValueSet label valueSet = r.readValueSet label valueSet := by
  rw [readValueSet, readValueSet]
  simp only [readItems_congr h]

theorem readDeclaration_eq_ok_iff {name valueSet : List Char} {next : Rule} :
    r.readDeclaration name valueSet = .ok next ↔
      Text.isIdentifier name = true ∧
        r.declarations.contains (String.ofList name) = false ∧
        ∃ values, r.readValueSet (String.ofList name) valueSet = .ok values ∧
          next = r.declare (String.ofList name) values := by
  rw [readDeclaration]
  cases hname : Text.isIdentifier name with
  | false => simp
  | true =>
    cases hcontains : r.declarations.contains (String.ofList name) with
    | true => simp
    | false =>
      cases hvalues : r.readValueSet (String.ofList name) valueSet with
      | error fault => simp
      | ok values => simp [eq_comm]

theorem plain_of_readNumeral {text : List Char} {n : ℕ}
    (h : Text.readNumeral text = some n) :
    ∀ c ∈ text, Text.isBlank c = false ∧ isTight c = false := by
  rw [Text.readNumeral] at h
  split at h
  · rename_i hnumeral
    simp only [Text.isNumeral, Bool.and_eq_true, List.all_eq_true] at hnumeral
    exact fun c hc => Text.plain_of_isDigit (hnumeral.1.2 c hc)
  · cases h

/-- An item that is read has neither blanks nor marks in it. -/
theorem plain_of_readItem (hnames : r.HasProperNames) {item : List Char}
    {values : List State} (h : r.readItem item = .ok values) :
    ∀ c ∈ item, Text.isBlank c = false ∧ isTight c = false := by
  rw [readItem] at h
  split at h
  · rename_i n hn
    exact plain_of_readNumeral hn
  · split at h
    · rename_i found hfound
      have hkey : String.ofList item ∈ r.declarations.keys := by
        rw [← Decidable.not_not (p := _ ∈ _), ← InsertionMap.get?_eq_none_iff, hfound]
        exact Option.some_ne_none found
      have hname := hnames _ hkey
      rw [String.toList_ofList] at hname
      exact Text.plain_of_isIdentifier hname
    · cases h

theorem readItem_squeezed_iff (hnames : r.HasProperNames) {item : List Char}
    {values : List State} :
    r.readItem (squeezed item) = .ok values ↔
      r.readItem (Text.trim item) = .ok values := by
  constructor
  · intro h
    rwa [Text.trim_eq_of_squeeze_eq (plain_of_readItem hnames h) rfl]
  · intro h
    have hplain := plain_of_readItem hnames h
    rwa [squeezed_eq_trim fun c hc => (hplain c hc).1]

theorem readItems_cons_eq_ok_iff {item : List Char} {rest : List (List Char)}
    {values : List State} :
    r.readItems (item :: rest) = .ok values ↔
      ∃ found, r.readItem item = .ok found ∧
        ∃ others, r.readItems rest = .ok others ∧ values = found ++ others := by
  rw [readItems]
  cases r.readItem item with
  | error fault => simp [bind, Except.bind]
  | ok found =>
    cases r.readItems rest with
    | error fault => simp [bind, Except.bind]
    | ok others => simp [bind, Except.bind, pure, Except.pure, eq_comm]

theorem readItems_squeezed_iff (hnames : r.HasProperNames) {items : List (List Char)}
    {values : List State} :
    r.readItems (items.map squeezed) = .ok values ↔
      r.readItems (items.map Text.trim) = .ok values := by
  induction items generalizing values with
  | nil => exact Iff.rfl
  | cons item rest ih =>
    simp only [List.map_cons, readItems_cons_eq_ok_iff, readItem_squeezed_iff hnames, ih]

theorem squeezed_eq_nil_iff {text : List Char} :
    squeezed text = [] ↔ Text.trim text = [] := by
  rw [← squeezed_trim, Text.squeeze_eq_nil_iff, Text.trim, Text.trimEnd_trimEnd]

/-- The items of a value set are squeezed one by one. -/
theorem exists_itemsOf (inside : List Char) :
    ∃ items : List (List Char), itemsOf inside = items.map Text.trim ∧
      itemsOf (squeezed inside) = items.map squeezed := by
  let parts := inside.splitOn ','
  have hempty : ∀ part : List Char,
      (squeezed part).isEmpty = (Text.trim part).isEmpty := by
    intro part
    rw [Bool.eq_iff_iff, List.isEmpty_iff, List.isEmpty_iff, squeezed_eq_nil_iff]
  refine ⟨parts.filter fun part => !(Text.trim part).isEmpty, ?_, ?_⟩
  · rw [itemsOf, List.filter_map]
    rfl
  · have htrim : (parts.map squeezed).map Text.trim = parts.map squeezed := by
      rw [List.map_map]
      congr 1
      funext part
      exact trim_squeezed part
    rw [itemsOf, splitOn_squeezed rfl, htrim, List.filter_map]
    congr 2
    funext part
    exact congrArg _ (hempty part)

theorem braced?_eq_some_iff {text inside : List Char} :
    braced? text = some inside ↔ text = '\x7b' :: (inside ++ ['\x7d']) := by
  constructor
  · intro h
    rw [braced?.eq_def] at h
    split at h
    · rename_i rest
      split at h
      · rename_i hlast
        cases h
        rw [List.dropLast_append_getLast?]
        exact hlast
      · cases h
    · cases h
  · rintro rfl
    simp [braced?]

/-- Squeezing keeps the braces around a value set and makes none. -/
theorem braced?_squeezed {text : List Char} (htrim : Text.trim text = text) :
    braced? (squeezed text) = (braced? text).map squeezed := by
  cases hbraced : braced? text with
  | some inside =>
    have hopening : isTight '\x7b' = true := rfl
    have hclosing : isTight '\x7d' = true := rfl
    have houter := squeezed_append hopening [] (inside ++ ['\x7d'])
    rw [squeezed_append hclosing inside []] at houter
    rw [braced?_eq_some_iff.1 hbraced]
    exact braced?_eq_some_iff.2 houter
  | none =>
    rw [Option.map_none, ← Option.not_isSome_iff_eq_none]
    intro hsome
    obtain ⟨squeezedInside, hinside⟩ := Option.isSome_iff_exists.1 hsome
    have hsqueezed : Text.squeeze isTight text =
        '\x7b' :: (squeezedInside ++ ['\x7d']) := braced?_eq_some_iff.1 hinside
    -- The first and the last character of a trimmed text are those of its layout.
    have hfirst : text.head? = some '\x7b' := by
      have hstart : Text.trimStart text = text := by
        apply Text.trimStart_eq_self
        rw [← htrim]
        exact Text.head?_trim_any text
      rw [← hstart, ← Text.head?_squeeze isTight, hsqueezed]
      rfl
    have hlast : text.getLast? = some '\x7d' := by
      have hend : Text.trimEnd text = text := by
        rw [← htrim, Text.trim, Text.trimEnd_trimEnd]
      rw [← hend, ← Text.getLast?_squeeze isTight, hsqueezed, ← List.cons_append,
        List.getLast?_append_of_ne_nil _ (List.cons_ne_nil _ _)]
      rfl
    cases text with
    | nil => cases hfirst
    | cons c rest =>
      cases hfirst
      cases rest with
      | nil => cases hlast
      | cons d rest =>
        rw [List.getLast?_cons_cons] at hlast
        rw [braced?, if_pos hlast] at hbraced
        cases hbraced

theorem readValueSet_squeezed_iff (hnames : r.HasProperNames) {label : String}
    {valueSet : List Char} (htrim : Text.trim valueSet = valueSet)
    {values : List State} :
    r.readValueSet label (squeezed valueSet) = .ok values ↔
      r.readValueSet label valueSet = .ok values := by
  rw [readValueSet, readValueSet, braced?_squeezed htrim]
  cases braced? valueSet with
  | none => exact Iff.rfl
  | some inside =>
    obtain ⟨items, hitems, hitemsSqueezed⟩ := exists_itemsOf inside
    have hread : ∀ found, r.readItems (items.map squeezed) = .ok found ↔
        r.readItems (items.map Text.trim) = .ok found := fun found =>
      readItems_squeezed_iff hnames
    simp only [Option.map_some, hitems, hitemsSqueezed]
    cases htrimmed : r.readItems (items.map Text.trim) with
    | ok found => rw [(hread found).2 htrimmed]
    | error fault =>
      cases hsqueezed : r.readItems (items.map squeezed) with
      | ok found =>
        rw [(hread found).1 hsqueezed] at htrimmed
        cases htrimmed
      | error other =>
        simp [bind, Except.bind]

theorem readDeclaration_squeezed (hsame : SameReading s r)
    (hnames : r.HasProperNames) {name valueSet : List Char} {next : Rule}
    (htrim : Text.trim valueSet = valueSet)
    (h : r.readDeclaration name valueSet = .ok next) :
    ∃ other, s.readDeclaration name (squeezed valueSet) = .ok other ∧
      SameReading other next := by
  obtain ⟨hname, hcontains, values, hvalues, rfl⟩ := readDeclaration_eq_ok_iff.1 h
  have hread : s.readValueSet (String.ofList name) (squeezed valueSet) = .ok values := by
    rw [readValueSet_congr hsame.declarations_eq]
    exact (readValueSet_squeezed_iff hnames htrim).2 hvalues
  rw [← hsame.declarations_eq] at hcontains
  exact ⟨_, readDeclaration_eq_ok_iff.2 ⟨hname, hcontains, values, hread, rfl⟩,
    hsame.declare _ values⟩

/-! ## Parameters -/

/-- A keyword is recognized in both layouts or in neither. -/
theorem ofList_squeezed_eq_iff {key : List Char} (htrim : Text.trim key = key)
    {word : String} (hword : Text.isIdentifier word.toList = true) :
    String.ofList (squeezed key) = word ↔ String.ofList key = word := by
  have hplain := Text.plain_of_isIdentifier hword
  constructor
  · rintro rfl
    rw [String.toList_ofList] at hplain
    have h := Text.trim_eq_of_squeeze_eq hplain rfl
    rw [htrim] at h
    rw [← h]
  · rintro rfl
    rw [String.toList_ofList] at hplain
    rw [squeezed, Text.squeeze_eq_self fun c hc => (hplain c hc).1]

/-- A count that is read has neither blanks nor marks in it. -/
theorem plain_of_readStateCount {value : List Char} {n : ℕ}
    (h : readStateCount value = .ok n) :
    ∀ c ∈ value, Text.isBlank c = false ∧ isTight c = false := by
  rw [readStateCount] at h
  split at h
  · cases h
  · rename_i m hm
    rw [Text.readSignedNumeral.eq_def] at hm
    split at hm
    · rename_i digits
      intro c hc
      rcases List.mem_cons.1 hc with rfl | hc
      · exact ⟨rfl, rfl⟩
      · exact plain_of_readNumeral hm c hc
    · exact fun c hc => plain_of_readNumeral hm c hc

theorem readStateCount_squeezed_iff {value : List Char}
    (htrim : Text.trim value = value) {n : ℕ} :
    readStateCount (squeezed value) = .ok n ↔ readStateCount value = .ok n := by
  constructor
  · intro h
    have hsame := Text.trim_eq_of_squeeze_eq (plain_of_readStateCount h) rfl
    rwa [← hsame, htrim] at h
  · intro h
    rwa [squeezed, Text.squeeze_eq_self fun c hc => (plain_of_readStateCount h c hc).1]

theorem neighborhood_squeezed (value : List Char) :
    Neighborhood.ofName? (squeezed value) = Neighborhood.ofName? value := by
  rw [Neighborhood.ofName?, Text.squash_squeeze, Neighborhood.ofName?]

theorem toLower_of_isBlank {c : Char} (h : Text.isBlank c = true) : c.toLower = c := by
  simp only [Text.isBlank, Text.blankRanges, List.any_cons, List.any_nil,
    Bool.or_false, Bool.or_eq_true, Bool.and_eq_true, decide_eq_true_eq] at h
  delta Char.toLower
  rw [dif_neg]
  rw [ge_iff_le, UInt32.le_iff_toNat_le, UInt32.le_iff_toNat_le]
  change ¬ (65 ≤ c.toNat ∧ c.toNat ≤ 90)
  omega

theorem toLower_of_isTight {c : Char} (h : isTight c = true) : c.toLower = c := by
  simp only [isTight, Bool.or_eq_true, beq_iff_eq] at h
  rcases h with (((rfl | rfl) | rfl) | rfl) | rfl <;> rfl

/-- The name of a symmetry has neither blanks nor marks in it. -/
theorem plain_of_ofName? {value : List Char} {symmetry : Symmetry}
    (h : Symmetry.ofName? value = some symmetry) :
    ∀ c ∈ Text.trim value, Text.isBlank c = false ∧ isTight c = false := by
  have hname : symmetry.name.toList = Text.lowercase (Text.trim value) := by
    have hfound := List.find?_some h
    rwa [decide_eq_true_iff] at hfound
  have hidentifier : Text.isIdentifier symmetry.name.toList = true := by
    cases symmetry <;> rfl
  have hlower : ∀ c ∈ Text.trim value, c.toLower = c →
      Text.isBlank c = false ∧ isTight c = false := by
    intro c hc hself
    apply Text.plain_of_isIdentifier hidentifier
    rw [hname, ← hself]
    exact List.mem_map.2 ⟨c, hc, rfl⟩
  intro c hc
  constructor
  · rw [← Bool.not_eq_true]
    intro hblank
    rw [(hlower c hc (toLower_of_isBlank hblank)).1] at hblank
    cases hblank
  · rw [← Bool.not_eq_true]
    intro htight
    rw [(hlower c hc (toLower_of_isTight htight)).2] at htight
    cases htight

theorem symmetry_squeezed_iff {value : List Char} {symmetry : Symmetry} :
    Symmetry.ofName? (squeezed value) = some symmetry ↔
      Symmetry.ofName? value = some symmetry := by
  have hcongr : Text.trim (squeezed value) = Text.trim value →
      Symmetry.ofName? (squeezed value) = Symmetry.ofName? value := by
    intro hsame
    rw [Symmetry.ofName?, hsame, Symmetry.ofName?]
  constructor
  · intro h
    have hplain := plain_of_ofName? h
    rw [trim_squeezed] at hplain
    rwa [hcongr] at h
    rw [trim_squeezed, Text.trim_eq_of_squeeze_eq hplain rfl]
  · intro h
    rwa [hcongr]
    rw [trim_squeezed, squeezed_eq_trim fun c hc => (plain_of_ofName? h c hc).1]

/-- What a parameter that is read changes in the rule. -/
inductive SetsParameter (r : Rule) (key : String) (value : List Char) : Rule → Prop where
  | stateCount {n : ℕ} (hkey : key = "n_states") (hread : readStateCount value = .ok n) :
      SetsParameter r key value { r with stateCount := n }
  | neighborhood {shape : Neighborhood} (hkey : key = "neighborhood")
      (hread : Neighborhood.ofName? value = some shape) :
      SetsParameter r key value { r with neighborhood := shape }
  | symmetry {group : Symmetry} (hkey : key = "symmetries" ∨ key = "symmetry")
      (hread : Symmetry.ofName? value = some group) :
      SetsParameter r key value { r with symmetry := group }
  | other (hstates : key ≠ "n_states") (hneighborhood : key ≠ "neighborhood")
      (hsymmetries : key ≠ "symmetries") (hsymmetry : key ≠ "symmetry") :
      SetsParameter r key value
        { r with parameters := r.parameters.insert key (String.ofList value) }

theorem setsParameter_of_readParameter {key value : List Char} {next : Rule}
    (h : r.readParameter key value = .ok next) :
    r.SetsParameter (String.ofList key) value next := by
  rw [readParameter] at h
  split at h
  · rename_i hkey
    split at h
    · cases h
    · rename_i n hread
      cases h
      exact .stateCount hkey hread
  · rename_i hkey
    split at h
    · cases h
    · rename_i shape hread
      cases h
      exact .neighborhood hkey hread
  · rename_i hkey
    split at h
    · cases h
    · rename_i group hread
      cases h
      exact .symmetry (Or.inl hkey) hread
  · rename_i hkey
    split at h
    · cases h
    · rename_i group hread
      cases h
      exact .symmetry (Or.inr hkey) hread
  · rename_i hstates hneighborhood hsymmetries hsymmetry
    cases h
    exact .other hstates hneighborhood hsymmetries hsymmetry

theorem readParameter_of_setsParameter {key value : List Char} {next : Rule}
    (h : r.SetsParameter (String.ofList key) value next) :
    r.readParameter key value = .ok next := by
  rw [readParameter]
  cases h with
  | stateCount hkey hread =>
    rw [hkey]
    simp only [hread]
  | neighborhood hkey hread =>
    rw [hkey]
    simp only [hread]
  | symmetry hkey hread =>
    cases hkey with
    | inl hkey | inr hkey =>
      rw [hkey]
      simp only [hread]
  | other hstates hneighborhood hsymmetries hsymmetry =>
    split
    · rename_i hkey
      exact absurd hkey hstates
    · rename_i hkey
      exact absurd hkey hneighborhood
    · rename_i hkey
      exact absurd hkey hsymmetries
    · rename_i hkey
      exact absurd hkey hsymmetry
    · rfl

theorem declarations_of_readParameter {key value : List Char} {next : Rule}
    (h : r.readParameter key value = .ok next) :
    next.declarations = r.declarations := by
  cases setsParameter_of_readParameter h <;> rfl

theorem readParameter_squeezed (hsame : SameReading s r) {key value : List Char}
    {next : Rule} (hkey : Text.trim key = key) (hvalue : Text.trim value = value)
    (h : r.readParameter key value = .ok next) :
    ∃ other, s.readParameter (squeezed key) (squeezed value) = .ok other ∧
      SameReading other next := by
  have hkeyword : ∀ word : String, Text.isIdentifier word.toList = true →
      (String.ofList (squeezed key) = word ↔ String.ofList key = word) :=
    fun word => ofList_squeezed_eq_iff hkey
  have hstates := hkeyword "n_states" rfl
  have hneighborhood := hkeyword "neighborhood" rfl
  have hsymmetries := hkeyword "symmetries" rfl
  have hsymmetry := hkeyword "symmetry" rfl
  obtain ⟨hcount, hshape, hgroup, hdeclarations, hclauses⟩ :=
    core_eq_iff.1 hsame.core_eq
  cases setsParameter_of_readParameter h with
  | stateCount hword hread =>
    have hset := SetsParameter.stateCount (r := s) (hstates.2 hword)
      ((readStateCount_squeezed_iff hvalue).2 hread)
    exact ⟨_, readParameter_of_setsParameter hset,
      core_eq_iff.2 ⟨rfl, hshape, hgroup, hdeclarations, hclauses⟩, hsame.name_eq⟩
  | neighborhood hword hread =>
    rw [← neighborhood_squeezed] at hread
    have hset := SetsParameter.neighborhood (r := s) (hneighborhood.2 hword) hread
    exact ⟨_, readParameter_of_setsParameter hset,
      core_eq_iff.2 ⟨hcount, rfl, hgroup, hdeclarations, hclauses⟩, hsame.name_eq⟩
  | symmetry hword hread =>
    have hset := SetsParameter.symmetry (r := s)
      (hword.imp hsymmetries.2 hsymmetry.2) (symmetry_squeezed_iff.2 hread)
    exact ⟨_, readParameter_of_setsParameter hset,
      core_eq_iff.2 ⟨hcount, hshape, rfl, hdeclarations, hclauses⟩, hsame.name_eq⟩
  | other hotherStates hotherNeighborhood hotherSymmetries hotherSymmetry =>
    have hset : s.SetsParameter (String.ofList (squeezed key)) (squeezed value) _ :=
      .other (mt hstates.1 hotherStates) (mt hneighborhood.1 hotherNeighborhood)
        (mt hsymmetries.1 hotherSymmetries) (mt hsymmetry.1 hotherSymmetry)
    exact ⟨_, readParameter_of_setsParameter hset,
      core_eq_iff.2 ⟨hcount, hshape, hgroup, hdeclarations, hclauses⟩, hsame.name_eq⟩

/-! ## Transitions -/

theorem readFields_congr (h : s.declarations = r.declarations)
    (tokens : List (List Char)) : s.readFields tokens = r.readFields tokens := by
  induction tokens with
  | nil => rfl
  | cons token rest ih =>
    have hfield : s.readField token = r.readField token := by
      rw [readField, readField, variableId?, variableId?, h]
    rw [readFields, readFields, hfield, ih]

theorem ofFields?_eq_map (line other : ℕ) (fields : List Field) :
    Clause.ofFields? other fields =
      (Clause.ofFields? line fields).map fun clause => { clause with line := other } := by
  rw [Clause.ofFields?.eq_def, Clause.ofFields?.eq_def]
  split <;> rfl

/-- A transition reads the same on another line, except for the line number. -/
theorem exists_readTransition (h : s.declarations = r.declarations)
    {line : ℕ} (other : ℕ) {tokens : List (List Char)} {clause : Clause}
    (hread : r.readTransition line tokens = .ok clause) :
    ∃ moved, s.readTransition other tokens = .ok moved ∧
      moved.unnumbered = clause.unnumbered := by
  rw [readTransition] at hread ⊢
  split at hread
  · cases hread
  · rename_i hcount
    rw [if_neg hcount, readFields_congr h]
    cases hfields : r.readFields tokens with
    | error fault =>
      rw [hfields] at hread
      cases hread
    | ok fields =>
      rw [hfields] at hread
      simp only [bind, Except.bind] at hread ⊢
      rw [ofFields?_eq_map line other]
      cases hclause : Clause.ofFields? line fields with
      | none =>
        rw [hclause] at hread
        cases hread
      | some found =>
        rw [hclause] at hread
        cases hread
        exact ⟨_, rfl, rfl⟩

/-! ## Lines of the table section -/

theorem uncommented_eq_self {text : List Char} (h : '#' ∉ text) :
    Line.uncommented text = text := by
  rw [Line.uncommented, List.takeWhile_eq_self_iff]
  intro c hc
  rw [decide_eq_true_iff]
  exact fun heq => h (heq ▸ hc)

theorem not_mem_uncommented (text : List Char) : '#' ∉ Line.uncommented text := by
  intro hmem
  have h := List.mem_takeWhile_imp hmem
  simp at h

theorem uncommented_tightened (text : List Char) :
    Text.trimEnd (Line.uncommented (tightened text)) =
      squeezed (Text.trimEnd (Line.uncommented text)) := by
  have hcomment : '#' ∉ squeezed (Line.uncommented text) := by
    rw [squeezed, Text.mem_squeeze_iff rfl]
    exact not_mem_uncommented text
  calc
    Text.trimEnd (Line.uncommented (tightened text)) =
        Text.trimEnd (squeezed (Line.uncommented text)) := by
      rw [tightened_eq_squeezed, uncommented_eq_self hcomment]
    _ = squeezed (Line.uncommented text) := Text.trimEnd_squeeze _ _
    _ = squeezed (Text.trimEnd (Line.uncommented text)) :=
      (Text.squeeze_trimEnd _ _).symm

/-- A table line in its shortest layout is read as the line itself. -/
theorem readTableLine_tightened (hsame : SameReading s r)
    (hnames : r.HasProperNames) {line : ℕ} (other : ℕ) {text : List Char} {next : Rule}
    (hstart : (Text.trimEnd (Line.uncommented text)).head?.any Text.isBlank = false)
    (h : r.readTableLine line text = .ok next) :
    ∃ moved, s.readTableLine other (tightened text) = .ok moved ∧
      SameReading moved next := by
  rw [readTableLine] at h
  rw [readTableLine, uncommented_tightened]
  cases hform : TableLine.ofContent (Text.trimEnd (Line.uncommented text)) with
  | declaration name valueSet =>
    rw [hform] at h
    have hname := (readDeclaration_eq_ok_iff.1 h).1
    have htrim : Text.trim valueSet = valueSet := by
      obtain ⟨body, -, -, rfl⟩ := TableLine.ofContent_eq_declaration_iff.1 hform
      exact Text.trim_trim _
    rw [TableLine.ofContent_squeezed_of_declaration hform hname]
    exact readDeclaration_squeezed hsame hnames htrim h
  | parameter key value =>
    rw [hform] at h
    rw [TableLine.ofContent_squeezed_of_parameter hstart hform]
    obtain ⟨-, -, hkey, hvalue⟩ := TableLine.ofContent_eq_parameter_iff.1 hform
    have hkeyTrim : Text.trim key = key := by rw [hkey, Text.trim_trim]
    have hvalueTrim : Text.trim value = value := by rw [hvalue, Text.trim_trim]
    exact readParameter_squeezed hsame hkeyTrim hvalueTrim h
  | transition tokens =>
    rw [hform] at h
    rw [TableLine.ofContent_squeezed_of_transition hstart hform]
    cases hread : r.readTransition line tokens with
    | error fault =>
      simp only [hread] at h
      cases h
    | ok clause =>
      simp only [hread] at h
      cases h
      obtain ⟨moved, hmoved, hclause⟩ :=
        exists_readTransition hsame.declarations_eq other hread
      simp only [hmoved]
      exact ⟨_, rfl, hsame.push hclause⟩
  | unrecognized =>
    rw [hform] at h
    cases h

theorem hasProperNames_of_readTableLine (hnames : r.HasProperNames) {line : ℕ}
    {text : List Char} {next : Rule} (h : r.readTableLine line text = .ok next) :
    next.HasProperNames := by
  rw [readTableLine] at h
  split at h
  · obtain ⟨hname, -, values, -, rfl⟩ := readDeclaration_eq_ok_iff.1 h
    intro label hlabel
    rcases InsertionMap.mem_keys_insertEntry.1 hlabel with rfl | hlabel
    · rwa [String.toList_ofList]
    · exact hnames label hlabel
  · rename_i key value
    intro label hlabel
    rw [declarations_of_readParameter h] at hlabel
    exact hnames label hlabel
  · split at h
    · cases h
    · cases h
      exact hnames
  · cases h

end Rule

end Cellular
