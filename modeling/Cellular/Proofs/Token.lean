import Mathlib.Data.List.Forall2
import Cellular.Proofs.KeyLine

/-!
# What the tokens of a line stand for

A token of a transition stands for a state or for a variable that was declared
above it, and an item of a value set for the states that it adds.  A line is read
exactly if each of its parts stands for something, and then as what they stand
for.
-/

namespace Cellular

theorem InsertionMap.placeOf?_eq_some_iff {κ α : Type} [DecidableEq κ]
    {map : InsertionMap κ α} {key : κ} {place : ℕ} :
    map.placeOf? key = some place ↔ map.keys[place]? = some key := by
  rw [placeOf?, List.idxOf?_eq_some_iff, List.getElem?_eq_some_iff]
  constructor
  · rintro ⟨hplace, hkey, -⟩
    exact ⟨hplace, hkey⟩
  · rintro ⟨hplace, hkey⟩
    refine ⟨hplace, hkey, fun other hless hother => ?_⟩
    have heq := (List.Nodup.getElem_inj_iff map.nodup).1 (hother.trans hkey.symm)
    omega

theorem InsertionMap.get?_eq_some_iff {κ α : Type} [DecidableEq κ]
    {map : InsertionMap κ α} {key : κ} {value : α} :
    map.get? key = some value ↔ (key, value) ∈ map.entries :=
  ⟨mem_of_lookup_eq_some, lookup_eq_some_of_mem map.nodup⟩

namespace Text

theorem readNumeral_eq_some_iff {text : List Char} {n : ℕ} :
    readNumeral text = some n ↔
      isNumeral text = true ∧ numeralValue text < numeralBound ∧
        numeralValue text = n := by
  rw [readNumeral]
  split
  · rename_i h
    simp only [Bool.and_eq_true, decide_eq_true_eq] at h
    simp [h]
  · rename_i h
    simp only [Bool.and_eq_true, decide_eq_true_eq] at h
    simp only [reduceCtorEq, false_iff]
    exact fun hboth => h ⟨hboth.1, hboth.2.1⟩

/-- Identifiers are no numerals. -/
theorem isNumeral_eq_false {text : List Char} (h : isIdentifier text = true) :
    isNumeral text = false := by
  simp only [isIdentifier, Bool.and_eq_true, Bool.not_eq_true'] at h
  rw [isNumeral, h.2, Bool.and_false]

end Text

/-- The field that a token stands for, when the variables declared above it have
the given names. -/
inductive Field.StandsFor (names : List String) (token : List Char) : Field → Prop where
  | state (hnumeral : Text.isNumeral token = true)
      (hlt : Text.numeralValue token < Text.numeralBound) :
      StandsFor names token (.state (Text.numeralValue token))
  | var {id : ℕ} (hname : names[id]? = some (String.ofList token)) :
      StandsFor names token (.var id)

/-- The values that an item of a value set stands for, when the variables declared
above it have the given values. -/
inductive ItemStandsFor (declared : List (String × List State)) (item : List Char) :
    List State → Prop where
  | state (hnumeral : Text.isNumeral item = true)
      (hlt : Text.numeralValue item < Text.numeralBound) :
      ItemStandsFor declared item [Text.numeralValue item]
  | var {values : List State} (hmem : (String.ofList item, values) ∈ declared) :
      ItemStandsFor declared item values

/-- The text is a value set in braces, with at least one value, whose items stand for
the values in turn. -/
def IsValueSet (declared : List (String × List State)) (text : List Char)
    (values : List State) : Prop :=
  ∃ inside parts, text = '\x7b' :: (inside ++ ['\x7d']) ∧
    List.Forall₂ (ItemStandsFor declared) (Rule.itemsOf inside) parts ∧
    values = parts.flatten ∧ values ≠ []

namespace Clause

theorem ofFields?_fields :
    ∀ clause : Clause, ofFields? clause.line clause.fields = some clause
  | ⟨_, ⟨[_, _, _, _, _, _, _, _], _⟩, _, _⟩ => rfl

theorem ofFields?_eq_some_iff {line : ℕ} {fields : List Field} {clause : Clause} :
    ofFields? line fields = some clause ↔ clause.fields = fields ∧ clause.line = line := by
  constructor
  · intro h
    rw [ofFields?.eq_def] at h
    split at h
    · cases h
      exact ⟨rfl, rfl⟩
    · cases h
  · rintro ⟨rfl, rfl⟩
    exact ofFields?_fields clause

theorem length_fields (clause : Clause) : clause.fields.length = fieldCount := by
  rw [fields, inputs, List.length_append, List.length_cons, clause.ring.length_cells]
  rfl

end Clause

namespace Rule

variable {r : Rule}

theorem readStateCount_eq_ok_iff {value : List Char} {n : ℕ} :
    readStateCount value = .ok n ↔
      Text.readSignedNumeral value = some n ∧ IsStateCount n := by
  rw [readStateCount]
  cases Text.readSignedNumeral value with
  | none => simp
  | some m =>
    by_cases hcount : IsStateCount m
    · simp only [if_pos hcount, Except.ok.injEq, Option.some.injEq]
      exact ⟨fun heq => ⟨heq, heq ▸ hcount⟩, fun h => h.1⟩
    · simp only [if_neg hcount, reduceCtorEq, Option.some.injEq, false_iff]
      rintro ⟨rfl, h⟩
      exact hcount h

theorem readField_eq_ok_iff (hnames : r.HasProperNames) {token : List Char}
    {field : Field} :
    r.readField token = .ok field ↔ Field.StandsFor r.declarations.keys token field := by
  have hproper : ∀ id : ℕ, r.declarations.keys[id]? = some (String.ofList token) →
      Text.isIdentifier token = true := by
    intro id hid
    have hname := hnames _ (List.mem_of_getElem? hid)
    rwa [String.toList_ofList] at hname
  constructor
  · intro h
    rw [readField] at h
    split at h
    · cases h
    · split at h
      · split at h
        · rename_i s hs
          cases h
          obtain ⟨hnumeral, hlt, rfl⟩ := Text.readNumeral_eq_some_iff.1 hs
          exact .state hnumeral hlt
        · cases h
      · split at h
        · rename_i id hid
          cases h
          exact .var (InsertionMap.placeOf?_eq_some_iff.1 hid)
        · cases h
  · intro h
    rw [readField]
    cases h with
    | state hnumeral hlt =>
      have hread := Text.readNumeral_eq_some_iff.2 ⟨hnumeral, hlt, rfl⟩
      have hempty : token.isEmpty = false := by
        simp only [Text.isNumeral, Bool.and_eq_true, Bool.not_eq_true'] at hnumeral
        exact hnumeral.1
      simp only [hempty, hnumeral, hread, Bool.false_eq_true, if_false, if_true]
    | var hname =>
      have hidentifier := hproper _ hname
      have hempty : token.isEmpty = false :=
        List.isEmpty_eq_false_iff.2 (Text.ne_nil_of_isIdentifier hidentifier)
      have hid : r.variableId? (String.ofList token) = some _ :=
        InsertionMap.placeOf?_eq_some_iff.2 hname
      simp only [hempty, Text.isNumeral_eq_false hidentifier, hid, Bool.false_eq_true,
        if_false]

theorem readFields_eq_ok_iff (hnames : r.HasProperNames) {tokens : List (List Char)}
    {fields : List Field} :
    r.readFields tokens = .ok fields ↔
      List.Forall₂ (Field.StandsFor r.declarations.keys) tokens fields := by
  induction tokens generalizing fields with
  | nil => simp [readFields, eq_comm]
  | cons token rest ih =>
    rw [List.forall₂_cons_left_iff]
    simp only [← ih, ← readField_eq_ok_iff hnames]
    rw [readFields]
    cases r.readField token with
    | error fault => simp [bind, Except.bind]
    | ok field =>
      cases r.readFields rest with
      | error fault => simp [bind, Except.bind]
      | ok others => simp [bind, Except.bind, pure, Except.pure, eq_comm]

/-- A transition is read as the clause of what its tokens stand for. -/
theorem readTransition_eq_ok_iff (hnames : r.HasProperNames) {line : ℕ}
    {tokens : List (List Char)} {clause : Clause} :
    r.readTransition line tokens = .ok clause ↔
      clause.line = line ∧ tokens.length = Clause.fieldCount ∧
        List.Forall₂ (Field.StandsFor r.declarations.keys) tokens clause.fields := by
  rw [← readFields_eq_ok_iff hnames, readTransition]
  by_cases hlength : tokens.length = Clause.fieldCount
  · rw [if_neg (not_not_intro hlength)]
    cases hfields : r.readFields tokens with
    | error fault => simp [bind, Except.bind]
    | ok fields =>
      simp only [bind, Except.bind, hlength, Except.ok.injEq, true_and]
      cases hclause : Clause.ofFields? line fields with
      | none =>
        simp only [reduceCtorEq, false_iff]
        rintro ⟨hline, hsame⟩
        rw [Clause.ofFields?_eq_some_iff.2 ⟨hsame.symm, hline⟩] at hclause
        cases hclause
      | some found =>
        obtain ⟨rfl, rfl⟩ := Clause.ofFields?_eq_some_iff.1 hclause
        simp only [Except.ok.injEq]
        constructor
        · rintro rfl
          exact ⟨rfl, rfl⟩
        · rintro ⟨hline, hsame⟩
          have hboth := Clause.ofFields?_eq_some_iff.2 ⟨hsame.symm, hline⟩
          rw [hclause, Option.some.injEq] at hboth
          exact hboth
  · rw [if_pos hlength]
    simp [hlength]

theorem readItem_eq_ok_iff (hnames : r.HasProperNames) {item : List Char}
    {values : List State} :
    r.readItem item = .ok values ↔
      ItemStandsFor r.declarations.entries item values := by
  constructor
  · intro h
    rw [readItem] at h
    split at h
    · rename_i s hs
      cases h
      obtain ⟨hnumeral, hlt, rfl⟩ := Text.readNumeral_eq_some_iff.1 hs
      exact .state hnumeral hlt
    · split at h
      · rename_i found hfound
        cases h
        exact .var (InsertionMap.get?_eq_some_iff.1 hfound)
      · cases h
  · intro h
    rw [readItem]
    cases h with
    | state hnumeral hlt =>
      simp only [Text.readNumeral_eq_some_iff.2 ⟨hnumeral, hlt, rfl⟩]
    | var hmem =>
      have hname := hnames _ (List.mem_map.2 ⟨_, hmem, rfl⟩)
      rw [String.toList_ofList] at hname
      have hread : Text.readNumeral item = none := by
        rw [Text.readNumeral, Text.isNumeral_eq_false hname, Bool.false_and,
          if_neg Bool.false_ne_true]
      simp only [hread, InsertionMap.get?_eq_some_iff.2 hmem]

theorem readItems_eq_ok_iff (hnames : r.HasProperNames) {items : List (List Char)}
    {values : List State} :
    r.readItems items = .ok values ↔
      ∃ parts, List.Forall₂ (ItemStandsFor r.declarations.entries) items parts ∧
        values = parts.flatten := by
  induction items generalizing values with
  | nil => simp [readItems, eq_comm]
  | cons item rest ih =>
    simp only [readItems_cons_eq_ok_iff, ih, readItem_eq_ok_iff hnames,
      List.forall₂_cons_left_iff]
    constructor
    · rintro ⟨found, hfound, _, ⟨parts, hparts, rfl⟩, rfl⟩
      exact ⟨found :: parts, ⟨found, parts, hfound, hparts, rfl⟩, rfl⟩
    · rintro ⟨_, ⟨found, parts, hfound, hparts, rfl⟩, rfl⟩
      exact ⟨found, hfound, _, ⟨parts, hparts, rfl⟩, rfl⟩

theorem readValueSet_eq_ok_iff (hnames : r.HasProperNames) {label : String}
    {valueSet : List Char} {values : List State} :
    r.readValueSet label valueSet = .ok values ↔
      IsValueSet r.declarations.entries valueSet values := by
  rw [readValueSet, IsValueSet]
  cases hbraced : braced? valueSet with
  | none =>
    simp only [reduceCtorEq, false_iff]
    rintro ⟨inside, parts, hvalueSet, -⟩
    rw [braced?_eq_some_iff.2 hvalueSet] at hbraced
    cases hbraced
  | some inside =>
    have hinside : ∀ other, valueSet = '\x7b' :: (other ++ ['\x7d']) ↔ other = inside := by
      intro other
      rw [← braced?_eq_some_iff, hbraced, Option.some.injEq, eq_comm]
    simp only [hinside, exists_and_left, exists_eq_left]
    cases hitems : r.readItems (itemsOf inside) with
    | error fault =>
      simp only [bind, Except.bind, reduceCtorEq, false_iff]
      rintro ⟨parts, hparts, rfl, -⟩
      rw [(readItems_eq_ok_iff hnames).2 ⟨parts, hparts, rfl⟩] at hitems
      cases hitems
    | ok found =>
      have hfound : ∀ others, (∃ parts, List.Forall₂
          (ItemStandsFor r.declarations.entries) (itemsOf inside) parts ∧
            others = parts.flatten) ↔ others = found := by
        intro others
        rw [← readItems_eq_ok_iff hnames, hitems, Except.ok.injEq, eq_comm]
      simp only [← and_assoc, exists_and_right, hfound, bind, Except.bind]
      cases found with
      | nil => simp
      | cons s rest =>
        simp only [List.isEmpty_cons, Bool.false_eq_true, if_false, Except.ok.injEq]
        constructor
        · rintro rfl
          exact ⟨rfl, List.cons_ne_nil s rest⟩
        · rintro ⟨rfl, -⟩
          rfl

end Rule

end Cellular
