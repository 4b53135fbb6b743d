import Mathlib.Data.Set.Function
import Cellular.Proofs.Expansion
import Cellular.Proofs.Gaps
import Cellular.Proofs.Part
import Cellular.Proofs.Token

/-!
# Declarations in another form

The values of a variable are listed in some order, and some of them may be listed twice;
the variables themselves are declared in some order, by which clauses refer to them.  All
this decides in which order and how often a clause is written, but the table does not
depend on it.  Of the clauses that a clause stands for, the last one that describes a
configuration decides, and it can do so with one choice of values for its inputs only;
among these is the variable of the next state.  Which of them describe a configuration is
a matter of the sets of values alone.
-/

namespace Cellular

/-- Tables are equal if they map the configurations that fit their slots alike. -/
theorem Table.eq_of_next?_eq {t u : Table} (ht : t.IsWellFormed) (hu : u.IsWellFormed)
    (hname : t.name = u.name) (hpacking : t.packing = u.packing)
    (h : ∀ c, t.packing.Fits c → t.next? c = u.next? c) : t = u := by
  apply eq_of_lookup?_eq hname hpacking
  intro key
  apply Option.ext
  intro s
  constructor
  · intro hs
    obtain ⟨c, hc, rfl⟩ := ht.exists_configuration hs
    have hnext := h c (fits_of_mem_configurations hc)
    rw [next?, next?, hs, ← hpacking] at hnext
    exact hnext.symm
  · intro hs
    obtain ⟨c, hc, rfl⟩ := hu.exists_configuration hs
    have hfits := fits_of_mem_configurations hc
    rw [← hpacking] at hfits
    have hnext := h c hfits
    rw [next?, next?, hs, hpacking] at hnext
    exact hnext

variable {number : ℕ → ℕ} {value other : ℕ → State} {c : Configuration}

/-! ## Clauses with other numbers for their variables -/

namespace Field

/-- The field with its variable renumbered. -/
def renumbered (number : ℕ → ℕ) : Field → Field
  | state s => state s
  | var id => var (number id)

theorem under_renumbered (field : Field) :
    (field.renumbered number).under value = field.under (value ∘ number) := by
  cases field with
  | state s => rfl
  | var id => rfl

theorem injOn_renumbered {fields : List Field}
    (hnumber : Set.InjOn number {id | var id ∈ fields}) :
    Set.InjOn (renumbered number) {field | field ∈ fields} := by
  intro field hfield changed hchanged heq
  cases field with
  | state s =>
    cases changed with
    | state t => exact heq
    | var id => cases heq
  | var id =>
    cases changed with
    | state t => cases heq
    | var old => rw [hnumber hfield hchanged (Field.var.inj heq)]

end Field

namespace Clause

variable {clause : Clause}

/-- The clause with its variables renumbered. -/
def renumbered (number : ℕ → ℕ) (clause : Clause) : Clause where
  center := clause.center.renumbered number
  ring := clause.ring.map (Field.renumbered number)
  next := clause.next.renumbered number
  line := clause.line

theorem inputs_renumbered (clause : Clause) :
    (clause.renumbered number).inputs = clause.inputs.map (Field.renumbered number) :=
  rfl

theorem fields_renumbered (clause : Clause) :
    (clause.renumbered number).fields = clause.fields.map (Field.renumbered number) := by
  rw [fields, fields, List.map_append]
  rfl

theorem var_mem_fields_renumbered_iff {id : ℕ} :
    Field.var id ∈ (clause.renumbered number).fields ↔
      ∃ old, Field.var old ∈ clause.fields ∧ number old = id := by
  rw [fields_renumbered, List.mem_map]
  constructor
  · rintro ⟨field, hfield, heq⟩
    cases field with
    | state s => cases heq
    | var old =>
      cases heq
      exact ⟨old, hfield, rfl⟩
  · rintro ⟨old, hold, rfl⟩
    exact ⟨_, hold, rfl⟩

/-- Renumbered clauses stand for renumbered clauses, in the same order. -/
theorem expand_renumbered (hnumber : Set.InjOn number {id | Field.var id ∈ clause.fields})
    (symmetry : Symmetry) :
    (clause.renumbered number).expand symmetry =
      (clause.expand symmetry).map (renumbered number) := by
  have hcells : {field | field ∈ clause.ring.cells} ⊆ {field | field ∈ clause.fields} := by
    intro field hfield
    exact List.mem_append_left _ (List.mem_cons_of_mem _ hfield)
  have horbit := symmetry.orbit_map ((Field.injOn_renumbered hnumber).mono hcells)
  rw [expand, expand, renumbered, horbit, List.map_map, List.map_map]
  rfl

theorem configurationUnder_renumbered (clause : Clause) (value : ℕ → State) :
    (clause.renumbered number).configurationUnder value =
      clause.configurationUnder (value ∘ number) := by
  have hring : (clause.ring.map (Field.renumbered number)).map (Field.under value) =
      clause.ring.map (Field.under (value ∘ number)) := by
    apply Ring.ext_get
    intro place
    rw [Ring.get_map, Ring.get_map, Ring.get_map, Field.under_renumbered]
  simp only [configurationUnder, renumbered, Field.under_renumbered, hring]

/-- A clause does not see the values of other variables. -/
theorem configurationUnder_congr
    (h : ∀ id, Field.var id ∈ clause.fields → value id = other id) :
    clause.configurationUnder value = clause.configurationUnder other := by
  have hvalues : clause.variableIds.map value = clause.variableIds.map other :=
    List.map_congr_left fun id hid => h id (mem_variableIds_iff.1 hid)
  rw [← configuration_map, ← configuration_map, hvalues]

/-- A configuration leaves no choice for the values of inputs. -/
theorem under_eq_of_configurationUnder_eq
    (h : clause.configurationUnder value = clause.configurationUnder other) {field : Field}
    (hfield : field ∈ clause.inputs) : field.under value = field.under other := by
  have hstates := congrArg Configuration.states h
  rw [states_configurationUnder, states_configurationUnder, List.map_inj_left] at hstates
  exact hstates field hfield

theorem mem_inputs_of_mem_expand {expanded : Clause} {symmetry : Symmetry}
    (hexpanded : expanded ∈ clause.expand symmetry) {field : Field}
    (hfield : field ∈ clause.inputs) : field ∈ expanded.inputs := by
  obtain ⟨motion, -, rfl⟩ := mem_expand_iff.1 hexpanded
  rcases List.mem_cons.1 hfield with rfl | hcell
  · exact List.mem_cons_self
  · exact List.mem_cons_of_mem _
      ((Symmetry.perm_cells_reindex motion clause.ring).mem_iff.2 hcell)

theorem mem_fields_of_mem_expand_iff {expanded : Clause} {symmetry : Symmetry}
    (hexpanded : expanded ∈ clause.expand symmetry) {field : Field} :
    field ∈ expanded.fields ↔ field ∈ clause.fields := by
  obtain ⟨motion, -, rfl⟩ := mem_expand_iff.1 hexpanded
  exact mem_fields_withRing_iff motion

end Clause

namespace Rule

variable {rule changed : Rule} {settings : Settings} {clause : Clause} {r s : Reading}

/-! ## What decides the next state -/

/-- Some values of its variables turn the clause as it stands into the configuration. -/
def Describes (rule : Rule) (clause : Clause) (c : Configuration) : Prop :=
  ∃ value : ℕ → State, (∀ id, Field.var id ∈ clause.fields → value id ∈ rule.domain id) ∧
    clause.configurationUnder value = c

/-- A place among the expanded clauses has a reading if the clause there describes the
configuration. -/
theorem exists_reads_at_iff {place : ℕ} :
    (∃ r, rule.Reads clause c r ∧ r.place = place) ↔
      ∃ expanded, (clause.expand rule.symmetry)[place]? = some expanded ∧
        rule.Describes expanded c := by
  constructor
  · rintro ⟨r, hreads, rfl⟩
    obtain ⟨-, expanded, hexpanded, hc⟩ := id hreads
    refine ⟨expanded, hexpanded, r.value rule, fun id hid => ?_, hc⟩
    rw [Clause.mem_fields_of_mem_expand_iff (List.mem_of_getElem? hexpanded)] at hid
    exact value_mem_domain (hreads.1 id hid)
  · rintro ⟨expanded, hexpanded, value, hvalue, hc⟩
    have hfields : ∀ id, Field.var id ∈ expanded.fields ↔ Field.var id ∈ clause.fields :=
      fun id => Clause.mem_fields_of_mem_expand_iff (List.mem_of_getElem? hexpanded)
    let r : Reading := ⟨place, fun id => (rule.domain id).idxOf (value id)⟩
    have hchoice : ∀ id, Field.var id ∈ clause.fields →
        r.choice id < (rule.domain id).length :=
      fun id hid => List.idxOf_lt_length_of_mem (hvalue id ((hfields id).2 hid))
    refine ⟨r, ⟨hchoice, expanded, hexpanded, ?_⟩, rfl⟩
    rw [← hc]
    refine Clause.configurationUnder_congr fun id hid => ?_
    rw [Reading.value, List.getD_eq_getElem _ _ (hchoice id ((hfields id).1 hid)),
      List.getElem_idxOf]

/-- No expanded clause after the last reading describes the configuration. -/
theorem IsLastReading.place_le (hlast : rule.IsLastReading clause c r)
    (hs : rule.Reads clause c s) : s.place ≤ r.place :=
  Nat.le_of_not_lt fun hlt => hlast.2 s hs (Or.inl hlt)

/-- Which configurations a clause describes is a matter of the sets of values of its
variables, whatever their numbers. -/
theorem describes_renumbered_iff
    (hnumber : Set.InjOn number {id | Field.var id ∈ clause.fields})
    (hdomain : ∀ id, Field.var id ∈ clause.fields →
      ∀ s, s ∈ changed.domain (number id) ↔ s ∈ rule.domain id) :
    changed.Describes (clause.renumbered number) c ↔ rule.Describes clause c := by
  constructor
  · rintro ⟨value, hvalue, rfl⟩
    refine ⟨value ∘ number, fun id hid => ?_, (clause.configurationUnder_renumbered value).symm⟩
    exact (hdomain id hid _).1
      (hvalue _ (Clause.var_mem_fields_renumbered_iff.2 ⟨id, hid, rfl⟩))
  · rintro ⟨value, hvalue, rfl⟩
    -- The old number of a variable of the clause is told from its new one.
    let old := Function.invFunOn number {id | Field.var id ∈ clause.fields}
    have hold : ∀ id, Field.var id ∈ clause.fields → old (number id) = id :=
      fun id hid => hnumber.leftInvOn_invFunOn hid
    refine ⟨value ∘ old, fun id hid => ?_, ?_⟩
    · obtain ⟨before, hbefore, rfl⟩ := Clause.var_mem_fields_renumbered_iff.1 hid
      rw [Function.comp_apply, hold before hbefore, hdomain before hbefore]
      exact hvalue before hbefore
    · rw [Clause.configurationUnder_renumbered]
      refine Clause.configurationUnder_congr fun id hid => ?_
      rw [Function.comp_apply, Function.comp_apply, hold id hid]

section Renumbered

variable (hsymmetry : changed.symmetry = rule.symmetry)
  (hnumber : Set.InjOn number {id | Field.var id ∈ clause.fields})
  (hdomain : ∀ id, Field.var id ∈ clause.fields →
    ∀ s, s ∈ changed.domain (number id) ↔ s ∈ rule.domain id)
include hsymmetry hnumber hdomain

/-- A renumbered clause has readings at the same places. -/
theorem exists_reads_renumbered_iff {place : ℕ} :
    (∃ s, changed.Reads (clause.renumbered number) c s ∧ s.place = place) ↔
      ∃ r, rule.Reads clause c r ∧ r.place = place := by
  have hdescribes : ∀ expanded, (clause.expand rule.symmetry)[place]? = some expanded →
      (changed.Describes (expanded.renumbered number) c ↔ rule.Describes expanded c) := by
    intro expanded hexpanded
    have hfields : ∀ id, Field.var id ∈ expanded.fields ↔ Field.var id ∈ clause.fields :=
      fun id => Clause.mem_fields_of_mem_expand_iff (List.mem_of_getElem? hexpanded)
    apply describes_renumbered_iff
    · simpa only [hfields] using hnumber
    · simpa only [hfields] using hdomain
  rw [exists_reads_at_iff, exists_reads_at_iff, hsymmetry, Clause.expand_renumbered hnumber,
    List.getElem?_map]
  constructor
  · rintro ⟨_, hmapped, hc⟩
    obtain ⟨expanded, hexpanded, rfl⟩ := Option.map_eq_some_iff.1 hmapped
    exact ⟨expanded, hexpanded, (hdescribes expanded hexpanded).1 hc⟩
  · rintro ⟨expanded, hexpanded, hc⟩
    exact ⟨_, Option.map_eq_some_iff.2 ⟨expanded, hexpanded, rfl⟩,
      (hdescribes expanded hexpanded).2 hc⟩

theorem matches_renumbered_iff :
    changed.Matches (clause.renumbered number) c ↔ rule.Matches clause c := by
  rw [matches_iff, matches_iff]
  constructor
  · rintro ⟨s, hs⟩
    obtain ⟨r, hr, -⟩ := (exists_reads_renumbered_iff hsymmetry hnumber hdomain).1 ⟨s, hs, rfl⟩
    exact ⟨r, hr⟩
  · rintro ⟨r, hr⟩
    obtain ⟨s, hs, -⟩ := (exists_reads_renumbered_iff hsymmetry hnumber hdomain).2 ⟨r, hr, rfl⟩
    exact ⟨s, hs⟩

theorem place_eq_of_isLastReading (hr : rule.IsLastReading clause c r)
    (hs : changed.IsLastReading (clause.renumbered number) c s) : s.place = r.place := by
  obtain ⟨later, hlater, hplace⟩ :=
    (exists_reads_renumbered_iff hsymmetry hnumber hdomain).1 ⟨s, hs.1, rfl⟩
  obtain ⟨earlier, hearlier, hback⟩ :=
    (exists_reads_renumbered_iff hsymmetry hnumber hdomain).2 ⟨r, hr.1, rfl⟩
  apply le_antisymm
  · rw [← hplace]
    exact hr.place_le hlater
  · rw [← hback]
    exact hs.place_le hearlier

/-- The last readings of a clause and of the renumbered one give the same next state, as
both are readings of one expanded clause, whose inputs the configuration determines. -/
theorem under_next_eq_of_isLastReading
    (houtput : ∀ id, clause.next = .var id → .var id ∈ clause.inputs)
    (hr : rule.IsLastReading clause c r)
    (hs : changed.IsLastReading (clause.renumbered number) c s) :
    (clause.renumbered number).next.under (s.value changed) =
      clause.next.under (r.value rule) := by
  obtain ⟨-, expanded, hexpanded, hc⟩ := hr.1
  obtain ⟨-, other, hother, hd⟩ := hs.1
  rw [place_eq_of_isLastReading hsymmetry hnumber hdomain hr hs, hsymmetry,
    Clause.expand_renumbered hnumber, List.getElem?_map, hexpanded, Option.map_some] at hother
  cases hother
  rw [Clause.configurationUnder_renumbered] at hd
  rw [Clause.renumbered, Field.under_renumbered]
  cases hnext : clause.next with
  | state t => rfl
  | var id =>
    exact Clause.under_eq_of_configurationUnder_eq (hd.trans hc.symm)
      (Clause.mem_inputs_of_mem_expand (List.mem_of_getElem? hexpanded) (houtput id hnext))

end Renumbered

/-! ## Other declarations for the same variables -/

/-- The same variables are declared, in any order, and each with the same values, in any
order and any number of times. -/
structure SameValues (declarations changed : InsertionMap String (List State)) : Prop where
  keys : changed.keys.Perm declarations.keys
  mem_iff : ∀ {label values others}, declarations.get? label = some values →
    changed.get? label = some others → ∀ s, s ∈ others ↔ s ∈ values

/-- The entries tell whether the values are the same. -/
theorem sameValues_iff {declarations changed : InsertionMap String (List State)} :
    SameValues declarations changed ↔
      changed.keys.Perm declarations.keys ∧
        ∀ entry ∈ declarations.entries, ∀ other ∈ changed.entries, other.1 = entry.1 →
          (∀ s ∈ other.2, s ∈ entry.2) ∧ ∀ s ∈ entry.2, s ∈ other.2 := by
  constructor
  · rintro ⟨hkeys, hmem⟩
    refine ⟨hkeys, ?_⟩
    rintro ⟨label, values⟩ hentry ⟨_, others⟩ hother rfl
    have hvalues := hmem (InsertionMap.get?_eq_some_iff.2 hentry)
      (InsertionMap.get?_eq_some_iff.2 hother)
    exact ⟨fun s => (hvalues s).1, fun s => (hvalues s).2⟩
  · rintro ⟨hkeys, hentries⟩
    refine ⟨hkeys, fun hvalues hothers s => ?_⟩
    rw [InsertionMap.get?_eq_some_iff] at hvalues hothers
    obtain ⟨hfewer, hmore⟩ := hentries _ hvalues _ hothers rfl
    exact ⟨hfewer s, hmore s⟩

instance (declarations changed : InsertionMap String (List State)) :
    Decidable (SameValues declarations changed) :=
  decidable_of_iff _ sameValues_iff.symm

/-- The place of a variable of the rule among other declarations. -/
def newPlace (rule : Rule) (declarations : InsertionMap String (List State)) (id : ℕ) : ℕ :=
  match rule.variableAt? id with
  | some (label, _) => (declarations.placeOf? label).getD id
  | none => id

/-- The rule with other declarations, to whose places its clauses refer. -/
def redeclared (rule : Rule) (declarations : InsertionMap String (List State)) : Rule :=
  { rule with
    declarations
    clauses := rule.clauses.map (Clause.renumbered (rule.newPlace declarations)) }

theorem placeOf?_of_variableAt? {id : ℕ} {label : String} {values : List State}
    (hid : rule.variableAt? id = some (label, values)) :
    rule.declarations.placeOf? label = some id := by
  rw [InsertionMap.placeOf?_eq_some_iff, InsertionMap.keys, List.getElem?_map]
  exact congrArg (Option.map Prod.fst) hid

section Redeclared

variable {declarations : InsertionMap String (List State)}
  (hsame : SameValues rule.declarations declarations)
include hsame

/-- A variable keeps its name and the set of its values. -/
theorem exists_variableAt?_newPlace {id : ℕ} {label : String} {values : List State}
    (hid : rule.variableAt? id = some (label, values)) :
    declarations.placeOf? label = some (rule.newPlace declarations id) ∧
      ∃ others, (rule.redeclared declarations).variableAt? (rule.newPlace declarations id) =
          some (label, others) ∧ ∀ s, s ∈ others ↔ s ∈ values := by
  have hentry : (label, values) ∈ rule.declarations.entries := List.mem_of_getElem? hid
  have hlabel : label ∈ declarations.keys :=
    hsame.keys.mem_iff.2 (List.mem_map_of_mem hentry)
  obtain ⟨place, hplace⟩ := List.getElem?_of_mem hlabel
  have hnew : rule.newPlace declarations id = place := by
    simp only [newPlace, hid, InsertionMap.placeOf?_eq_some_iff.2 hplace, Option.getD_some]
  rw [hnew]
  refine ⟨InsertionMap.placeOf?_eq_some_iff.2 hplace, ?_⟩
  rw [InsertionMap.keys, List.getElem?_map, Option.map_eq_some_iff] at hplace
  obtain ⟨⟨_, others⟩, hother, rfl⟩ := hplace
  exact ⟨others, hother, hsame.mem_iff (InsertionMap.get?_eq_some_iff.2 hentry)
    (InsertionMap.get?_eq_some_iff.2 (List.mem_of_getElem? hother))⟩

theorem injOn_newPlace :
    Set.InjOn (rule.newPlace declarations) {id | (rule.variableAt? id).isSome} := by
  intro id hid other hother heq
  obtain ⟨⟨label, values⟩, hid⟩ := Option.isSome_iff_exists.1 hid
  obtain ⟨⟨otherLabel, others⟩, hother⟩ := Option.isSome_iff_exists.1 hother
  have hplace := (exists_variableAt?_newPlace hsame hid).1
  have hotherPlace := (exists_variableAt?_newPlace hsame hother).1
  rw [InsertionMap.placeOf?_eq_some_iff] at hplace hotherPlace
  rw [heq, hotherPlace] at hplace
  cases hplace
  exact Option.some.inj ((placeOf?_of_variableAt? hid).symm.trans (placeOf?_of_variableAt? hother))

theorem mem_domain_newPlace_iff {id : ℕ} (hid : (rule.variableAt? id).isSome) (s : State) :
    s ∈ (rule.redeclared declarations).domain (rule.newPlace declarations id) ↔
      s ∈ rule.domain id := by
  obtain ⟨⟨label, values⟩, hid⟩ := Option.isSome_iff_exists.1 hid
  obtain ⟨-, others, hother, hmem⟩ := exists_variableAt?_newPlace hsame hid
  rw [domain, domain, hid, hother]
  exact hmem s

theorem allowsField_renumbered {field : Field} (h : rule.AllowsField field) :
    (rule.redeclared declarations).AllowsField
      (field.renumbered (rule.newPlace declarations)) := by
  cases field with
  | state s => exact h
  | var id =>
    obtain ⟨⟨label, values⟩, hid, hvalues⟩ := h
    obtain ⟨-, others, hother, hmem⟩ := exists_variableAt?_newPlace hsame hid
    exact ⟨_, hother, fun s hs => hvalues s ((hmem s).1 hs)⟩

theorem allowsClause_renumbered (h : rule.AllowsClause clause) :
    (rule.redeclared declarations).AllowsClause
      (clause.renumbered (rule.newPlace declarations)) where
  fields := by
    intro field hfield
    rw [Clause.fields_renumbered, List.mem_map] at hfield
    obtain ⟨old, hold, rfl⟩ := hfield
    exact allowsField_renumbered hsame (h.fields old hold)
  output := by
    intro id hnext
    rw [Clause.inputs_renumbered, ← hnext]
    cases hold : clause.next with
    | state s =>
      rw [Clause.renumbered, hold] at hnext
      cases hnext
    | var old =>
      rw [Clause.renumbered, hold]
      exact List.mem_map_of_mem (h.output old hold)

theorem validate_redeclared (hvalid : rule.validate = .ok ()) :
    (rule.redeclared declarations).validate = .ok () := by
  rw [validate_eq_ok_iff_isWellFormed] at hvalid ⊢
  refine ⟨hvalid.stateCount, fun clause hclause => ?_⟩
  obtain ⟨old, hold, rfl⟩ := List.mem_map.1 hclause
  exact allowsClause_renumbered hsame (hvalid.clauses old hold)

section Clauses

variable (hvalid : rule.validate = .ok ()) (hclause : clause ∈ rule.clauses)
include hvalid hclause

omit hsame in
theorem isSome_variableAt? {id : ℕ} (hid : Field.var id ∈ clause.fields) :
    (rule.variableAt? id).isSome := by
  have hallows := (validate_eq_ok_iff_isWellFormed.1 hvalid).clauses clause hclause
  obtain ⟨entry, hentry, -⟩ := hallows.fields _ hid
  exact Option.isSome_iff_exists.2 ⟨entry, hentry⟩

theorem injOn_newPlace_fields :
    Set.InjOn (rule.newPlace declarations) {id | Field.var id ∈ clause.fields} :=
  (injOn_newPlace hsame).mono fun _ hid => isSome_variableAt? hvalid hclause hid

theorem mem_domain_fields_iff (id : ℕ) (hid : Field.var id ∈ clause.fields) (s : State) :
    s ∈ (rule.redeclared declarations).domain (rule.newPlace declarations id) ↔
      s ∈ rule.domain id :=
  mem_domain_newPlace_iff hsame (isSome_variableAt? hvalid hclause hid) s

theorem matches_redeclared_iff :
    (rule.redeclared declarations).Matches (clause.renumbered (rule.newPlace declarations)) c ↔
      rule.Matches clause c := by
  have hsymmetry : (rule.redeclared declarations).symmetry = rule.symmetry := rfl
  exact matches_renumbered_iff hsymmetry (injOn_newPlace_fields hsame hvalid hclause)
    (mem_domain_fields_iff hsame hvalid hclause)

theorem under_next_redeclared (hr : rule.IsLastReading clause c r)
    (hs : (rule.redeclared declarations).IsLastReading
      (clause.renumbered (rule.newPlace declarations)) c s) :
    (clause.renumbered (rule.newPlace declarations)).next.under
        (s.value (rule.redeclared declarations)) =
      clause.next.under (r.value rule) := by
  have hsymmetry : (rule.redeclared declarations).symmetry = rule.symmetry := rfl
  have hallows := (validate_eq_ok_iff_isWellFormed.1 hvalid).clauses clause hclause
  exact under_next_eq_of_isLastReading hsymmetry (injOn_newPlace_fields hsame hvalid hclause)
    (mem_domain_fields_iff hsame hvalid hclause) hallows.output hr hs

end Clauses

/-- The writes of the two rules lead from a table to the same next states. -/
theorem next?_writeAll_redeclared (hvalid : rule.validate = .ok ()) {table : Table}
    (hpacking : table.packing = rule.packing) (hc : rule.packing.Fits c) :
    (table.writeAll (rule.redeclared declarations).allTransitions).next? c =
      (table.writeAll rule.allTransitions).next? c := by
  have hnewValid := validate_redeclared hsame hvalid
  -- Clauses that do not match do not match when they are renumbered.
  have hskip : ∀ clauses ⊆ rule.clauses, (∀ clause ∈ clauses, ¬ rule.Matches clause c) →
      ∀ clause ∈ clauses.map (Clause.renumbered (rule.newPlace declarations)),
        ¬ (rule.redeclared declarations).Matches clause c := by
    intro clauses hclauses hnone clause hclause
    obtain ⟨old, hold, rfl⟩ := List.mem_map.1 hclause
    rw [matches_redeclared_iff hsame hvalid (hclauses hold)]
    exact hnone old hold
  by_cases hmatch : ∃ clause ∈ rule.clauses, rule.Matches clause c
  · obtain ⟨before, clause, after, hclauses, hlast, hafter⟩ := exists_last_of_mem hmatch
    have hclause : clause ∈ rule.clauses := by simp [hclauses]
    obtain ⟨r, hr⟩ := exists_isLastReading hlast
    obtain ⟨s, hs⟩ :=
      exists_isLastReading ((matches_redeclared_iff hsame hvalid hclause).2 hlast)
    have hnewClauses : (rule.redeclared declarations).clauses =
        before.map (Clause.renumbered (rule.newPlace declarations)) ++
          clause.renumbered (rule.newPlace declarations) ::
            after.map (Clause.renumbered (rule.newPlace declarations)) := by
      rw [redeclared, hclauses, List.map_append, List.map_cons]
    have hnewAfter := hskip after (by simp [hclauses]) hafter
    rw [next?_writeAll_of_isLastReading hnewValid hpacking hc hnewClauses hnewAfter hs,
      next?_writeAll_of_isLastReading hvalid hpacking hc hclauses hafter hr,
      under_next_redeclared hsame hvalid hclause hr hs]
  · have hnone : ∀ clause ∈ rule.clauses, ¬ rule.Matches clause c :=
      fun clause hclause h => hmatch ⟨clause, hclause, h⟩
    have hnewNone := hskip rule.clauses (List.Subset.refl _) hnone
    rw [next?_writeAll_of_not_matches hnewValid hpacking hc hnewNone,
      next?_writeAll_of_not_matches hvalid hpacking hc hnone]

theorem writeAll_redeclared (hvalid : rule.validate = .ok ()) {table : Table}
    (hpacking : table.packing = rule.packing) (htable : table.IsWellFormed) :
    table.writeAll (rule.redeclared declarations).allTransitions =
      table.writeAll rule.allTransitions := by
  have hnewValid := validate_redeclared hsame hvalid
  apply Table.eq_of_next?_eq
  · exact isWellFormed_writeAll_transitions hnewValid hpacking htable fun _ h => h
  · exact isWellFormed_writeAll_transitions hvalid hpacking htable fun _ h => h
  · rw [Table.name_writeAll, Table.name_writeAll]
  · rw [Table.packing_writeAll, Table.packing_writeAll]
  · intro c hc
    rw [Table.packing_writeAll, hpacking] at hc
    exact next?_writeAll_redeclared hsame hvalid hpacking hc

end Redeclared

/-- **The form of the declarations does not matter.**  A rule that passes the check passes
it with its variables declared in any order and their values listed in any order and any
number of times, and whatever its symmetry and the settings, it is built into the same
table, with the same entries and the same fingerprint.  This needs no assumption on the
next states: they are states, or among the inputs, which the configuration determines. -/
theorem build_redeclared {declarations : InsertionMap String (List State)}
    (hvalid : rule.validate = .ok ()) (hsame : SameValues rule.declarations declarations) :
    (rule.redeclared declarations).validate = .ok () ∧
      (rule.redeclared declarations).build settings = rule.build settings := by
  have hnewValid := validate_redeclared hsame hvalid
  have hinitial :
      (rule.redeclared declarations).initialTable settings = rule.initialTable settings := rfl
  refine ⟨hnewValid, ?_⟩
  rw [build_eq, build_eq, validate_eq_ok_iff.1 hnewValid, validate_eq_ok_iff.1 hvalid, hinitial]
  cases htable : rule.initialTable settings with
  | error e => rfl
  | ok table =>
    exact congrArg Except.ok (writeAll_redeclared hsame hvalid (packing_of_initialTable htable)
      (isWellFormed_of_initialTable htable))

/-- A rule whose clause gives the state of a neighbour. -/
def estuary : Rule where
  stateCount := 3
  symmetry := .rotate4
  declarations := (InsertionMap.empty.insert "a" [0, 1]).insert "b" [2, 0]
  clauses :=
    [⟨.var 1, ⟨[.var 0, .var 1, .state 2, .var 0, .state 1, .state 0, .state 0,
        .state 0], rfl⟩, .var 0, 5⟩]

/-- Its variables the other way round, with some of their values repeated. -/
def estuaryDeclarations : InsertionMap String (List State) :=
  (InsertionMap.empty.insert "b" [0, 2, 0]).insert "a" [1, 0, 1]

/-- The clause refers to the new places, and the tables are the same. -/
theorem estuary_redeclared :
    estuary.validate = .ok () ∧ SameValues estuary.declarations estuaryDeclarations ∧
      (estuary.redeclared estuaryDeclarations).clauses =
        [⟨.var 0, ⟨[.var 1, .var 0, .state 2, .var 1, .state 1, .state 0, .state 0,
          .state 0], rfl⟩, .var 1, 5⟩] ∧
      ∃ table, estuary.build { fill := .identity } = .ok table ∧
        (estuary.redeclared estuaryDeclarations).build { fill := .identity } = .ok table := by
  have hsame : SameValues estuary.declarations estuaryDeclarations := by decide
  obtain ⟨-, hbuild⟩ := @build_redeclared estuary { fill := .identity } _ rfl hsame
  obtain ⟨initial, hinitial⟩ :=
    @exists_initialTable { fill := .identity } estuary fun _ => by decide
  have hfirst := build_eq_ok_iff.2 ⟨rfl, initial, hinitial, rfl⟩
  exact ⟨rfl, hsame, rfl, _, hfirst, hbuild.trans hfirst⟩

end Rule

end Cellular
