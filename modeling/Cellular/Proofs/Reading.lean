import Cellular.Proofs.Assignment
import Cellular.Proofs.Validity
import Cellular.Proofs.Writes

/-!
# The reading of a rule

What a rule says about a configuration can be told without building a table.  A
clause matches a configuration when some motion of its ring and some values of
its variables turn it into the configuration.  A reading says how: by the place
of an expanded clause and by a choice of a place in the value list of every
variable.  Readings are ordered, first by the expanded clause and then
lexicographically by the choices; the built table follows the last reading of
the last clause that matches.
-/

namespace Cellular

namespace Field

/-- The value of a field when every variable has a value. -/
def under (value : ℕ → State) : Field → State
  | state s => s
  | var id => value id

end Field

namespace Clause

/-- The configuration that a clause describes when every variable has a
value. -/
def configurationUnder (clause : Clause) (value : ℕ → State) : Configuration where
  center := clause.center.under value
  ring := clause.ring.map (Field.under value)

end Clause

/-- A way to read a clause: the place of an expanded clause, and for every
variable a place in its value list. -/
structure Reading where
  place : ℕ
  choice : ℕ → ℕ

namespace Reading

/-- The values that a reading chooses. -/
def value (rule : Rule) (r : Reading) (id : ℕ) : State :=
  (rule.domain id).getD (r.choice id) 0

/-- The order of readings of a clause: by the expanded clause, and then by the
choice for the first variable, by declaration, for which the choices differ. -/
def Before (clause : Clause) (r s : Reading) : Prop :=
  r.place < s.place ∨
    r.place = s.place ∧ ∃ id, Field.var id ∈ clause.fields ∧
      r.choice id < s.choice id ∧
      ∀ other < id, Field.var other ∈ clause.fields →
        r.choice other = s.choice other

end Reading

namespace Rule

/-- Some motion of the ring and some values of the variables turn the clause
into the configuration. -/
def Matches (rule : Rule) (clause : Clause) (c : Configuration) : Prop :=
  ∃ motion ∈ rule.symmetry.group, ∃ value : ℕ → State,
    (∀ id, Field.var id ∈ clause.fields → value id ∈ rule.domain id) ∧
    (clause.withRing (clause.ring.reindex motion)).configurationUnder value = c

/-- The reading turns the clause into the configuration. -/
def Reads (rule : Rule) (clause : Clause) (c : Configuration) (r : Reading) :
    Prop :=
  (∀ id, Field.var id ∈ clause.fields →
    r.choice id < (rule.domain id).length) ∧
  ∃ expanded, (clause.expand rule.symmetry)[r.place]? = some expanded ∧
    expanded.configurationUnder (r.value rule) = c

/-- No later reading turns the clause into the configuration. -/
def IsLastReading (rule : Rule) (clause : Clause) (c : Configuration)
    (r : Reading) : Prop :=
  rule.Reads clause c r ∧ ∀ s, rule.Reads clause c s → ¬ r.Before clause s

end Rule

namespace Clause

theorem states_configurationUnder (clause : Clause) (value : ℕ → State) :
    (clause.configurationUnder value).states =
      clause.inputs.map (Field.under value) :=
  rfl

/-- Substituting listed values is the same as substituting the values
themselves. -/
theorem fieldValue_map {ids : List ℕ} (value : ℕ → State) {field : Field}
    (hfield : ∀ id, field = .var id → id ∈ ids) :
    fieldValue ids (ids.map value) field = field.under value := by
  cases field with
  | state s => rfl
  | var id => rw [fieldValue, lookup_zip_map (hfield id rfl)]; rfl

private theorem mem_variableIds_of_mem {clause : Clause} {field : Field}
    (hfield : field ∈ clause.fields) (id : ℕ) (hid : field = .var id) :
    id ∈ clause.variableIds :=
  mem_variableIds_iff.2 (hid ▸ hfield)

theorem configuration_map (clause : Clause) (value : ℕ → State) :
    clause.configuration (clause.variableIds.map value) =
      clause.configurationUnder value := by
  have hcenter : clause.center ∈ clause.fields := by simp [fields, inputs]
  have hcells : ∀ field ∈ clause.ring.cells, field ∈ clause.fields := by
    intro field hfield
    simp [fields, inputs, hfield]
  have hring : clause.ring.map (fieldValue clause.variableIds
      (clause.variableIds.map value)) = clause.ring.map (Field.under value) := by
    apply Ring.ext_get
    intro place
    have hget : clause.ring.get place ∈ clause.ring.cells := List.getElem_mem _
    rw [Ring.get_map, Ring.get_map,
      fieldValue_map value (mem_variableIds_of_mem (hcells _ hget))]
  rw [configuration, configurationUnder, hring,
    fieldValue_map value (mem_variableIds_of_mem hcenter)]

theorem nextState_map (clause : Clause) (value : ℕ → State) :
    clause.nextState (clause.variableIds.map value) = clause.next.under value := by
  have hnext : clause.next ∈ clause.fields := by simp [fields]
  rw [nextState, fieldValue_map value (mem_variableIds_of_mem hnext)]

end Clause

/-! ## Readings in the order of the writes -/

namespace Rule

/-- The numbers of values of the variables of a clause. -/
def bounds (rule : Rule) (clause : Clause) : List ℕ :=
  (rule.domains clause).map List.length

/-- The readings of a clause, by the choices for its variables alone, in the
order in which their transitions are written. -/
def entries (rule : Rule) (clause : Clause) : List (ℕ × List ℕ) :=
  (List.range (clause.expand rule.symmetry).length).flatMap fun place =>
    (indexTuples (rule.bounds clause)).map fun tuple => (place, tuple)

/-- The transition that is written for an entry. -/
def transitionAt (rule : Rule) (clause : Clause) (entry : ℕ × List ℕ) :
    Configuration × State :=
  let expanded := (clause.expand rule.symmetry).getD entry.1 clause
  let values := valuesAt (rule.domains clause) entry.2
  (expanded.configuration values, expanded.nextState values)

variable {rule : Rule} {clause : Clause} {c : Configuration} {r s : Reading}

theorem transitions_eq_map_entries (rule : Rule) (clause : Clause) :
    rule.transitions clause =
      (rule.entries clause).map (rule.transitionAt clause) := by
  have hexpand : (List.range (clause.expand rule.symmetry).length).map
      ((clause.expand rule.symmetry).getD · clause) =
        clause.expand rule.symmetry := by
    apply List.ext_getElem
    · simp
    · intro n hn hn'
      simp [hn']
  rw [transitions, entries, List.map_flatMap]
  conv_lhs => rw [← hexpand, List.flatMap_map]
  congr 1
  funext place
  rw [assignments_eq_map_indexTuples, List.map_map, List.map_map]
  rfl

theorem pairwise_entries (rule : Rule) (clause : Clause) :
    (rule.entries clause).Pairwise (Prod.Lex (· < ·) (· < ·)) := by
  rw [entries, List.pairwise_flatMap]
  constructor
  · intro place _
    rw [List.pairwise_map]
    exact (pairwise_indexTuples _).imp fun h => Prod.Lex.right place h
  · apply List.pairwise_lt_range.imp
    intro i j hij x hx y hy
    obtain ⟨_, _, rfl⟩ := List.mem_map.1 hx
    obtain ⟨_, _, rfl⟩ := List.mem_map.1 hy
    exact Prod.Lex.left _ _ hij

end Rule

namespace Reading

variable {rule : Rule} {clause : Clause} {r s : Reading}

/-- The entry of a reading. -/
def entry (clause : Clause) (r : Reading) : ℕ × List ℕ :=
  (r.place, clause.variableIds.map r.choice)

theorem before_iff :
    r.Before clause s ↔
      Prod.Lex (· < ·) (· < ·) (r.entry clause) (s.entry clause) := by
  rw [Prod.lex_def, entry, entry, Before,
    map_lt_map_iff clause.pairwise_variableIds]
  simp only [Clause.mem_variableIds_iff]
  constructor
  · rintro (hlt | ⟨heq, id, hid, hlt, hbelow⟩)
    · exact Or.inl hlt
    · exact Or.inr ⟨heq, id, hid, hlt, fun other hother hless =>
        hbelow other hless hother⟩
  · rintro (hlt | ⟨heq, id, hid, hlt, hbelow⟩)
    · exact Or.inl hlt
    · exact Or.inr ⟨heq, id, hid, hlt, fun other hless hother =>
        hbelow other hother hless⟩

theorem map_choice_mem_indexTuples_iff :
    clause.variableIds.map r.choice ∈ indexTuples (rule.bounds clause) ↔
      ∀ id, Field.var id ∈ clause.fields →
        r.choice id < (rule.domain id).length := by
  rw [mem_indexTuples_iff, Rule.bounds, Rule.domains, List.map_map,
    List.forall₂_map_left_iff, List.forall₂_map_right_iff, List.forall₂_same]
  simp only [Clause.mem_variableIds_iff, Function.comp_apply]

theorem exists_entry_eq {entry : ℕ × List ℕ} (h : entry ∈ rule.entries clause) :
    ∃ r : Reading, r.entry clause = entry := by
  obtain ⟨place, _, htuple⟩ := List.mem_flatMap.1 h
  obtain ⟨tuple, hmem, rfl⟩ := List.mem_map.1 htuple
  have hlength : tuple.length = clause.variableIds.length := by
    rw [(mem_indexTuples_iff.1 hmem).length_eq, Rule.bounds, Rule.domains,
      List.length_map, List.length_map]
  have hnodup : clause.variableIds.Nodup :=
    clause.pairwise_variableIds.imp ne_of_lt
  obtain ⟨choice, hchoice⟩ := exists_map_eq hnodup hlength
  exact ⟨⟨place, choice⟩, by rw [entry, hchoice]⟩

theorem valuesAt_map_choice (rule : Rule) (clause : Clause) (r : Reading) :
    valuesAt (rule.domains clause) (clause.variableIds.map r.choice) =
      clause.variableIds.map (r.value rule) := by
  rw [valuesAt, Rule.domains, List.zipWith_map, List.zipWith_self]
  rfl

end Reading

namespace Rule

variable {rule : Rule} {clause : Clause} {c : Configuration} {r s : Reading}

/-- An expanded clause describes the configuration that its fields have under
the chosen values. -/
theorem transitionAt_entry {expanded : Clause}
    (hexpanded : (clause.expand rule.symmetry)[r.place]? = some expanded) :
    rule.transitionAt clause (r.entry clause) =
      (expanded.configurationUnder (r.value rule),
        clause.next.under (r.value rule)) := by
  obtain ⟨motion, _, hmotion⟩ :=
    Clause.mem_expand_iff.1 (List.mem_of_getElem? hexpanded)
  have hids : expanded.variableIds = clause.variableIds := by
    rw [hmotion, Clause.variableIds_withRing]
  have hnext : expanded.next = clause.next := by
    rw [hmotion]
    rfl
  rw [transitionAt, Reading.entry, Reading.valuesAt_map_choice, List.getD,
    hexpanded, Option.getD_some, ← hids, Clause.configuration_map,
    Clause.nextState_map, hnext]

theorem reads_iff :
    rule.Reads clause c r ↔ r.entry clause ∈ rule.entries clause ∧
      (rule.transitionAt clause (r.entry clause)).1 = c := by
  have hmem : r.entry clause ∈ rule.entries clause ↔
      r.place < (clause.expand rule.symmetry).length ∧
        ∀ id, Field.var id ∈ clause.fields →
          r.choice id < (rule.domain id).length := by
    simp [entries, Reading.entry, ← Reading.map_choice_mem_indexTuples_iff]
  rw [hmem, Reads]
  constructor
  · rintro ⟨hchoice, expanded, hexpanded, hc⟩
    rw [transitionAt_entry hexpanded]
    obtain ⟨hplace, _⟩ := List.getElem?_eq_some_iff.1 hexpanded
    exact ⟨⟨hplace, hchoice⟩, hc⟩
  · rintro ⟨⟨hplace, hchoice⟩, hc⟩
    have hexpanded := List.getElem?_eq_getElem hplace
    rw [transitionAt_entry hexpanded] at hc
    exact ⟨hchoice, _, hexpanded, hc⟩

/-- The transitions of a clause are those of its readings. -/
theorem mem_transitions_iff {w : Configuration × State} :
    w ∈ rule.transitions clause ↔
      ∃ r, rule.Reads clause w.1 r ∧ w.2 = clause.next.under (r.value rule) := by
  rw [transitions_eq_map_entries, List.mem_map]
  constructor
  · rintro ⟨entry, hentry, rfl⟩
    obtain ⟨r, rfl⟩ := Reading.exists_entry_eq hentry
    have hreads : rule.Reads clause _ r := reads_iff.2 ⟨hentry, rfl⟩
    obtain ⟨_, expanded, hexpanded, _⟩ := id hreads
    exact ⟨r, hreads, by rw [transitionAt_entry hexpanded]⟩
  · rintro ⟨r, hreads, hnext⟩
    obtain ⟨_, expanded, hexpanded, hc⟩ := id hreads
    refine ⟨r.entry clause, (reads_iff.1 hreads).1, ?_⟩
    rw [transitionAt_entry hexpanded, hc, ← hnext]

/-- A clause matches what it has a reading for. -/
theorem matches_iff : rule.Matches clause c ↔ ∃ r, rule.Reads clause c r := by
  constructor
  · rintro ⟨motion, hmotion, value, hvalue, hc⟩
    obtain ⟨place, hplace⟩ := List.mem_iff_getElem?.1
      (Clause.mem_expand_iff.2 ⟨motion, hmotion, rfl⟩)
    let choice : ℕ → ℕ := fun id => (rule.domain id).idxOf (value id)
    have hchoice : ∀ id, Field.var id ∈ clause.fields →
        choice id < (rule.domain id).length :=
      fun id hid => List.idxOf_lt_length_of_mem (hvalue id hid)
    have hchosen : ∀ id ∈ clause.variableIds,
        Reading.value rule ⟨place, choice⟩ id = value id := by
      intro id hid
      have hid' := Clause.mem_variableIds_iff.1 hid
      rw [Reading.value, List.getD_eq_getElem _ _ (hchoice id hid'),
        List.getElem_idxOf]
    refine ⟨⟨place, choice⟩, hchoice, _, hplace, ?_⟩
    rw [← Clause.configuration_map, Clause.variableIds_withRing,
      List.map_congr_left hchosen, ← hc, ← Clause.configuration_map,
      Clause.variableIds_withRing]
  · rintro ⟨r, hchoice, expanded, hexpanded, hc⟩
    obtain ⟨motion, hmotion, rfl⟩ :=
      Clause.mem_expand_iff.1 (List.mem_of_getElem? hexpanded)
    refine ⟨motion, hmotion, r.value rule, fun id hid => ?_, hc⟩
    rw [Reading.value, List.getD_eq_getElem _ _ (hchoice id hid)]
    exact List.getElem_mem _

theorem exists_last_of_mem {α : Type} {P : α → Prop} {l : List α}
    (h : ∃ x ∈ l, P x) :
    ∃ before x after, l = before ++ x :: after ∧ P x ∧ ∀ y ∈ after, ¬ P y := by
  induction l with
  | nil => simp at h
  | cons a rest ih =>
    by_cases hrest : ∃ x ∈ rest, P x
    · obtain ⟨before, x, after, hsplit, hx⟩ := ih hrest
      exact ⟨a :: before, x, after, by rw [hsplit, List.cons_append], hx⟩
    · obtain ⟨x, hx, hP⟩ := h
      have hxa : x = a :=
        (List.mem_cons.1 hx).resolve_right fun hmem => hrest ⟨x, hmem, hP⟩
      exact ⟨[], a, rest, rfl, hxa ▸ hP, fun y hy hy' => hrest ⟨y, hy, hy'⟩⟩

/-- A clause that matches a configuration has a last reading for it. -/
theorem exists_isLastReading (h : rule.Matches clause c) :
    ∃ r, rule.IsLastReading clause c r := by
  obtain ⟨r₀, hr₀⟩ := matches_iff.1 h
  have hentry : ∃ entry ∈ rule.entries clause,
      (rule.transitionAt clause entry).1 = c :=
    ⟨_, (reads_iff.1 hr₀).1, (reads_iff.1 hr₀).2⟩
  obtain ⟨before, last, after, hsplit, hlast, hafter⟩ := exists_last_of_mem hentry
  have hmem : last ∈ rule.entries clause := by simp [hsplit]
  obtain ⟨r, rfl⟩ := Reading.exists_entry_eq hmem
  refine ⟨r, reads_iff.2 ⟨hmem, hlast⟩, fun s hs hbefore => ?_⟩
  have hpairwise := rule.pairwise_entries clause
  rw [hsplit, List.pairwise_append, List.pairwise_cons] at hpairwise
  rw [Reading.before_iff] at hbefore
  obtain ⟨hs, hc⟩ := reads_iff.1 hs
  rw [hsplit, List.mem_append, List.mem_cons] at hs
  rcases hs with hs | hs | hs
  · exact asymm hbefore (hpairwise.2.2 _ hs _ List.mem_cons_self)
  · exact irrefl _ (hs ▸ hbefore)
  · exact hafter _ hs hc

/-- What a clause writes for its last reading is not overwritten by the clause
itself. -/
theorem exists_transitions_eq (h : rule.IsLastReading clause c r) :
    ∃ before after,
      rule.transitions clause =
        before ++ (c, clause.next.under (r.value rule)) :: after ∧
      ∀ w ∈ after, w.1 ≠ c := by
  obtain ⟨hreads, hlast⟩ := h
  obtain ⟨_, expanded, hexpanded, hc⟩ := id hreads
  obtain ⟨before, after, hsplit⟩ := List.append_of_mem (reads_iff.1 hreads).1
  refine ⟨before.map (rule.transitionAt clause),
    after.map (rule.transitionAt clause), ?_, ?_⟩
  · rw [transitions_eq_map_entries, hsplit, List.map_append, List.map_cons,
      transitionAt_entry hexpanded, hc]
  · intro w hw hwc
    obtain ⟨entry, hentry, rfl⟩ := List.mem_map.1 hw
    have hmem : entry ∈ rule.entries clause := by simp [hsplit, hentry]
    obtain ⟨s, rfl⟩ := Reading.exists_entry_eq hmem
    have hpairwise := rule.pairwise_entries clause
    rw [hsplit, List.pairwise_append, List.pairwise_cons] at hpairwise
    have hbefore := Reading.before_iff.2 (hpairwise.2.1.1 _ hentry)
    exact hlast s (reads_iff.2 ⟨hmem, hwc⟩) hbefore

theorem value_mem_domain {id : ℕ} (hchoice : r.choice id < (rule.domain id).length) :
    r.value rule id ∈ rule.domain id := by
  rw [Reading.value, List.getD_eq_getElem _ _ hchoice]
  exact List.getElem_mem _

/-- Under a reading, a clause of a well-formed rule mentions states of the rule
only. -/
theorem under_lt_stateCount (hvalid : rule.validate = .ok ())
    (hclause : clause ∈ rule.clauses)
    (hchoice : ∀ id, Field.var id ∈ clause.fields →
      r.choice id < (rule.domain id).length)
    {field : Field} (hfield : field ∈ clause.fields) :
    field.under (r.value rule) < rule.stateCount := by
  cases field with
  | state s => exact state_lt_stateCount hvalid hclause hfield
  | var id =>
    exact domain_lt_stateCount hvalid hclause hfield (value_mem_domain (hchoice id hfield))

theorem reads_lt_stateCount (hvalid : rule.validate = .ok ())
    (hclause : clause ∈ rule.clauses) (hreads : rule.Reads clause c r) :
    ∀ s ∈ c.states, s < rule.stateCount := by
  obtain ⟨hchoice, expanded, hexpanded, rfl⟩ := hreads
  obtain ⟨motion, _, rfl⟩ :=
    Clause.mem_expand_iff.1 (List.mem_of_getElem? hexpanded)
  intro s hs
  rw [Clause.states_configurationUnder] at hs
  obtain ⟨field, hfield, rfl⟩ := List.mem_map.1 hs
  apply under_lt_stateCount hvalid hclause hchoice
  rw [← Clause.mem_fields_withRing_iff motion, Clause.fields]
  exact List.mem_append_left _ hfield

/-- All that a well-formed rule writes fits the slots of its table. -/
theorem fits_of_mem_transitions (hvalid : rule.validate = .ok ())
    (hclause : clause ∈ rule.clauses) :
    ∀ w ∈ rule.transitions clause, rule.packing.Fits w.1 := by
  intro w hw
  obtain ⟨r, hreads, _⟩ := mem_transitions_iff.1 hw
  exact Packing.fits_of_lt_stateCount (reads_lt_stateCount hvalid hclause hreads)

/-- Clauses that do not match a configuration do not write it. -/
theorem ne_of_not_matches (h : ¬ rule.Matches clause c) :
    ∀ w ∈ rule.transitions clause, w.1 ≠ c := by
  rintro w hw rfl
  obtain ⟨r, hreads, _⟩ := mem_transitions_iff.1 hw
  exact h (matches_iff.2 ⟨r, hreads⟩)

/-- After all writes of a well-formed rule, what no clause matches is as it was
before. -/
theorem next?_writeAll_of_not_matches (hvalid : rule.validate = .ok ())
    {table : Table} (hpacking : table.packing = rule.packing)
    (hc : rule.packing.Fits c)
    (h : ∀ clause ∈ rule.clauses, ¬ rule.Matches clause c) :
    (table.writeAll rule.allTransitions).next? c = table.next? c := by
  apply Table.next?_writeAll_of_forall_ne (hpacking ▸ hc)
  · intro w hw
    obtain ⟨clause, hclause, hw⟩ := List.mem_flatMap.1 hw
    exact hpacking ▸ fits_of_mem_transitions hvalid hclause w hw
  · intro w hw
    obtain ⟨clause, hclause, hw⟩ := List.mem_flatMap.1 hw
    exact ne_of_not_matches (h clause hclause) w hw

/-- After all writes of a well-formed rule, the last reading of the last clause
that matches decides. -/
theorem next?_writeAll_of_isLastReading (hvalid : rule.validate = .ok ())
    {table : Table} (hpacking : table.packing = rule.packing)
    (hc : rule.packing.Fits c) {before after : List Clause}
    (hclauses : rule.clauses = before ++ clause :: after)
    (hafter : ∀ later ∈ after, ¬ rule.Matches later c)
    (hlast : rule.IsLastReading clause c r) :
    (table.writeAll rule.allTransitions).next? c =
      some (clause.next.under (r.value rule)) := by
  obtain ⟨first, rest, hsplit, hrest⟩ := exists_transitions_eq hlast
  have hall : rule.allTransitions =
      (before.flatMap rule.transitions ++ first) ++
        (c, clause.next.under (r.value rule)) ::
          (rest ++ after.flatMap rule.transitions) := by
    simp only [allTransitions, hclauses, List.flatMap_append,
      List.flatMap_cons, hsplit, List.append_assoc, List.cons_append]
  rw [hall]
  apply Table.next?_writeAll_of_last (hpacking ▸ hc)
  · intro w hw
    have hmem : w ∈ rule.allTransitions := by
      rw [hall]
      exact List.mem_append_right _ (List.mem_cons_of_mem _ hw)
    obtain ⟨other, hother, hw⟩ := List.mem_flatMap.1 hmem
    exact hpacking ▸ fits_of_mem_transitions hvalid hother w hw
  · intro w hw
    rcases List.mem_append.1 hw with hw | hw
    · exact hrest w hw
    · obtain ⟨later, hlater, hw⟩ := List.mem_flatMap.1 hw
      exact ne_of_not_matches (hafter later hlater) w hw

/-- **The built table is the reading of the rule.**  Of a well-formed rule, a
table built without filling in maps a configuration exactly if some clause
matches it, and then to what the last matching clause says by its last
reading. -/
theorem build_unmapped_follows_last_reading {rule : Rule} {settings : Settings}
    (hvalid : rule.validate = .ok ()) (hfill : settings.fill = .unmapped) :
    ∃ table, rule.build settings = .ok table ∧
      ∀ c : Configuration, (∀ s ∈ c.states, s < rule.stateCount) →
        ((∀ clause ∈ rule.clauses, ¬ rule.Matches clause c) →
          table.next? c = none) ∧
        ∀ before clause after, rule.clauses = before ++ clause :: after →
          rule.Matches clause c → (∀ later ∈ after, ¬ rule.Matches later c) →
          (∃ r, rule.IsLastReading clause c r) ∧
          ∀ r, rule.IsLastReading clause c r →
            table.next? c = some (clause.next.under (r.value rule)) := by
  refine ⟨_, build_eq_of_unmapped hvalid hfill, fun c hc => ?_⟩
  have hfits : rule.packing.Fits c := Packing.fits_of_lt_stateCount hc
  constructor
  · intro h
    rw [next?_writeAll_of_not_matches hvalid rfl hfits h]
    exact Std.ExtTreeMap.getElem?_empty
  · intro before clause after hclauses hmatch hafter
    exact ⟨exists_isLastReading hmatch, fun r hlast =>
      next?_writeAll_of_isLastReading hvalid rfl hfits hclauses hafter hlast⟩

/-- A rule whose second clause covers all that its first one does. -/
def overlapping : Rule where
  symmetry := .rotate8
  declarations := InsertionMap.empty.insert "a" [1, 0]
  clauses :=
    [⟨.state 0, ⟨[.state 1, .state 0, .state 0, .state 0, .state 0, .state 0,
        .state 0, .state 0], rfl⟩, .state 1, 3⟩,
     ⟨.var 0, ⟨[.state 0, .state 1, .state 0, .state 0, .state 0, .state 0,
        .state 0, .state 0], rfl⟩, .var 0, 4⟩]

/-- Its second clause decides where both match. -/
theorem overlapping_follows_last_clause :
    overlapping.validate = .ok () ∧ Settings.fill {} = .unmapped ∧
      ∃ table, overlapping.build {} = .ok table ∧
        table.next? ⟨0, ⟨[0, 0, 0, 0, 0, 0, 1, 0], rfl⟩⟩ = some 0 := by
  obtain ⟨table, hbuild, hnext⟩ :=
    @build_unmapped_follows_last_reading overlapping {} rfl rfl
  refine ⟨rfl, rfl, table, hbuild, ?_⟩
  obtain ⟨⟨r, hr⟩, hlast⟩ :=
    (hnext ⟨0, ⟨[0, 0, 0, 0, 0, 0, 1, 0], rfl⟩⟩ (by decide)).2
      [overlapping.clauses[0]] overlapping.clauses[1] [] rfl
      ⟨Symmetry.turn 3, Symmetry.mem_group_rotate8_iff.2 ⟨3, rfl⟩, fun _ => 0,
        fun id hid => by
          have hzero : id = 0 := by simpa [overlapping, Clause.fields,
            Clause.inputs] using hid
          subst hzero
          decide, by decide⟩
      (by simp)
  rw [hlast r hr]
  obtain ⟨⟨_, expanded, hexpanded, hc⟩, _⟩ := hr
  obtain ⟨motion, _, rfl⟩ :=
    Clause.mem_expand_iff.1 (List.mem_of_getElem? hexpanded)
  exact congrArg (fun c : Configuration => some c.center) hc

end Rule

end Cellular
