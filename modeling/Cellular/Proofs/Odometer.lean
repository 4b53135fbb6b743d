import Mathlib.Algebra.Group.Nat.Defs
import Mathlib.Data.List.Chain
import Mathlib.Data.List.Range
import Cellular.Proofs.Reading
import Cellular.Table.Odometer
import Cellular.Table.Template

/-!
# An odometer goes through all choices

Each step of a numeral leads to the next tuple of places in lexicographic order, and the
step from the last tuple wraps.  An odometer that is asked again and again therefore
gives the values at all tuples of places, each tuple once and in order, and then nothing
any more; and what it gives are the assignments that a template takes.
-/

namespace Cellular

/-! ## Asking again and again -/

section Draws

variable {σ α τ : Type} {next : σ → Option α × σ}

/-- The answer to the call with a number, counted from 0. -/
def draw (next : σ → Option α × σ) : ℕ → σ → Option α
  | 0, s => (next s).1
  | n + 1, s => draw next n (next s).2

/-- The items are given one at a time in their order, and after them nothing any
more. -/
def Draws (next : σ → Option α × σ) (s : σ) (items : List α) : Prop :=
  ∀ n, draw next n s = items[n]?

theorem draws_nil {s : σ} (h : next s = (none, s)) : Draws next s [] := by
  intro n
  induction n with
  | zero => rw [draw, h]; rfl
  | succ n ih => rwa [draw, h]

theorem Draws.cons {s t : σ} {a : α} {rest : List α} (h : next s = (some a, t))
    (hrest : Draws next t rest) : Draws next s (a :: rest) := by
  intro n
  cases n with
  | zero => rw [draw, h]; rfl
  | succ n => rw [draw, h, List.getElem?_cons_succ, hrest n]

/-- If the state of each item leads to the state of the item after it, and that of the
last item to one without any item, the items are given one after the other. -/
theorem draws_of_isChain (state : τ → σ) {out : τ → α} {first : τ} {rest : List τ}
    (hchain : (first :: rest).IsChain fun s t => next (state s) = (some (out s), state t))
    (hlast : ∀ last, (first :: rest).getLast? = some last →
      ∃ ended, next (state last) = (some (out last), ended) ∧ next ended = (none, ended)) :
    Draws next (state first) ((first :: rest).map out) := by
  induction rest generalizing first with
  | nil =>
    obtain ⟨ended, hnext, hended⟩ := hlast first rfl
    exact .cons hnext (draws_nil hended)
  | cons second rest ih =>
    rw [List.isChain_cons_cons] at hchain
    rw [List.getLast?_cons_cons] at hlast
    exact .cons hchain.1 (ih hchain.2 hlast)

end Draws

/-! ## Counting -/

namespace Counting

variable {sizes digits : List ℕ} {size digit : ℕ}

/-- The place after all others moves on when they wrap. -/
theorem carry_append (h : digits.length = sizes.length) :
    carry (sizes ++ [size]) (digits ++ [digit]) =
      if (carry sizes digits).2 then
        if digit + 1 < size then ((carry sizes digits).1 ++ [digit + 1], false)
        else ((carry sizes digits).1 ++ [0], true)
      else ((carry sizes digits).1 ++ [digit], false) := by
  induction sizes generalizing digits with
  | nil =>
    rw [List.length_nil, List.length_eq_zero_iff] at h
    subst h
    simp only [List.nil_append, carry, if_true]
  | cons other sizes ih =>
    obtain ⟨d, digits, rfl⟩ := List.exists_cons_of_length_eq_add_one h
    rw [List.length_cons, List.length_cons, Nat.add_right_cancel_iff] at h
    simp only [List.cons_append, carry, ih h]
    split
    · rfl
    · split
      · split <;> rfl
      · rfl

theorem step_cons (h : digits.length = sizes.length) :
    step (size :: sizes) (digit :: digits) =
      if (step sizes digits).2 then
        if digit + 1 < size then ((digit + 1) :: (step sizes digits).1, false)
        else (0 :: (step sizes digits).1, true)
      else (digit :: (step sizes digits).1, false) := by
  have hreverse : digits.reverse.length = sizes.reverse.length := by simpa using h
  rw [step, List.reverse_cons, List.reverse_cons, carry_append hreverse, step]
  dsimp only
  split
  · split <;> simp
  · simp

theorem length_of_mem_indexTuples (h : digits ∈ indexTuples sizes) :
    digits.length = sizes.length :=
  (mem_indexTuples_iff.1 h).length_eq

/-- Without an empty wheel, the first tuple has zeros only. -/
theorem head?_indexTuples (hpos : ∀ size ∈ sizes, 0 < size) :
    (indexTuples sizes).head? = some (List.replicate sizes.length 0) := by
  induction sizes with
  | nil => rfl
  | cons size sizes ih =>
    rw [List.forall_mem_cons] at hpos
    obtain ⟨n, rfl⟩ := Nat.exists_eq_add_one_of_ne_zero hpos.1.ne'
    rw [indexTuples, List.range_succ_eq_map, List.flatMap_cons, List.head?_append, List.head?_map,
      ih hpos.2]
    rfl

theorem indexTuples_cons_of_eq_nil (size : ℕ) (h : indexTuples sizes = []) :
    indexTuples (size :: sizes) = [] := by
  rw [indexTuples, List.flatMap_eq_nil_iff]
  intro i _
  rw [h, List.map_nil]

/-- An empty wheel leaves no tuple. -/
theorem indexTuples_eq_nil (h : 0 ∈ sizes) : indexTuples sizes = [] := by
  induction sizes with
  | nil => cases h
  | cons size sizes ih =>
    rcases List.mem_cons.1 h with rfl | h
    · rfl
    · exact indexTuples_cons_of_eq_nil size (ih h)

/-- The step from the last tuple wraps. -/
theorem step_of_getLast? (h : (indexTuples sizes).getLast? = some digits) :
    step sizes digits = (List.replicate sizes.length 0, true) := by
  induction sizes generalizing digits with
  | nil =>
    cases h
    rfl
  | cons size sizes ih =>
    cases hlast : (indexTuples sizes).getLast? with
    | none =>
      rw [List.getLast?_eq_none_iff] at hlast
      rw [indexTuples_cons_of_eq_nil size hlast] at h
      cases h
    | some last =>
      cases size with
      | zero => cases h
      | succ n =>
        rw [indexTuples, List.range_succ, List.flatMap_append, List.flatMap_singleton,
          List.getLast?_append, List.getLast?_map, hlast, Option.map_some, Option.some_or,
          Option.some.injEq] at h
        subst h
        have hlength := length_of_mem_indexTuples (List.mem_of_getLast? hlast)
        rw [step_cons hlength, ih hlast, if_pos rfl, if_neg (Nat.lt_irrefl _)]
        rfl

/-- Each step leads to the next tuple.  The tuples that begin with one number form a
block: a step stays in its block, and from the last tuple of a block it leads to the
first tuple of the next. -/
theorem isChain_indexTuples (sizes : List ℕ) :
    (indexTuples sizes).IsChain fun s t => step sizes s = (t, false) := by
  induction sizes with
  | nil => exact List.isChain_singleton _
  | cons size sizes ih =>
    by_cases hzero : 0 ∈ sizes
    · rw [indexTuples_eq_nil (List.mem_cons_of_mem _ hzero)]
      exact List.isChain_nil
    · have hpos : ∀ other ∈ sizes, 0 < other := fun other hother =>
        Nat.pos_of_ne_zero fun h => hzero (h ▸ hother)
      have hhead := head?_indexTuples hpos
      have hne : indexTuples sizes ≠ [] := by
        intro hnil
        rw [hnil] at hhead
        cases hhead
      rw [indexTuples, List.flatMap_def, List.isChain_flatten]
      · constructor
        · intro block hblock
          obtain ⟨i, -, rfl⟩ := List.mem_map.1 hblock
          rw [List.isChain_map]
          refine ih.imp_of_mem_imp fun s t hs _ hstep => ?_
          rw [step_cons (length_of_mem_indexTuples hs), hstep]
          rfl
        · rw [List.isChain_map, List.isChain_range]
          intro i hi s hs t ht
          rw [List.getLast?_map, Option.mem_def, Option.map_eq_some_iff] at hs
          obtain ⟨last, hlast, rfl⟩ := hs
          rw [List.head?_map, hhead, Option.map_some, Option.mem_def, Option.some.injEq] at ht
          subst ht
          have hlength := length_of_mem_indexTuples (List.mem_of_getLast? hlast)
          rw [step_cons hlength, step_of_getLast? hlast, if_pos rfl, if_pos (by omega)]
      · rw [List.mem_map]
        rintro ⟨i, -, hnil⟩
        exact hne (List.map_eq_nil_iff.1 hnil)

end Counting

/-! ## The choices of an odometer -/

namespace Odometer

open Counting (step_of_getLast? isChain_indexTuples head?_indexTuples indexTuples_eq_nil)

variable {domains : List (List State)}

/-- What an odometer with choices left gives, and where it goes. -/
theorem next_of_step {s t : List ℕ} {wrapped : Bool}
    (h : Counting.step (domains.map List.length) s = (t, wrapped)) :
    next ⟨domains, s, false⟩ = (some (valuesAt domains s), ⟨domains, t, wrapped⟩) := by
  rw [next, if_neg Bool.false_ne_true, advance, h]
  rfl

theorem exhausted_start_of_mem (h : [] ∈ domains) : (start domains).exhausted = true := by
  rw [start, List.any_eq_true]
  exact ⟨[], h, rfl⟩

theorem start_eq (h : [] ∉ domains) :
    start domains = ⟨domains, List.replicate (domains.map List.length).length 0, false⟩ := by
  have hexhausted : domains.any List.isEmpty = false := by
    rw [List.any_eq_false]
    intro domain hdomain hempty
    rw [List.isEmpty_iff] at hempty
    exact h (hempty ▸ hdomain)
  rw [start, hexhausted, List.length_map]

/-- The values at all tuples of places are given one after the other. -/
theorem draws_start (domains : List (List State)) :
    Draws next (start domains)
      ((indexTuples (domains.map List.length)).map (valuesAt domains)) := by
  by_cases hempty : [] ∈ domains
  · have hzero : 0 ∈ domains.map List.length := List.mem_map.2 ⟨[], hempty, rfl⟩
    rw [indexTuples_eq_nil hzero]
    apply draws_nil
    rw [next, if_pos (exhausted_start_of_mem hempty)]
  · have hpos : ∀ size ∈ domains.map List.length, 0 < size := by
      intro size hsize
      obtain ⟨domain, hdomain, rfl⟩ := List.mem_map.1 hsize
      exact List.length_pos_of_ne_nil fun hnil => hempty (hnil ▸ hdomain)
    obtain ⟨rest, htuples⟩ := List.head?_eq_some_iff.1 (head?_indexTuples hpos)
    rw [start_eq hempty, htuples]
    apply draws_of_isChain fun s => Odometer.mk domains s false
    · rw [← htuples]
      exact (isChain_indexTuples _).imp fun s t => next_of_step
    · intro last hlast
      rw [← htuples] at hlast
      exact ⟨_, next_of_step (step_of_getLast? hlast), rfl⟩

end Odometer

/-! ## Substitution -/

theorem Configuration.ofStates?_states (c : Configuration) : ofStates? c.states = some c := by
  rw [states, ofStates?, Ring.ofList?, dif_pos c.ring.length_cells]
  rfl

namespace Template

variable {ids : List ℕ} {id : ℕ} {value : ℕ → State} {field : Field}

/-- The search in an ascending list finds the place of a member. -/
theorem getElem?_findIdx (hids : ids.Pairwise (· < ·)) (hid : id ∈ ids) :
    ids[ids.findIdx fun other => id ≤ other]? = some id := by
  induction ids with
  | nil => cases hid
  | cons other ids ih =>
    rw [List.pairwise_cons] at hids
    rw [List.findIdx_cons]
    rcases List.mem_cons.1 hid with rfl | hid
    · simp
    · have hlt := hids.1 id hid
      simp [Nat.not_le_of_lt hlt, ih hids.2 hid]

theorem state?_ofField (hids : ids.Pairwise (· < ·)) (hfield : ∀ id, field = .var id → id ∈ ids) :
    (Slot.ofField ids field).state? (ids.map value) = some (field.under value) := by
  cases field with
  | state s => rfl
  | var id =>
    rw [Slot.ofField, Slot.state?, List.getElem?_map, getElem?_findIdx hids (hfield id rfl)]
    rfl

theorem mapM_state? (hids : ids.Pairwise (· < ·)) {fields : List Field}
    (hfields : ∀ id, .var id ∈ fields → id ∈ ids) :
    (fields.map (Slot.ofField ids)).mapM (Slot.state? (ids.map value)) =
      some (fields.map (Field.under value)) := by
  induction fields with
  | nil => rfl
  | cons field fields ih =>
    have hhead : ∀ id, field = .var id → id ∈ ids := fun id hid =>
      hfields id (hid ▸ List.mem_cons_self)
    rw [List.map_cons, List.mapM_cons, state?_ofField hids hhead,
      ih fun id hid => hfields id (List.mem_cons_of_mem _ hid)]
    rfl

/-- A template puts for every variable its value, wherever it occurs, and leaves the
states as they are. -/
theorem substitute?_ofClause (clause : Clause) (value : ℕ → State) :
    (ofClause clause).substitute? (clause.variableIds.map value) =
      some (clause.configurationUnder value, clause.next.under value) := by
  have hids := clause.pairwise_variableIds
  have hinputs : ∀ id, .var id ∈ clause.inputs → id ∈ clause.variableIds := fun id hid =>
    Clause.mem_variableIds_iff.2 (List.mem_append_left _ hid)
  have hnext : ∀ id, clause.next = .var id → id ∈ clause.variableIds := fun id hid =>
    Clause.mem_variableIds_iff.2 (hid ▸ List.mem_append_right _ (List.mem_singleton_self _))
  have hslots : (ofClause clause).center :: (ofClause clause).ring.cells =
      clause.inputs.map (Slot.ofField clause.variableIds) :=
    rfl
  have hslot : (ofClause clause).next = Slot.ofField clause.variableIds clause.next := rfl
  rw [substitute?, hslots, mapM_state? hids hinputs, hslot, state?_ofField hids hnext,
    ← Clause.states_configurationUnder]
  simp only [Option.bind_eq_bind, Option.bind_some, Configuration.ofStates?_states]
  rfl

/-- What is asked of the template of a clause: its variables are those of the clause in
ascending order, and under every choice of values for them it gives what the clause says
when each variable has its value wherever it occurs. -/
structure Resolves (template : Template) (clause : Clause) : Prop where
  ascending : template.vars.Pairwise (· < ·)
  mem_vars_iff : ∀ id, id ∈ template.vars ↔ Field.var id ∈ clause.fields
  substitute : ∀ values : List State, values.length = template.vars.length →
    ∃ value : ℕ → State, template.vars.map value = values ∧
      template.substitute? values =
        some (clause.configurationUnder value, clause.next.under value) ∧
      (clause.configuration values, clause.nextState values) =
        (clause.configurationUnder value, clause.next.under value)

theorem resolves_ofClause (clause : Clause) : (ofClause clause).Resolves clause where
  ascending := clause.pairwise_variableIds
  mem_vars_iff _ := Clause.mem_variableIds_iff
  substitute values hlength := by
    obtain ⟨value, rfl⟩ := exists_map_eq (clause.pairwise_variableIds.imp Nat.ne_of_lt) hlength
    exact ⟨value, rfl, substitute?_ofClause clause value,
      by rw [Clause.configuration_map, Clause.nextState_map]⟩

end Template

/-! ## Choices and assignments -/

/-- What is asked of a list of tuples of places in some domains: it lists the tuples that
name a value in each domain, in lexicographic order and each once, and there are as many
as the numbers of values multiply to. -/
structure ArePlaces (domains : List (List State)) (tuples : List (List ℕ)) : Prop where
  ascending : tuples.Pairwise (· < ·)
  mem_iff : ∀ places, places ∈ tuples ↔
    List.Forall₂ (fun place domain => place < domain.length) places domains
  getElem?_eq : ∀ places ∈ tuples,
    List.zipWith (fun domain place => domain[place]?) domains places =
      (valuesAt domains places).map some
  length_eq : tuples.length = assignmentCount domains

theorem zipWith_getElem? {domains : List (List State)} {places : List ℕ}
    (h : List.Forall₂ (fun place domain => place < domain.length) places domains) :
    List.zipWith (fun domain place => domain[place]?) domains places =
      (valuesAt domains places).map some := by
  induction h with
  | nil => rfl
  | @cons place domain places domains hlt _ ih =>
    rw [List.zipWith_cons_cons, ih, valuesAt, valuesAt, List.zipWith_cons_cons, List.map_cons,
      List.getElem?_eq_getElem hlt, List.getD_eq_getElem _ _ hlt]

theorem foldl_mul_eq (count : ℕ) (sizes : List ℕ) :
    sizes.foldl (· * ·) count = count * (indexTuples sizes).length := by
  induction sizes generalizing count with
  | nil => exact (Nat.mul_one count).symm
  | cons size sizes ih =>
    have hlength : (indexTuples (size :: sizes)).length =
        size * (indexTuples sizes).length := by
      simp only [indexTuples, List.length_flatMap, List.length_map, List.map_const',
        List.length_range, List.sum_replicate_nat]
    rw [List.foldl_cons, ih, hlength, Nat.mul_assoc]

theorem arePlaces_indexTuples (domains : List (List State)) :
    ArePlaces domains (indexTuples (domains.map List.length)) := by
  have hmem : ∀ places, places ∈ indexTuples (domains.map List.length) ↔
      List.Forall₂ (fun place domain => place < domain.length) places domains := by
    intro places
    rw [mem_indexTuples_iff, List.forall₂_map_right_iff]
  exact {
    ascending := pairwise_indexTuples _
    mem_iff := hmem
    getElem?_eq := fun places hplaces => zipWith_getElem? ((hmem places).1 hplaces)
    length_eq := by rw [assignmentCount, foldl_mul_eq, Nat.one_mul] }

/-- **An odometer goes through all choices, and a template takes them.**  An odometer
gives the values at all tuples of places in its domains, in lexicographic order with the
last place fastest and each tuple once, and then nothing any more; that is one empty
choice if there is no domain, and none if a domain is empty.  These are the assignments
from which tables are built, and the template of a clause puts them in for its
variables. -/
theorem choices_are_drawn_and_substituted (domains : List (List State)) (clause : Clause) :
    ArePlaces domains (indexTuples (domains.map List.length)) ∧
    Draws Odometer.next (Odometer.start domains)
      ((indexTuples (domains.map List.length)).map (valuesAt domains)) ∧
    (domains = [] → Draws Odometer.next (Odometer.start domains) [[]]) ∧
    ([] ∈ domains → Draws Odometer.next (Odometer.start domains) []) ∧
    assignments domains = (indexTuples (domains.map List.length)).map (valuesAt domains) ∧
    (Template.ofClause clause).Resolves clause := by
  have hdraws := Odometer.draws_start domains
  refine ⟨arePlaces_indexTuples domains, hdraws, ?_, fun hempty => ?_,
    assignments_eq_map_indexTuples domains, Template.resolves_ofClause clause⟩
  · rintro rfl
    exact hdraws
  · rwa [Counting.indexTuples_eq_nil (List.mem_map.2 ⟨[], hempty, rfl⟩)] at hdraws

/-- The last of two wheels is at its end, so the first moves on. -/
example : draw Odometer.next 3 (Odometer.start [[0, 1], [5, 6, 6]]) = some [1, 5] := by
  decide

end Cellular
