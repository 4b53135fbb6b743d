import Cellular.Proofs.Filling
import Cellular.Proofs.Reading

/-!
# Built tables respect the symmetry of their rule

A clause matches a configuration exactly if it matches the configuration with its
ring moved by the group of the symmetry, so the last clause that matches is the
same for both.  The two need not have the same next state, since the last readings
of this clause can differ; they do if the next state is told by the center.
-/

namespace Cellular

namespace Configuration

/-- The configuration with its ring moved. -/
def moved (motion : Equiv.Perm (Fin 8)) (c : Configuration) : Configuration where
  center := c.center
  ring := c.ring.reindex motion

variable {c d : Configuration}

theorem mem_states_moved_iff (motion : Equiv.Perm (Fin 8)) {s : State} :
    s ∈ (c.moved motion).states ↔ s ∈ c.states := by
  have hring := (Symmetry.perm_cells_reindex motion c.ring).mem_iff (a := s)
  simp only [states, moved, List.mem_cons, hring]

theorem fits_moved_iff (motion : Equiv.Perm (Fin 8)) {p : Packing} :
    p.Fits (c.moved motion) ↔ p.Fits c := by
  simp only [Packing.Fits, mem_states_moved_iff]

theorem moved_moved_inv (motion : Equiv.Perm (Fin 8)) (c : Configuration) :
    (c.moved motion).moved motion⁻¹ = c := by
  rw [moved, moved, Symmetry.reindex_mul, mul_inv_cancel, Symmetry.reindex_one]

/-- Configurations with one center and the same neighbours in some order. -/
theorem exists_eq_moved (hcenter : d.center = c.center)
    (hring : d.ring.cells.Perm c.ring.cells) :
    ∃ motion : Equiv.Perm (Fin 8), d = c.moved motion := by
  obtain ⟨motion, hmotion⟩ := Symmetry.exists_motion_of_perm hring
  refine ⟨motion, ?_⟩
  cases d
  cases hcenter
  cases hmotion
  rfl

end Configuration

namespace Clause

/-- The next state of the clause is a state, or the variable in its center. -/
def IsCentral (clause : Clause) : Prop :=
  (∃ s, clause.next = .state s) ∨
    ∃ id, clause.next = .var id ∧ clause.center = .var id

/-- Then the center tells the next state. -/
theorem under_next_eq {clause : Clause} (h : clause.IsCentral) {v w : ℕ → State}
    (hcenter : clause.center.under v = clause.center.under w) :
    clause.next.under v = clause.next.under w := by
  rcases h with ⟨s, hnext⟩ | ⟨id, hnext, hvar⟩
  · rw [hnext]
    rfl
  · rwa [hnext, ← hvar]

theorem configurationUnder_withRing_reindex (clause : Clause)
    (first second : Equiv.Perm (Fin 8)) (value : ℕ → State) :
    (clause.withRing (clause.ring.reindex ⇑(first * second))).configurationUnder value =
      ((clause.withRing (clause.ring.reindex first)).configurationUnder value).moved
        second := by
  simp only [configurationUnder, withRing, Configuration.moved, ← Symmetry.reindex_mul,
    Ring.map_reindex]

end Clause

namespace Rule

variable {rule : Rule} {settings : Settings} {initial : Table} {clause : Clause}
  {c : Configuration} {r s : Reading} {motion : Equiv.Perm (Fin 8)}

theorem Matches.moved (h : rule.Matches clause c) (hmotion : motion ∈ rule.symmetry.group) :
    rule.Matches clause (c.moved motion) := by
  obtain ⟨first, hfirst, value, hvalue, rfl⟩ := h
  exact ⟨first * motion, Subgroup.mul_mem _ hfirst hmotion, value, hvalue,
    clause.configurationUnder_withRing_reindex first motion value⟩

/-- A clause does not tell a configuration from those its symmetry makes of
it. -/
theorem matches_moved_iff (hmotion : motion ∈ rule.symmetry.group) :
    rule.Matches clause (c.moved motion) ↔ rule.Matches clause c := by
  constructor
  · intro h
    have hback := h.moved (Subgroup.inv_mem _ hmotion)
    rwa [Configuration.moved_moved_inv] at hback
  · intro h
    exact h.moved hmotion

theorem center_of_reads (h : rule.Reads clause c r) :
    clause.center.under (r.value rule) = c.center := by
  obtain ⟨-, expanded, hexpanded, rfl⟩ := h
  obtain ⟨motion, -, rfl⟩ := Clause.mem_expand_iff.1 (List.mem_of_getElem? hexpanded)
  rfl

theorem next?_initial_moved (hinitial : rule.initialTable settings = .ok initial)
    (hc : rule.packing.Fits c) : initial.next? (c.moved motion) = initial.next? c := by
  rw [next?_of_initialTable hinitial hc,
    next?_of_initialTable hinitial ((Configuration.fits_moved_iff motion).2 hc)]
  simp only [Configuration.mem_states_moved_iff]
  rfl

/-- A configuration and a moved one have the same next state, or one clause gives
the next states of both. -/
theorem next?_moved_cases (hvalid : rule.validate = .ok ())
    (hinitial : rule.initialTable settings = .ok initial)
    (hmotion : motion ∈ rule.symmetry.group) (hc : rule.packing.Fits c) :
    (initial.writeAll rule.allTransitions).next? (c.moved motion) =
        (initial.writeAll rule.allTransitions).next? c ∨
      ∃ clause ∈ rule.clauses, ∃ r s,
        rule.Reads clause (c.moved motion) r ∧ rule.Reads clause c s ∧
        (initial.writeAll rule.allTransitions).next? (c.moved motion) =
          some (clause.next.under (r.value rule)) ∧
        (initial.writeAll rule.allTransitions).next? c =
          some (clause.next.under (s.value rule)) := by
  have hpacking := packing_of_initialTable hinitial
  have hmoved : rule.packing.Fits (c.moved motion) :=
    (Configuration.fits_moved_iff motion).2 hc
  by_cases hmatch : ∃ clause ∈ rule.clauses, rule.Matches clause c
  · obtain ⟨before, clause, after, hclauses, hlast, hafter⟩ := exists_last_of_mem hmatch
    have hafterMoved : ∀ later ∈ after, ¬ rule.Matches later (c.moved motion) :=
      fun later hlater => mt (matches_moved_iff hmotion).1 (hafter later hlater)
    obtain ⟨r, hr⟩ := exists_isLastReading ((matches_moved_iff hmotion).2 hlast)
    obtain ⟨s, hs⟩ := exists_isLastReading hlast
    refine Or.inr ⟨clause, by simp [hclauses], r, s, hr.1, hs.1, ?_, ?_⟩
    · exact next?_writeAll_of_isLastReading hvalid hpacking hmoved hclauses hafterMoved hr
    · exact next?_writeAll_of_isLastReading hvalid hpacking hc hclauses hafter hs
  · have hnone : ∀ clause ∈ rule.clauses, ¬ rule.Matches clause c :=
      fun clause hclause h => hmatch ⟨clause, hclause, h⟩
    have hnoneMoved : ∀ clause ∈ rule.clauses, ¬ rule.Matches clause (c.moved motion) :=
      fun clause hclause => mt (matches_moved_iff hmotion).1 (hnone clause hclause)
    refine Or.inl ?_
    rw [next?_writeAll_of_not_matches hvalid hpacking hmoved hnoneMoved,
      next?_writeAll_of_not_matches hvalid hpacking hc hnone,
      next?_initial_moved hinitial hc]

/-- Clauses whose next state is told by the center give a configuration and a
moved one the same next state. -/
theorem next?_moved_of_isCentral (hvalid : rule.validate = .ok ())
    (hinitial : rule.initialTable settings = .ok initial)
    (hcentral : ∀ clause ∈ rule.clauses, clause.IsCentral)
    (hmotion : motion ∈ rule.symmetry.group) (hc : rule.packing.Fits c) :
    (initial.writeAll rule.allTransitions).next? (c.moved motion) =
      (initial.writeAll rule.allTransitions).next? c := by
  rcases next?_moved_cases hvalid hinitial hmotion hc with
    hsame | ⟨clause, hclause, r, s, hr, hs, hmoved, hplain⟩
  · exact hsame
  · have hcenter : clause.center.under (r.value rule) =
        clause.center.under (s.value rule) :=
      (center_of_reads hr).trans (center_of_reads hs).symm
    rw [hmoved, hplain, Clause.under_next_eq (hcentral clause hclause) hcenter]

/-- **A built table respects the symmetry of its rule.**  Whatever a table is
filled with, it maps a configuration whose states fit their slots exactly if it
maps those that the group of the symmetry makes of it, and to the same next state
if the center tells the next state of every clause.  So if the neighbours may be
permuted, the next state depends on the center and on how often each state occurs
around it. -/
theorem build_respects_symmetry (hvalid : rule.validate = .ok ())
    (hroom : settings.fill = .identity →
      rule.packing.configurationCount ≤ settings.fillLimit) :
    ∃ table, rule.build settings = .ok table ∧
      ∀ c : Configuration, (∀ s ∈ c.states, s < 2 ^ rule.packing.width) →
        (∀ motion ∈ rule.symmetry.group,
          (table.next? (c.moved motion)).isSome = (table.next? c).isSome) ∧
        ((∀ clause ∈ rule.clauses, clause.IsCentral) →
          (∀ motion ∈ rule.symmetry.group,
            table.next? (c.moved motion) = table.next? c) ∧
          (rule.symmetry = .permute → ∀ d : Configuration, d.center = c.center →
            d.ring.cells.Perm c.ring.cells → table.next? d = table.next? c)) := by
  obtain ⟨initial, hinitial⟩ := rule.exists_initialTable hroom
  refine ⟨_, build_eq_ok_iff.2 ⟨hvalid, initial, hinitial, rfl⟩, fun c hc =>
    ⟨fun motion hmotion => ?_, fun hcentral => ⟨fun motion hmotion => ?_,
      fun hpermute d hcenter hring => ?_⟩⟩⟩
  · rcases next?_moved_cases hvalid hinitial hmotion hc with
      hsame | ⟨clause, hclause, r, s, hr, hs, hmoved, hplain⟩
    · rw [hsame]
    · rw [hmoved, hplain]
      rfl
  · exact next?_moved_of_isCentral hvalid hinitial hcentral hmotion hc
  · obtain ⟨motion, rfl⟩ := Configuration.exists_eq_moved hcenter hring
    have hmotion : motion ∈ rule.symmetry.group := by
      rw [hpermute]
      exact Symmetry.mem_group_permute motion
    exact next?_moved_of_isCentral hvalid hinitial hcentral hmotion hc

/-- A rule that is filled in, in which the neighbours may be permuted and the
variable in the center is also among them. -/
def crowd : Rule where
  declarations := InsertionMap.empty.insert "a" [1, 0]
  clauses :=
    [⟨.var 0, ⟨[.var 0, .state 1, .state 1, .state 0, .state 0, .state 0, .state 0,
        .state 0], rfl⟩, .var 0, 3⟩,
     ⟨.state 1, ⟨[.state 1, .state 1, .state 0, .state 0, .state 0, .state 0, .state 0,
        .state 0], rfl⟩, .state 0, 4⟩]

/-- Three neighbours count the same wherever they are. -/
theorem crowd_respects_symmetry :
    ∃ table, crowd.build { fill := .identity } = .ok table ∧
      table.next? ⟨1, ⟨[0, 1, 0, 0, 1, 0, 0, 1], rfl⟩⟩ =
        table.next? ⟨1, ⟨[1, 1, 1, 0, 0, 0, 0, 0], rfl⟩⟩ ∧
      (table.next? (Configuration.moved (Symmetry.turn 3)
          ⟨1, ⟨[1, 1, 1, 0, 0, 0, 0, 0], rfl⟩⟩)).isSome =
        (table.next? ⟨1, ⟨[1, 1, 1, 0, 0, 0, 0, 0], rfl⟩⟩).isSome := by
  have hcentral : ∀ clause ∈ crowd.clauses, clause.IsCentral := by
    simp [crowd, Clause.IsCentral]
  obtain ⟨table, hbuild, hnext⟩ :=
    @build_respects_symmetry crowd { fill := .identity } rfl (fun _ => by decide)
  obtain ⟨hmapped, hsame⟩ := hnext ⟨1, ⟨[1, 1, 1, 0, 0, 0, 0, 0], rfl⟩⟩ (by decide)
  refine ⟨table, hbuild, ?_, hmapped _ (Symmetry.mem_group_permute _)⟩
  exact (hsame hcentral).2 rfl ⟨1, ⟨[0, 1, 0, 0, 1, 0, 0, 1], rfl⟩⟩ rfl (by decide)

/-- A rule whose clause gives the state of a neighbour. -/
def follower : Rule where
  symmetry := .rotate8
  declarations := (InsertionMap.empty.insert "a" [0, 1]).insert "b" [0, 1]
  clauses :=
    [⟨.state 0, ⟨[.var 0, .var 1, .state 0, .state 0, .state 0, .state 0, .state 0,
        .state 0], rfl⟩, .var 0, 4⟩]

-- One configuration is the other one moved by one place, but the last readings of
-- the clause give the variable different values.
example :
    (follower.build {}).map (fun table =>
      (table.next? ⟨0, ⟨[0, 1, 0, 0, 0, 0, 0, 0], rfl⟩⟩,
        table.next? ⟨0, ⟨[1, 0, 0, 0, 0, 0, 0, 0], rfl⟩⟩)) = .ok (some 1, some 0) := by
  decide +kernel

end Rule

end Cellular
