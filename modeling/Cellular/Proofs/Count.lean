import Mathlib.Algebra.Group.Nat.Defs
import Mathlib.Data.List.Perm.Subperm
import Cellular.Proofs.BuildFaults
import Cellular.Proofs.Odometer
import Cellular.Table.Count

/-!
# When assignments can be counted

The number of assignments of a clause is multiplied domain by domain, and a word of 128
bits has room for it unless already the first domains have too many choices.  A rule
that passes the check may have such a clause: what it bounds are the values of a
variable and not how often they are listed.  A build with checked products ends at the
clause without a result, even if a later domain is empty and there is no assignment at
all.  Lists that are not too long, or that repeat no value, can always be counted.
-/

namespace Cellular

/-- Already the first of the domains, up to one of them, have more choices than a word
of 128 bits can count. -/
def ExceedWord (domains : List (List State)) : Prop :=
  ∃ n, 2 ^ 128 ≤ (assignments (domains.take n)).length

section Lengths

variable {domains : List (List State)} {bound : ℕ}

theorem length_assignments_cons (domain : List State) (domains : List (List State)) :
    (assignments (domain :: domains)).length =
      domain.length * (assignments domains).length := by
  rw [assignments, List.length_flatMap]
  simp only [List.length_map, List.map_const', List.sum_replicate_nat]

theorem length_assignments_append (first rest : List (List State)) :
    (assignments (first ++ rest)).length =
      (assignments first).length * (assignments rest).length := by
  induction first with
  | nil => exact (Nat.one_mul _).symm
  | cons domain first ih =>
    rw [List.cons_append, length_assignments_cons, length_assignments_cons, ih, Nat.mul_assoc]

theorem length_assignments_replicate (count : ℕ) (domain : List State) :
    (assignments (List.replicate count domain)).length = domain.length ^ count := by
  induction count with
  | zero => rfl
  | succ count ih => rw [List.replicate_succ, length_assignments_cons, ih, Nat.pow_succ']

theorem length_assignments_le (hdomains : ∀ domain ∈ domains, domain.length ≤ bound) :
    (assignments domains).length ≤ bound ^ domains.length := by
  induction domains with
  | nil => exact Nat.le_refl 1
  | cons domain domains ih =>
    rw [List.forall_mem_cons] at hdomains
    calc
      (assignments (domain :: domains)).length =
          domain.length * (assignments domains).length := length_assignments_cons domain domains
      _ ≤ bound * bound ^ domains.length := Nat.mul_le_mul hdomains.1 (ih hdomains.2)
      _ = bound ^ (domains.length + 1) := (Nat.pow_succ').symm

/-- Short domains have few choices, and so do the first ones among them. -/
theorem not_exceedWord_of_length_le {count : ℕ} (hpos : 0 < bound)
    (hpow : bound ^ count < 2 ^ 128) (hcount : domains.length ≤ count)
    (hdomains : ∀ domain ∈ domains, domain.length ≤ bound) : ¬ ExceedWord domains := by
  rintro ⟨n, hn⟩
  have htake : ∀ domain ∈ domains.take n, domain.length ≤ bound := fun domain hdomain =>
    hdomains domain (List.mem_of_mem_take hdomain)
  have hlength : (domains.take n).length ≤ count :=
    Nat.le_trans (List.length_take_le' n domains) hcount
  have hlt := calc
    (assignments (domains.take n)).length ≤ bound ^ (domains.take n).length :=
      length_assignments_le htake
    _ ≤ bound ^ count := Nat.pow_le_pow_right hpos hlength
    _ < 2 ^ 128 := hpow
  exact Nat.not_le_of_lt hlt hn

end Lengths

namespace Odometer

variable {domains : List (List State)} {total : ℕ}

/-! ## The product in a word -/

/-- The products stay in the word exactly if the numbers of choices of the first domains
do.  The induction is on the domains, and `start` is the product of those before. -/
theorem foldlM_multiply?_eq_some_iff {start : ℕ} (hstart : start < 2 ^ 128) :
    (domains.map List.length).foldlM multiply? start = some total ↔
      (∀ n, start * (assignments (domains.take n)).length < 2 ^ 128) ∧
        total = start * (assignments domains).length := by
  induction domains generalizing start with
  | nil =>
    have hone : start * (assignments []).length = start := Nat.mul_one start
    simp only [List.map_nil, List.foldlM_nil, List.take_nil, hone, hstart, implies_true,
      true_and, Option.pure_def, Option.some.injEq, eq_comm]
  | cons domain domains ih =>
    have hlimit : Nat.pow 2 128 = 2 ^ 128 := rfl
    rw [List.map_cons, List.foldlM_cons, multiply?, hlimit, length_assignments_cons,
      ← Nat.mul_assoc]
    by_cases hproduct : start * domain.length < 2 ^ 128
    · rw [if_pos hproduct, Option.bind_eq_bind, Option.bind_some, ih hproduct]
      have htake : (∀ n, start * (assignments ((domain :: domains).take n)).length < 2 ^ 128) ↔
          ∀ n, start * domain.length * (assignments (domains.take n)).length < 2 ^ 128 := by
        constructor
        · intro h n
          rw [Nat.mul_assoc, ← length_assignments_cons, ← List.take_succ_cons]
          exact h (n + 1)
        · intro h n
          cases n with
          | zero => exact (Nat.mul_one start).symm ▸ hstart
          | succ n =>
            rw [List.take_succ_cons, length_assignments_cons, ← Nat.mul_assoc]
            exact h n
      rw [htake]
    · rw [if_neg hproduct, Option.bind_eq_bind, Option.bind_none]
      have hfirst : (assignments ((domain :: domains).take 1)).length = domain.length := by
        rw [List.take_succ_cons, List.take_zero, length_assignments_cons]
        exact Nat.mul_one domain.length
      simp only [reduceCtorEq, false_iff, not_and]
      intro h
      exact absurd (hfirst ▸ h 1) hproduct

theorem total?_eq_some_iff : (start domains).total? = some total ↔
    ¬ ExceedWord domains ∧ total = (assignments domains).length := by
  have hword : (1 : ℕ) < 2 ^ 128 := by decide
  rw [total?, start, foldlM_multiply?_eq_some_iff hword, ExceedWord]
  simp only [Nat.one_mul, not_exists, Nat.not_le]

theorem total?_eq_none_iff : (start domains).total? = none ↔ ExceedWord domains := by
  rw [Option.eq_none_iff_forall_ne_some]
  constructor
  · intro h
    by_contra hfit
    exact h _ (total?_eq_some_iff.2 ⟨hfit, rfl⟩)
  · intro hexceed total htotal
    exact (total?_eq_some_iff.1 htotal).1 hexceed

private theorem foldl_mul_ofNat (start : ℕ) (domains : List (List State)) :
    (domains.map List.length).foldl (fun total size => total * BitVec.ofNat 128 size)
        (BitVec.ofNat 128 start) =
      BitVec.ofNat 128 (start * (assignments domains).length) := by
  induction domains generalizing start with
  | nil => exact congrArg (BitVec.ofNat 128) (Nat.mul_one start).symm
  | cons domain domains ih =>
    rw [List.map_cons, List.foldl_cons, ← BitVec.ofNat_mul, ih, length_assignments_cons,
      Nat.mul_assoc]

/-- Without the check, multiples of the word's size are lost. -/
theorem toNat_totalWord (domains : List (List State)) :
    (start domains).totalWord.toNat = (assignments domains).length % 2 ^ 128 := by
  rw [totalWord, start, foldl_mul_ofNat, Nat.one_mul, BitVec.toNat_ofNat]

end Odometer

namespace Rule

variable {rule : Rule} {clause : Clause} {settings : Settings}

/-! ## The variables of a clause -/

/-- An allowed clause has at most nine variables: its next state brings no other. -/
theorem length_variableIds_le (hclause : rule.AllowsClause clause) :
    clause.variableIds.length ≤ 9 := by
  have hinputs : ∀ id ∈ clause.variableIds, Field.var id ∈ clause.inputs := by
    intro id hid
    rw [Clause.mem_variableIds_iff, Clause.fields, List.mem_append, List.mem_singleton] at hid
    cases hid with
    | inl hinput => exact hinput
    | inr hnext => exact hclause.output id hnext.symm
  have hnodup : (clause.variableIds.map Field.var).Nodup := by
    rw [List.Nodup, List.pairwise_map]
    apply clause.pairwise_variableIds.imp
    intro id other hlt heq
    exact Nat.ne_of_lt hlt (Field.var.inj heq)
  have hsubset : clause.variableIds.map Field.var ⊆ clause.inputs := by
    intro field hfield
    obtain ⟨id, hid, rfl⟩ := List.mem_map.1 hfield
    exact hinputs id hid
  have hlength : clause.inputs.length = 9 := congrArg (· + 1) clause.ring.length_cells
  calc
    clause.variableIds.length = (clause.variableIds.map Field.var).length :=
      (List.length_map Field.var).symm
    _ ≤ clause.inputs.length := (List.subperm_of_subset hnodup hsubset).length_le
    _ = 9 := hlength

theorem length_domains_le (hclause : rule.AllowsClause clause) :
    (rule.domains clause).length ≤ 9 := by
  rw [domains, List.length_map]
  exact length_variableIds_le hclause

/-- Without repetitions a domain holds at most all states. -/
theorem length_domain_le (hvalid : rule.validate = .ok ()) (hclause : clause ∈ rule.clauses)
    {id : ℕ} (hid : id ∈ clause.variableIds) (hnodup : (rule.domain id).Nodup) :
    (rule.domain id).length ≤ 256 := by
  have hsubset : rule.domain id ⊆ List.range rule.stateCount := by
    intro s hs
    rw [List.mem_range]
    exact domain_lt_stateCount hvalid hclause (Clause.mem_variableIds_iff.1 hid) hs
  calc
    (rule.domain id).length ≤ (List.range rule.stateCount).length :=
      (List.subperm_of_subset hnodup hsubset).length_le
    _ = rule.stateCount := List.length_range
    _ ≤ 256 := (validate_eq_ok_iff_isWellFormed.1 hvalid).stateCount.2

/-! ## The counts of a clause -/

/-- What counting the assignments of a clause comes to. -/
structure IsCounted (rule : Rule) (clause : Clause) : Prop where
  /-- What is counted are the choices that the odometer gives. -/
  draws : Draws Odometer.next (rule.odometer clause) (assignments (rule.domains clause))
  /-- With checked products there is the right number, or none. -/
  total?_eq_some_iff : ∀ total, (rule.odometer clause).total? = some total ↔
    ¬ ExceedWord (rule.domains clause) ∧ total = (assignments (rule.domains clause)).length
  total?_eq_none_iff : (rule.odometer clause).total? = none ↔
    ExceedWord (rule.domains clause)
  /-- Without the check, the number is right up to multiples of the word's size. -/
  toNat_totalWord : (rule.odometer clause).totalWord.toNat =
    (assignments (rule.domains clause)).length % 2 ^ 128
  /-- No list of at most 19112 values, the ninth power of which is below `2 ^ 128`,
  makes the count too large. -/
  not_exceedWord : (∀ id ∈ clause.variableIds, (rule.domain id).length ≤ 19112) →
    ¬ ExceedWord (rule.domains clause)
  /-- Nor do lists that repeat no value. -/
  length_le_of_nodup : (∀ id ∈ clause.variableIds, (rule.domain id).Nodup) →
    ¬ ExceedWord (rule.domains clause) ∧
      (assignments (rule.domains clause)).length ≤ 2 ^ 72

theorem forall_mem_domains_iff {P : List State → Prop} :
    (∀ domain ∈ rule.domains clause, P domain) ↔
      ∀ id ∈ clause.variableIds, P (rule.domain id) :=
  List.forall_mem_map

theorem isCounted (hvalid : rule.validate = .ok ()) (hclause : clause ∈ rule.clauses) :
    rule.IsCounted clause where
  draws := by
    rw [assignments_eq_map_indexTuples]
    exact Odometer.draws_start (rule.domains clause)
  total?_eq_some_iff _ := Odometer.total?_eq_some_iff
  total?_eq_none_iff := Odometer.total?_eq_none_iff
  toNat_totalWord := Odometer.toNat_totalWord (rule.domains clause)
  not_exceedWord hlengths := by
    have hallowed := (validate_eq_ok_iff_isWellFormed.1 hvalid).clauses clause hclause
    exact not_exceedWord_of_length_le (by decide) (by decide) (length_domains_le hallowed)
      (forall_mem_domains_iff.2 hlengths)
  length_le_of_nodup hnodup := by
    have hallowed := (validate_eq_ok_iff_isWellFormed.1 hvalid).clauses clause hclause
    have hcount := length_domains_le hallowed
    have hlengths : ∀ domain ∈ rule.domains clause, domain.length ≤ 256 :=
      forall_mem_domains_iff.2 fun id hid =>
        length_domain_le hvalid hclause hid (hnodup id hid)
    constructor
    · exact not_exceedWord_of_length_le (by decide) (by decide) hcount hlengths
    · calc
        (assignments (rule.domains clause)).length ≤ 256 ^ (rule.domains clause).length :=
          length_assignments_le hlengths
        _ ≤ 256 ^ 9 := Nat.pow_le_pow_right (by decide) hcount
        _ = 2 ^ 72 := by decide

/-! ## Builds that count -/

/-- The numbers of assignments of some clauses. -/
def assignmentTotals (rule : Rule) (clauses : List Clause) : List ℕ :=
  clauses.map fun clause => (assignments (rule.domains clause)).length

/-- One clause whose assignments cannot be counted ends the writing. -/
theorem writeCounting?_eq_none {clauses : List Clause} (hclause : clause ∈ clauses)
    (hexceed : ExceedWord (rule.domains clause)) (table : Table) :
    rule.writeCounting? table clauses = none := by
  induction clauses generalizing table with
  | nil => cases hclause
  | cons first rest ih =>
    rw [writeCounting?]
    cases htotal : (rule.odometer first).total? with
    | none => rfl
    | some total =>
      have hrest : clause ∈ rest := by
        apply (List.mem_cons.1 hclause).resolve_left
        intro hfirst
        rw [hfirst] at hexceed
        exact (Odometer.total?_eq_some_iff.1 htotal).1 hexceed
      rw [Option.bind_eq_bind, Option.bind_some, ih hrest]
      rfl

/-- If all can be counted, they are written as they are without counting. -/
theorem writeCounting?_eq_some {clauses : List Clause}
    (hfit : ∀ clause ∈ clauses, ¬ ExceedWord (rule.domains clause)) (table : Table) :
    rule.writeCounting? table clauses =
      some (table.writeAll (clauses.flatMap rule.transitions),
        rule.assignmentTotals clauses) := by
  induction clauses generalizing table with
  | nil => rfl
  | cons first rest ih =>
    rw [List.forall_mem_cons] at hfit
    have htotal : (rule.odometer first).total? =
        some (assignments (rule.domains first)).length :=
      Odometer.total?_eq_some_iff.2 ⟨hfit.1, rfl⟩
    rw [writeCounting?, htotal, Option.bind_eq_bind, Option.bind_some, ih hfit.2,
      List.flatMap_cons, Table.writeAll_append]
    rfl

theorem buildCounting?_eq_some
    (hfit : ∀ clause ∈ rule.clauses, ¬ ExceedWord (rule.domains clause)) :
    rule.buildCounting? settings =
      some ((rule.build settings).map fun table =>
        (table, rule.assignmentTotals rule.clauses)) := by
  rw [buildCounting?, build_eq]
  cases rule.fault? with
  | some fault => rfl
  | none =>
    cases rule.initialTable settings with
    | error e => rfl
    | ok table =>
      simp only [writeCounting?_eq_some hfit]
      rfl

/-- The faults of a rule come first, and the table that a build starts from is made
before anything is counted. -/
theorem buildCounting?_eq_none_iff :
    rule.buildCounting? settings = none ↔
      (∃ clause ∈ rule.clauses, ExceedWord (rule.domains clause)) ∧
        ∃ table, rule.build settings = .ok table := by
  constructor
  · intro h
    constructor
    · by_contra hnone
      push Not at hnone
      rw [buildCounting?_eq_some hnone] at h
      cases h
    · rw [build_eq]
      rw [buildCounting?] at h
      cases hfault : rule.fault? with
      | some fault =>
        rw [hfault] at h
        cases h
      | none =>
        cases htable : rule.initialTable settings with
        | error e =>
          rw [hfault, htable] at h
          cases h
        | ok table => exact ⟨_, rfl⟩
  · rintro ⟨⟨clause, hclause, hexceed⟩, final, hbuild⟩
    obtain ⟨hvalid, table, htable, -⟩ := build_eq_ok_iff.1 hbuild
    rw [buildCounting?, validate_eq_ok_iff.1 hvalid, htable]
    simp only [writeCounting?_eq_none hclause hexceed, Option.map_none]

/-- **A build that counts ends where the word does.**  In a rule that passes the check,
the count of a clause is the number of choices that its odometer gives, unless already
its first variables have `2 ^ 128` choices or more.  Such a clause ends a build with
checked products, whatever the values of its later variables, and without the check the
count is wrong by multiples of the word's size.  It needs long value lists: with at most
19112 values each, or without repeated values, all assignments are counted.  If they
are, the build makes the table that it makes without counting. -/
theorem counting_build_ends_on_excess (hvalid : rule.validate = .ok ()) :
    (∀ clause ∈ rule.clauses, rule.IsCounted clause) ∧
    ∀ settings,
      (rule.buildCounting? settings = none ↔
        (∃ clause ∈ rule.clauses, ExceedWord (rule.domains clause)) ∧
          ∃ table, rule.build settings = .ok table) ∧
      ((∀ clause ∈ rule.clauses, ¬ ExceedWord (rule.domains clause)) →
        rule.buildCounting? settings =
          some ((rule.build settings).map fun table =>
            (table, rule.assignmentTotals rule.clauses))) :=
  ⟨fun _ => isCounted hvalid, fun _ => ⟨buildCounting?_eq_none_iff, buildCounting?_eq_some⟩⟩

/-! ## Lists that are too long -/

/-- Nine variables, the first eight of which have the value 0 so many times. -/
def crowdedDeclarations (size : ℕ) (last : List State) :
    InsertionMap String (List State) where
  entries := ["a", "b", "c", "d", "e", "f", "g", "h"].map
      (fun name => (name, List.replicate size 0)) ++ [("i", last)]
  nodup := by simp

/-- A clause with a variable of its own for each input. -/
def crowdedClause : Clause :=
  ⟨.var 0, ⟨[.var 1, .var 2, .var 3, .var 4, .var 5, .var 6, .var 7, .var 8], rfl⟩, .state 1, 7⟩

def crowded (size : ℕ) (last : List State) : Rule where
  symmetry := .none
  declarations := crowdedDeclarations size last
  clauses := [crowdedClause]

variable {size : ℕ} {last : List State}

theorem domains_crowded (size : ℕ) (last : List State) :
    (crowded size last).domains crowdedClause =
      List.replicate 8 (List.replicate size 0) ++ [last] :=
  rfl

theorem validate_crowded (hlast : ∀ s ∈ last, s < 2) :
    (crowded size last).validate = .ok () := by
  have hzero : ∀ s ∈ List.replicate size 0, s < 2 := by
    intro s hs
    rw [List.eq_of_mem_replicate hs]
    decide
  have hdomains : ∀ entry ∈ (crowdedDeclarations size last).entries, ∀ s ∈ entry.2, s < 2 := by
    intro entry hentry
    rw [crowdedDeclarations, List.mem_append, List.mem_map, List.mem_singleton] at hentry
    rcases hentry with ⟨name, -, rfl⟩ | rfl
    · exact hzero
    · exact hlast
  have hallowed : ∀ id < 9, (crowded size last).AllowsField (.var id) := by
    intro id hid
    have hplace : id < (crowdedDeclarations size last).entries.length := hid
    exact ⟨_, List.getElem?_eq_getElem hplace, hdomains _ (List.getElem_mem hplace)⟩
  have hfields : ∀ field ∈ crowdedClause.fields,
      (∃ id < 9, field = .var id) ∨ field = .state 1 := by
    decide +kernel
  have hclause : (crowded size last).AllowsClause crowdedClause := by
    constructor
    · intro field hfield
      rcases hfields field hfield with ⟨id, hid, rfl⟩ | rfl
      · exact hallowed id hid
      · exact Nat.one_lt_two
    · intro id hid
      cases hid
  rw [validate_eq_ok_iff_isWellFormed]
  exact ⟨⟨Nat.le_refl 2, (by decide : 2 ≤ 256)⟩, List.forall_mem_singleton.2 hclause⟩

theorem build_crowded (hlast : ∀ s ∈ last, s < 2) :
    ∃ table, (crowded size last).build {} = .ok table :=
  ⟨_, build_eq_of_unmapped (validate_crowded hlast) rfl⟩

/-- The number of choices of the first variables. -/
theorem length_assignments_crowded (size : ℕ) (last : List State) (n : ℕ) :
    (assignments (((crowded size last).domains crowdedClause).take n)).length =
      size ^ min n 8 * if n ≤ 8 then 1 else last.length := by
  rw [domains_crowded, List.take_append, List.take_replicate, List.length_replicate,
    length_assignments_append, length_assignments_replicate, List.length_replicate]
  split
  · rename_i hle
    rw [Nat.sub_eq_zero_of_le hle, List.take_zero]
    rfl
  · rename_i hgt
    have hone : [last].take (n - 8) = [last] := by
      apply List.take_of_length_le
      rw [List.length_singleton]
      omega
    rw [hone, length_assignments_cons]
    exact congrArg (size ^ min n 8 * ·) (Nat.mul_one last.length)

theorem exceedWord_crowded_iff (hpos : 0 < size) (hlast : last.length ≤ 1) :
    ExceedWord ((crowded size last).domains crowdedClause) ↔ 2 ^ 128 ≤ size ^ 8 := by
  constructor
  · rintro ⟨n, hn⟩
    rw [length_assignments_crowded] at hn
    have hfactor : (if n ≤ 8 then 1 else last.length) ≤ 1 := by
      split
      · exact Nat.le_refl 1
      · exact hlast
    calc
      2 ^ 128 ≤ size ^ min n 8 * if n ≤ 8 then 1 else last.length := hn
      _ ≤ size ^ min n 8 * 1 := Nat.mul_le_mul_left _ hfactor
      _ = size ^ min n 8 := Nat.mul_one _
      _ ≤ size ^ 8 := Nat.pow_le_pow_right hpos (Nat.min_le_right n 8)
  · intro hpow
    refine ⟨8, ?_⟩
    rw [length_assignments_crowded]
    exact hpow.trans_eq (Nat.mul_one _).symm

theorem length_assignments_domains_crowded (size : ℕ) (last : List State) :
    (assignments ((crowded size last).domains crowdedClause)).length = size ^ 8 * last.length := by
  have hcount := length_assignments_crowded size last 9
  rwa [List.take_of_length_le (Nat.le_refl 9)] at hcount

/-- In a build with checked products, eight lists of 65535 values and one of a single
value are counted, long as they are. -/
theorem crowded_below_limit_is_counted :
    (crowded 65535 [0]).validate = .ok () ∧
      ∃ table, (crowded 65535 [0]).buildCounting? {} = some (.ok (table, [65535 ^ 8])) := by
  have hlast : ∀ s ∈ [0], s < 2 := List.forall_mem_singleton.2 (by decide)
  have hvalid := @validate_crowded 65535 [0] hlast
  have hfit : ∀ clause ∈ (crowded 65535 [0]).clauses,
      ¬ ExceedWord ((crowded 65535 [0]).domains clause) := by
    intro clause hclause
    have hexceed := @exceedWord_crowded_iff 65535 [0] (by decide) (Nat.le_refl 1)
    rw [List.mem_singleton.1 hclause, hexceed]
    decide
  have htotals : (crowded 65535 [0]).assignmentTotals (crowded 65535 [0]).clauses =
      [65535 ^ 8] :=
    congrArg (fun total => [total]) (length_assignments_domains_crowded 65535 [0])
  obtain ⟨table, hbuild⟩ := @build_crowded 65535 [0] hlast
  obtain ⟨-, hcounting⟩ := counting_build_ends_on_excess hvalid
  refine ⟨hvalid, table, ?_⟩
  rw [(hcounting {}).2 hfit, hbuild, htotals]
  rfl

/-- With one more value in each list, the check still passes, but the word counts none of
the `2 ^ 128` assignments, and a build with checked products ends.  It ends also if the
ninth list is empty, so that there is no assignment and a table is built without the
count. -/
theorem crowded_cannot_be_counted :
    (crowded 65536 [0]).validate = .ok () ∧
      (assignments ((crowded 65536 [0]).domains crowdedClause)).length = 2 ^ 128 ∧
      ((crowded 65536 [0]).odometer crowdedClause).totalWord.toNat = 0 ∧
      (crowded 65536 [0]).buildCounting? {} = none ∧
      (crowded 65536 []).validate = .ok () ∧
      assignments ((crowded 65536 []).domains crowdedClause) = [] ∧
      (∃ table, (crowded 65536 []).build {} = .ok table) ∧
      (crowded 65536 []).buildCounting? {} = none := by
  have hlast : ∀ s ∈ [0], s < 2 := List.forall_mem_singleton.2 (by decide)
  have hnone : ∀ s ∈ ([] : List State), s < 2 := List.forall_mem_nil _
  have hpow : 2 ^ 128 ≤ 65536 ^ 8 := by decide
  have hends : ∀ last : List State, last.length ≤ 1 → (∀ s ∈ last, s < 2) →
      (crowded 65536 last).buildCounting? {} = none := by
    intro last hlength hstates
    have hexceed := (exceedWord_crowded_iff (by decide) hlength).2 hpow
    exact buildCounting?_eq_none_iff.2
      ⟨⟨crowdedClause, List.mem_singleton_self _, hexceed⟩, build_crowded hstates⟩
  have hcount : (assignments ((crowded 65536 [0]).domains crowdedClause)).length = 2 ^ 128 :=
    (length_assignments_domains_crowded 65536 [0]).trans (by decide)
  have hempty : assignments ((crowded 65536 []).domains crowdedClause) = [] :=
    List.eq_nil_of_length_eq_zero (length_assignments_domains_crowded 65536 [])
  have hword : ((crowded 65536 [0]).odometer crowdedClause).totalWord.toNat = 0 := by
    rw [odometer, Odometer.toNat_totalWord, hcount, Nat.mod_self]
  exact ⟨validate_crowded hlast, hcount, hword, hends [0] (Nat.le_refl 1) hlast,
    validate_crowded hnone, hempty, build_crowded hnone, hends [] (Nat.zero_le 1) hnone⟩

end Rule

end Cellular
