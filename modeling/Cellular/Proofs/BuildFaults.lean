import Cellular.Proofs.Filling

/-!
# Why a rule is not built

A build fails for the fault that the check finds, or because there are more
configurations than may be filled in.  If it does not count assignments, there is no
other reason: a well-formed rule that is not filled in, or has room for it, is built.
-/

namespace Cellular

namespace Rule

variable {rule : Rule}

/-- Why a rule is not built: it has a fault, or it has none and there are more
configurations than may be filled in. -/
inductive BuildBreaks (rule : Rule) (settings : Settings) : BuildError → Prop where
  | illFormed {fault : RuleFault} (hfault : rule.Breaks fault) :
      BuildBreaks rule settings (.illFormed fault)
  | fillTooLarge (hrule : rule.IsWellFormed) (hfill : settings.fill = .identity)
      (hlimit : settings.fillLimit < rule.stateCount ^ 9) :
      BuildBreaks rule settings (.fillTooLarge (rule.stateCount ^ 9) settings.fillLimit)

theorem initialTable_eq_error_iff {settings : Settings} {e : BuildError} :
    rule.initialTable settings = .error e ↔
      settings.fill = .identity ∧ settings.fillLimit < rule.stateCount ^ 9 ∧
        e = .fillTooLarge (rule.stateCount ^ 9) settings.fillLimit := by
  have hcount : rule.packing.configurationCount = rule.stateCount ^ 9 :=
    Packing.configurationCount_eq _
  rw [initialTable]
  cases settings.fill with
  | unmapped => simp
  | identity =>
    simp only [hcount]
    by_cases hle : rule.stateCount ^ 9 ≤ settings.fillLimit
    · simp [hle]
    · simp [hle, Nat.lt_of_not_le hle, eq_comm]

theorem build_eq_error_iff {settings : Settings} {e : BuildError} :
    rule.build settings = .error e ↔ rule.BuildBreaks settings e := by
  rw [build_eq]
  cases hfault : rule.fault? with
  | some fault =>
    have hbreaks := fault?_eq_some_iff.1 hfault
    simp only [Except.error.injEq]
    constructor
    · rintro rfl
      exact .illFormed hbreaks
    · rintro (hother | ⟨hrule, -, -⟩)
      · rw [← fault?_eq_some_iff, hfault, Option.some.injEq] at hother
        rw [hother]
      · rw [← validate_eq_ok_iff_isWellFormed, validate_eq_ok_iff, hfault] at hrule
        cases hrule
  | none =>
    have hrule := validate_eq_ok_iff_isWellFormed.1 (validate_eq_ok_iff.2 hfault)
    have hmap : (rule.initialTable settings).map (·.writeAll rule.allTransitions) = .error e ↔
        rule.initialTable settings = .error e := by
      cases rule.initialTable settings <;> simp [Except.map]
    rw [hmap, initialTable_eq_error_iff]
    constructor
    · rintro ⟨hfill, hlimit, rfl⟩
      exact .fillTooLarge hrule hfill hlimit
    · rintro (hother | ⟨-, hfill, hlimit⟩)
      · rw [← fault?_eq_some_iff, hfault] at hother
        cases hother
      · exact ⟨hfill, hlimit, rfl⟩

theorem exists_build_eq_ok_iff {settings : Settings} :
    (∃ table, rule.build settings = .ok table) ↔ rule.IsWellFormed ∧
      ¬ (settings.fill = .identity ∧ settings.fillLimit < rule.stateCount ^ 9) := by
  constructor
  · rintro ⟨table, hbuild⟩
    have hrule := validate_eq_ok_iff_isWellFormed.1 (build_eq_ok_iff.1 hbuild).1
    refine ⟨hrule, fun hlarge => ?_⟩
    have herror := build_eq_error_iff.2 (.fillTooLarge hrule hlarge.1 hlarge.2)
    rw [hbuild] at herror
    cases herror
  · rintro ⟨hrule, hroom⟩
    cases hbuild : rule.build settings with
    | ok table => exact ⟨table, rfl⟩
    | error e =>
      rcases build_eq_error_iff.1 hbuild with hfault | ⟨-, hfill, hlimit⟩
      · rw [← validate_eq_error_iff, validate_eq_ok_iff_isWellFormed.2 hrule] at hfault
        cases hfault
      · exact absurd ⟨hfill, hlimit⟩ hroom

end Rule

end Cellular
