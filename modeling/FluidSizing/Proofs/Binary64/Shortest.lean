import FluidSizing.Binary64.Decimal
import FluidSizing.Proofs.Binary64.Nearest

/-! The search for the shortest decimal. What is rounded to one magnitude is an interval, so a grid has a
decimal in it only if one of the two neighbours of the magnitude is in it (`Rounds.exists_neighbour`), and
the neighbour that the search takes is the closest decimal on the grid (`onGrid?_eq_some`). The grids are
searched from the coarse ones down, and no decimal on a coarser one is rounded to the magnitude
(`isShortest_shortest`): so no other decimal has fewer digits (`IsShortest.length_le`) and the last digit
is not zero (`IsShortest.not_dvd`). -/

namespace FluidSizing

namespace Binary64

/-- A decimal that is rounded to a magnitude, the closest such decimal on its grid. No decimal on a coarser
grid up to `top` is rounded to the magnitude. -/
structure IsCoarsest (units : Nat) (top : ℤ) (decimal : Decimal) : Prop where
  rounds : Rounds (exactDecimal decimal.digits decimal.exponent) units
  closest : ∀ digits, Rounds (exactDecimal digits decimal.exponent) units →
    |exactDecimal decimal.digits decimal.exponent - units| ≤ |exactDecimal digits decimal.exponent - units|
  coarsest : ∀ digits exponent, decimal.exponent < exponent → exponent ≤ top →
    ¬ Rounds (exactDecimal digits exponent) units

/-- The same without a bound on the grids. -/
def IsShortest (units : Nat) (decimal : Decimal) : Prop := ∀ top, IsCoarsest units top decimal

variable {tie : Tie} {units digits below : Nat} {exponent : ℤ} {low high : ℚ}

theorem readsBack_iff : readsBack units digits exponent = true ↔
    Rounds (exactDecimal digits exponent) units := by
  rw [readsBack, beq_iff_eq]
  constructor
  · rintro rfl
    exact rounds_nearestDecimal digits exponent
  · exact (rounds_nearestDecimal digits exponent).unique

/-- The distance between decimals on the grid of a power of ten, in units. -/
def grid (exponent : ℤ) : ℚ := 10 ^ exponent * one

theorem grid_pos (exponent : ℤ) : 0 < grid exponent :=
  mul_pos (zpow_pos (by norm_num) exponent) (Nat.cast_pos.mpr one_pos)

theorem exactDecimal_eq (digits : Nat) (exponent : ℤ) :
    exactDecimal digits exponent = digits * grid exponent := mul_assoc _ _ _

theorem exactDecimal_mono {digits digits' : Nat} (h : digits ≤ digits') (exponent : ℤ) :
    exactDecimal digits exponent ≤ exactDecimal digits' exponent := by
  rw [exactDecimal_eq, exactDecimal_eq]
  exact mul_le_mul_of_nonneg_right (Nat.cast_le.mpr h) (grid_pos exponent).le

/-- The magnitude over the power of ten, as it is passed to the division. -/
theorem overPowerOfTen_eq (units : Nat) (exponent : ℤ) :
    0 < (overPowerOfTen units exponent).2 ∧
      ((overPowerOfTen units exponent).1 : ℚ) / (overPowerOfTen units exponent).2 =
        units / grid exponent := by
  have hone : (one : ℚ) ≠ 0 := Nat.cast_ne_zero.mpr one_pos.ne'
  cases exponent with
  | ofNat e =>
      have hquotient : overPowerOfTen units (Int.ofNat e) = (units, one * 10 ^ e) := rfl
      rw [hquotient, grid, Int.ofNat_eq_natCast, zpow_natCast, mul_comm (10 ^ e)]
      exact ⟨Nat.mul_pos one_pos (Nat.pow_pos (by decide)), by push_cast; rfl⟩
  | negSucc e =>
      have hquotient : overPowerOfTen units (Int.negSucc e) = (units * 10 ^ (e + 1), one) := rfl
      rw [hquotient, grid, zpow_negSucc]
      dsimp only
      refine ⟨one_pos, ?_⟩
      push_cast
      field_simp

/-- What lies between two exact magnitudes that are rounded to one magnitude is rounded to it too. -/
theorem Rounds.between (hlow : Rounds low units) (hhigh : Rounds high units)
    (hle : low ≤ exactDecimal digits exponent) (hge : exactDecimal digits exponent ≤ high) :
    Rounds (exactDecimal digits exponent) units := by
  have hrounds := rounds_nearestDecimal digits exponent
  have heq : nearestDecimal digits exponent = units :=
    Nat.le_antisymm (hrounds.le_of_le hhigh hge) (hlow.le_of_le hrounds hle)
  rwa [heq] at hrounds

/-- The two neighbours of a magnitude on a grid. -/
structure Neighbours (units below : Nat) (exponent : ℤ) : Prop where
  lower : exactDecimal below exponent ≤ units
  upper : (units : ℚ) < exactDecimal (below + 1) exponent

/-- Where a decimal on the grid is rounded to the magnitude, a neighbour at most as far away is. -/
theorem Rounds.exists_neighbour (hunits : Precise units) (hbelow : Neighbours units below exponent)
    (h : Rounds (exactDecimal digits exponent) units) :
    ∃ neighbour, (neighbour = below ∨ neighbour = below + 1) ∧
      Rounds (exactDecimal neighbour exponent) units ∧
      |exactDecimal neighbour exponent - units| ≤ |exactDecimal digits exponent - units| := by
  have hself : Rounds units units := .ofPrecise hunits
  obtain ⟨hlower, hupper⟩ := hbelow
  rcases Nat.lt_or_ge below digits with hlt | hle
  · have hmono : exactDecimal (below + 1) exponent ≤ exactDecimal digits exponent :=
      exactDecimal_mono hlt exponent
    refine ⟨below + 1, Or.inr rfl, hself.between h hupper.le hmono, ?_⟩
    rw [abs_of_pos (by linarith), abs_of_pos (by linarith)]
    linarith
  · have hmono : exactDecimal digits exponent ≤ exactDecimal below exponent :=
      exactDecimal_mono hle exponent
    refine ⟨below, Or.inl rfl, h.between hself hmono hlower, ?_⟩
    rw [abs_of_nonpos (by linarith), abs_of_nonpos (by linarith)]
    linarith

theorem neighbours_div (units : Nat) (exponent : ℤ) :
    Neighbours units ((overPowerOfTen units exponent).1 / (overPowerOfTen units exponent).2) exponent := by
  obtain ⟨hden, hquotient⟩ := overPowerOfTen_eq units exponent
  generalize (overPowerOfTen units exponent).1 = num at hquotient ⊢
  generalize (overPowerOfTen units exponent).2 = den at hquotient hden ⊢
  have hgrid := grid_pos exponent
  have hdenq : (0 : ℚ) < den := Nat.cast_pos.mpr hden
  constructor
  · rw [exactDecimal_eq, ← le_div_iff₀ hgrid, ← hquotient]
    exact Nat.cast_div_le
  · rw [exactDecimal_eq, ← div_lt_iff₀ hgrid, ← hquotient, div_lt_iff₀ hdenq]
    exact_mod_cast Nat.lt_mul_of_div_lt (Nat.lt_succ_self _) hden

/-- The rest of the division tells how far away the neighbours are. -/
theorem abs_neighbours_sub (units : Nat) (exponent : ℤ) {num den : Nat}
    (h : overPowerOfTen units exponent = (num, den)) :
    ∃ scale : ℚ, 0 < scale ∧
      |exactDecimal (num / den) exponent - units| = scale * (num % den : Nat) ∧
      |exactDecimal (num / den + 1) exponent - units| = scale * (den - (num % den : Nat)) := by
  obtain ⟨hden, hquotient⟩ := overPowerOfTen_eq units exponent
  obtain ⟨hlower, hupper⟩ := neighbours_div units exponent
  rw [h] at hden hquotient hlower hupper
  dsimp only at hden hquotient hlower hupper
  have hgrid := grid_pos exponent
  have hdenq : (0 : ℚ) < den := Nat.cast_pos.mpr hden
  have hunits : (units : ℚ) = grid exponent * ((num / den : Nat) + (num % den : Nat) / den) := by
    rw [← cast_div_eq num hden, hquotient, mul_div_cancel₀ _ hgrid.ne']
  refine ⟨grid exponent / den, div_pos hgrid hdenq, ?_, ?_⟩
  · rw [abs_of_nonpos (by linarith), exactDecimal_eq, hunits]
    field_simp
    ring
  · rw [abs_of_pos (by linarith), exactDecimal_eq, hunits]
    push_cast
    field_simp
    ring

/-- The search takes no neighbour of the magnitude on a grid, the lower one or the upper one: one that is
rounded to the magnitude, and of two such neighbours one that is at most half the grid away. -/
theorem onGrid?_cases (tie : Tie) (units : Nat) (exponent : ℤ) {num den : Nat}
    (h : overPowerOfTen units exponent = (num, den)) :
    (onGrid? tie units exponent = none ∧ ¬ Rounds (exactDecimal (num / den) exponent) units ∧
      ¬ Rounds (exactDecimal (num / den + 1) exponent) units) ∨
    (onGrid? tie units exponent = some (num / den) ∧
      Rounds (exactDecimal (num / den) exponent) units ∧
      (Rounds (exactDecimal (num / den + 1) exponent) units → 2 * (num % den) ≤ den)) ∨
    (onGrid? tie units exponent = some (num / den + 1) ∧
      Rounds (exactDecimal (num / den + 1) exponent) units ∧
      (Rounds (exactDecimal (num / den) exponent) units → den ≤ 2 * (num % den))) := by
  simp only [← readsBack_iff]
  cases hbelow : readsBack units (num / den) exponent <;>
    cases habove : readsBack units (num / den + 1) exponent
  case true.true =>
    by_cases htwice : (den < 2 * (num % den) || (den == 2 * (num % den) && tie.takesUpper (num / den)))
    · refine Or.inr (Or.inr ⟨by simp [onGrid?, h, hbelow, habove, htwice], rfl, fun _ => ?_⟩)
      simp only [Bool.or_eq_true, Bool.and_eq_true, decide_eq_true_eq, beq_iff_eq] at htwice
      exact htwice.elim Nat.le_of_lt fun h => h.1.le
    · refine Or.inr (Or.inl ⟨by simp [onGrid?, h, hbelow, habove, htwice], rfl, fun _ => ?_⟩)
      simp only [Bool.or_eq_true, decide_eq_true_eq, not_or, Nat.not_lt] at htwice
      exact htwice.1
  all_goals simp [onGrid?, h, hbelow, habove]

/-- Where the search finds nothing on a grid, no decimal on it is rounded to the magnitude. -/
theorem onGrid?_eq_none (hunits : Precise units) (h : onGrid? tie units exponent = none) (digits : Nat) :
    ¬ Rounds (exactDecimal digits exponent) units := by
  intro hrounds
  obtain ⟨neighbour, hneighbour, hrounds', -⟩ :=
    hrounds.exists_neighbour hunits (neighbours_div units exponent)
  rcases onGrid?_cases tie units exponent rfl with ⟨-, hbelow, habove⟩ | ⟨hsome, -⟩ | ⟨hsome, -⟩
  · rcases hneighbour with rfl | rfl
    · exact hbelow hrounds'
    · exact habove hrounds'
  · cases h.symm.trans hsome
  · cases h.symm.trans hsome

/-- What the search finds on a grid is the closest decimal there that is rounded to the magnitude. -/
theorem onGrid?_eq_some (hunits : Precise units) (h : onGrid? tie units exponent = some digits) :
    Rounds (exactDecimal digits exponent) units ∧
      ∀ other, Rounds (exactDecimal other exponent) units →
        |exactDecimal digits exponent - units| ≤ |exactDecimal other exponent - units| := by
  obtain ⟨num, den, hquotient⟩ : ∃ num den, overPowerOfTen units exponent = (num, den) := ⟨_, _, rfl⟩
  obtain ⟨scale, hscale, hlower, hupper⟩ := abs_neighbours_sub units exponent hquotient
  have hneighbours := neighbours_div units exponent
  rw [hquotient] at hneighbours
  suffices Rounds (exactDecimal digits exponent) units ∧
      ∀ neighbour, (neighbour = num / den ∨ neighbour = num / den + 1) →
        Rounds (exactDecimal neighbour exponent) units →
          |exactDecimal digits exponent - units| ≤ |exactDecimal neighbour exponent - units| by
    refine ⟨this.1, fun other hother => ?_⟩
    obtain ⟨neighbour, hneighbour, hrounds, hle⟩ := hother.exists_neighbour hunits hneighbours
    exact (this.2 neighbour hneighbour hrounds).trans hle
  rcases onGrid?_cases tie units exponent hquotient with
    ⟨hnone, -⟩ | ⟨hsome, hrounds, hhalf⟩ | ⟨hsome, hrounds, hhalf⟩
  · cases h.symm.trans hnone
  · obtain rfl := Option.some.inj (h.symm.trans hsome)
    refine ⟨hrounds, ?_⟩
    rintro neighbour (rfl | rfl) hneighbour
    · exact le_rfl
    · have hle : 2 * (num % den : Nat) ≤ (den : ℚ) := by exact_mod_cast hhalf hneighbour
      rw [hlower, hupper]
      exact mul_le_mul_of_nonneg_left (by linarith) hscale.le
  · obtain rfl := Option.some.inj (h.symm.trans hsome)
    refine ⟨hrounds, ?_⟩
    rintro neighbour (rfl | rfl) hneighbour
    · have hle : (den : ℚ) ≤ 2 * (num % den : Nat) := by exact_mod_cast hhalf hneighbour
      rw [hlower, hupper]
      exact mul_le_mul_of_nonneg_left (by linarith) hscale.le
    · exact le_rfl

theorem mul_five_pow_mul_two_pow (units places : Nat) :
    ((units * Nat.pow 5 places : Nat) : ℚ) * 10 ^ (-(places : ℤ)) * (Nat.pow 2 places : Nat) = units := by
  have hten : (10 : ℚ) ^ places = 5 ^ places * 2 ^ places := by rw [← mul_pow]; norm_num
  rw [Nat.pow_eq, Nat.pow_eq, zpow_neg, zpow_natCast, hten]
  push_cast
  field_simp

/-- Every magnitude is on the finest grid. -/
theorem exactDecimal_finest (units : Nat) :
    exactDecimal (units * Nat.pow 5 1074) (-(1074 : Nat)) = units := by
  unfold exactDecimal one
  generalize 1074 = places
  exact mul_five_pow_mul_two_pow units places

/-- The search finds a decimal on the coarsest grid that has one. -/
theorem isCoarsest_shortestFrom (hunits : Precise units) (gridsLeft : Nat) :
    IsCoarsest units (gridsLeft - 1074) (shortestFrom tie units gridsLeft) := by
  induction gridsLeft with
  | zero =>
      have hexact := exactDecimal_finest units
      rw [Nat.cast_ofNat] at hexact
      refine ⟨?_, ?_, ?_⟩
      · show Rounds (exactDecimal (units * Nat.pow 5 1074) (-1074)) units
        rw [hexact]
        exact .ofPrecise hunits
      · intro digits _
        show |exactDecimal (units * Nat.pow 5 1074) (-1074) - units| ≤ _
        rw [hexact, sub_self, abs_zero]
        exact abs_nonneg _
      · intro digits exponent (hlt : -1074 < exponent) hle
        omega
  | succ gridsLeft ih =>
      rw [shortestFrom]
      split
      · rename_i digits hsome
        obtain ⟨hrounds, hclosest⟩ := onGrid?_eq_some hunits hsome
        refine ⟨hrounds, hclosest, ?_⟩
        intro digits exponent hlt hle
        exact absurd hlt (not_lt.mpr hle)
      · rename_i hnone
        refine ⟨ih.rounds, ih.closest, ?_⟩
        intro digits exponent hlt hle
        rcases eq_or_lt_of_le hle with rfl | hless
        · exact onGrid?_eq_none hunits hnone digits
        · refine ih.coarsest digits exponent hlt ?_
          push_cast at hless
          omega

/-- Above the first grid of the search every decimal but zero is beyond the magnitude. -/
theorem not_rounds_above (hpos : units ≠ 0) (hexponent : (units / one).log2 + 1 < exponent) :
    ¬ Rounds (exactDecimal digits exponent) units := by
  intro hrounds
  have hdigits : digits ≠ 0 := by
    rintro rfl
    rw [exactDecimal_zero] at hrounds
    exact hpos (hrounds.unique (.ofLess le_rfl (by norm_num)))
  obtain ⟨e, rfl⟩ : ∃ e : Nat, exponent = e := ⟨exponent.toNat, by omega⟩
  have hless : units < 2 ^ e * one := by
    have hlog : units / one < 2 ^ e :=
      Nat.lt_of_lt_of_le Nat.lt_log2_self (Nat.pow_le_pow_right (by decide) (by omega))
    rwa [Nat.div_lt_iff_lt_mul one_pos] at hlog
  have hprecise : Precise (2 ^ e * one) := by
    obtain ⟨places, hone⟩ : ∃ places, one = Nat.pow 2 places := ⟨1074, one.eq_1⟩
    rw [hone, Nat.pow_eq, ← Nat.pow_add]
    exact precise_two_pow _
  have hle : ((2 ^ e * one : Nat) : ℚ) ≤ exactDecimal digits e := by
    have hten : ((2 ^ e : Nat) : ℚ) ≤ digits * 10 ^ e := by
      have hpow : 2 ^ e ≤ digits * 10 ^ e :=
        Nat.le_trans (Nat.pow_le_pow_left (by decide) e) (Nat.le_mul_of_pos_left _ (by omega))
      exact_mod_cast hpow
    rw [exactDecimal, zpow_natCast, Nat.cast_mul]
    exact mul_le_mul_of_nonneg_right hten (Nat.cast_nonneg _)
  exact absurd ((Rounds.ofPrecise hprecise).le_of_le hrounds hle) (Nat.not_le.mpr hless)

/-- The search finds the shortest decimal. -/
theorem isShortest_shortest (hunits : Precise units) (hpos : units ≠ 0) :
    IsShortest units (shortest tie units) := by
  intro top
  have h : IsCoarsest units _ (shortest tie units) := isCoarsest_shortestFrom hunits _
  refine ⟨h.rounds, h.closest, ?_⟩
  intro digits exponent hlt _
  rcases lt_or_ge ((units / one).log2 + 1 : ℤ) exponent with habove | hle
  · exact not_rounds_above hpos habove
  · refine h.coarsest digits exponent hlt ?_
    push_cast
    omega

/-- A decimal on a grid ten times as fine. -/
theorem exactDecimal_add_one (digits : Nat) (exponent : ℤ) :
    exactDecimal digits (exponent + 1) = exactDecimal (10 * digits) exponent := by
  rw [exactDecimal, exactDecimal, zpow_add_one₀ (by norm_num)]
  push_cast
  ring

namespace IsShortest

variable {decimal other : Decimal} (h : IsShortest units decimal)
include h

theorem not_rounds {digits : Nat} (hexponent : decimal.exponent < exponent) :
    ¬ Rounds (exactDecimal digits exponent) units := (h exponent).coarsest digits exponent hexponent le_rfl

/-- No decimal that is rounded to the magnitude is on a coarser grid. -/
theorem exponent_le {digits : Nat} (hrounds : Rounds (exactDecimal digits exponent) units) :
    exponent ≤ decimal.exponent := by
  by_contra hlt
  exact h.not_rounds (by omega) hrounds

/-- The last digit of the shortest decimal is not zero. -/
theorem not_dvd : ¬ 10 ∣ decimal.digits := by
  rintro ⟨digits, hdigits⟩
  have hrounds := (h 0).rounds
  rw [hdigits, ← exactDecimal_add_one] at hrounds
  exact h.not_rounds (Int.lt_add_one_iff.mpr le_rfl) hrounds

/-- No decimal that is rounded to the magnitude has fewer digits: a power of ten would lie between the two,
and that is on a coarser grid. -/
theorem length_le (hother : Rounds (exactDecimal other.digits other.exponent) units) :
    (Text.ofNat decimal.digits).length ≤ (Text.ofNat other.digits).length := by
  by_contra hfewer
  have hcoarse := h.exponent_le hother
  obtain ⟨count, hcount⟩ : ∃ count, (Text.ofNat other.digits).length = count + 1 :=
    ⟨_, (Nat.succ_pred_eq_of_pos Nat.length_toDigits_pos).symm⟩
  have hless : other.digits < 10 ^ (count + 1) := by
    rw [← Nat.length_toDigits_le_iff (by decide) (Nat.succ_pos count)]
    exact hcount.le
  have hmore : 10 ^ (count + 1) ≤ decimal.digits := by
    rw [← Nat.not_lt, ← Nat.length_toDigits_le_iff (by decide) (Nat.succ_pos count)]
    exact fun hle => hfewer (hcount ▸ hle)
  -- The power of ten is ten times as coarse as the decimal's own grid.
  have hsame : exactDecimal (10 ^ count) (decimal.exponent + 1) =
      exactDecimal (10 ^ (count + 1)) decimal.exponent := by
    rw [exactDecimal_add_one, Nat.pow_add_one']
  have hlow : exactDecimal other.digits other.exponent ≤
      exactDecimal (10 ^ count) (decimal.exponent + 1) := by
    rw [hsame, exactDecimal_eq, exactDecimal_eq]
    have hgrid : grid other.exponent ≤ grid decimal.exponent :=
      mul_le_mul_of_nonneg_right (zpow_le_zpow_right₀ (by norm_num) hcoarse) (Nat.cast_nonneg _)
    exact mul_le_mul (Nat.cast_le.mpr hless.le) hgrid (grid_pos _).le (Nat.cast_nonneg _)
  have hhigh : exactDecimal (10 ^ count) (decimal.exponent + 1) ≤
      exactDecimal decimal.digits decimal.exponent := by
    rw [hsame]
    exact exactDecimal_mono hmore _
  exact h.not_rounds (Int.lt_add_one_iff.mpr le_rfl) (hother.between (h 0).rounds hlow hhigh)

end IsShortest

end Binary64

end FluidSizing
