import FluidSizing.Binary64.Basic
import Mathlib.Algebra.Order.Field.Rat
import Mathlib.Algebra.Order.Group.Unbundled.Abs
import Mathlib.Data.Nat.Cast.Order.Field
import Mathlib.Data.Nat.Log
import Mathlib.Tactic.FieldSimp
import Mathlib.Tactic.Linarith
import Mathlib.Tactic.Positivity
import Mathlib.Tactic.Ring

/-! Correct rounding. An exact magnitude is a rational number of units, and `Rounds` says which precise
magnitude is closest to it, ties going to the even one. There is exactly one (`Rounds.unique`), it grows
with the exact magnitude (`Rounds.le_of_le`), and `nearest` finds it (`rounds_nearest`), so rounded decimals
are correct whatever their exponent is (`correctlyRounded_ofDecimal`). -/

namespace FluidSizing

namespace Binary64

/-- The distance from a precise magnitude to the next one. -/
def lastPlace (units : Nat) : Nat := 2 ^ (units.log2 - 52)

/-- At most 53 significant bits. -/
def Precise (units : Nat) : Prop := lastPlace units ∣ units

/-- The precise magnitude closest to an exact one. A tie is only won with an even last place. -/
structure Rounds (exact : ℚ) (units : Nat) : Prop where
  precise : Precise units
  closest : ∀ other, Precise other → |(units : ℚ) - exact| ≤ |(other : ℚ) - exact|
  even : ∀ other, Precise other → |(units : ℚ) - exact| = |(other : ℚ) - exact| →
    other = units ∨ 2 * lastPlace units ∣ units

/-- The number that an exact magnitude is rounded to, infinite beyond the range. -/
inductive CorrectlyRounded (negative : Bool) (exact : ℚ) : Binary64 → Prop
  | finite {units : Nat} (rounds : Rounds exact units) (fits : Fits units) :
      CorrectlyRounded negative exact (.finite negative units fits)
  | infinite {units : Nat} (rounds : Rounds exact units) (beyond : limit ≤ units) :
      CorrectlyRounded negative exact (.infinity negative)

variable {exact exact' : ℚ} {units units' significand shift num den : Nat}

theorem lastPlace_pos (units : Nat) : 0 < lastPlace units := Nat.two_pow_pos _

theorem log2_mono (h : units ≤ units') : units.log2 ≤ units'.log2 := by
  rcases Nat.eq_zero_or_pos units with rfl | hpos
  · simp
  · exact (Nat.le_log2 (by omega)).mpr (Nat.le_trans (Nat.log2_self_le (by omega)) h)

theorem lastPlace_dvd_lastPlace (h : units ≤ units') : lastPlace units ∣ lastPlace units' := by
  have hlog := log2_mono h
  exact Nat.pow_dvd_pow 2 (by omega)

/-- A magnitude is less than 2 to the power 53 in its last place. -/
theorem lt_mul_lastPlace (units : Nat) : units < 2 ^ 53 * lastPlace units := by
  rw [lastPlace, ← Nat.pow_add]
  exact Nat.lt_of_lt_of_le Nat.lt_log2_self (Nat.pow_le_pow_right (by decide) (by omega))

theorem precise_two_pow (n : Nat) : Precise (2 ^ n) := by
  rw [Precise, lastPlace, Nat.log2_two_pow]
  exact Nat.pow_dvd_pow 2 (by omega)

theorem lastPlace_mul_dvd (h : significand < 2 ^ 53) :
    lastPlace (significand * 2 ^ shift) ∣ 2 ^ shift := by
  rcases Nat.eq_zero_or_pos significand with rfl | hpos
  · simp [lastPlace]
  · have hne : significand * 2 ^ shift ≠ 0 :=
      Nat.mul_ne_zero (by omega) (Nat.pos_iff_ne_zero.mp (Nat.two_pow_pos _))
    have hlog : (significand * 2 ^ shift).log2 < 53 + shift := by
      rw [Nat.log2_lt hne, Nat.pow_add]
      exact Nat.mul_lt_mul_of_pos_right h (Nat.two_pow_pos _)
    exact Nat.pow_dvd_pow 2 (by omega)

theorem precise_mul (h : significand ≤ 2 ^ 53) : Precise (significand * 2 ^ shift) := by
  rcases Nat.lt_or_eq_of_le h with hlt | rfl
  · exact Nat.dvd_trans (lastPlace_mul_dvd hlt) (Nat.dvd_mul_left _ _)
  · rw [← Nat.pow_add]
    exact precise_two_pow _

theorem two_mul_lastPlace_dvd (h : significand ≤ 2 ^ 53) (heven : 2 ∣ significand) :
    2 * lastPlace (significand * 2 ^ shift) ∣ significand * 2 ^ shift := by
  rcases Nat.lt_or_eq_of_le h with hlt | rfl
  · exact Nat.mul_dvd_mul heven (lastPlace_mul_dvd hlt)
  · rw [← Nat.pow_add, lastPlace, Nat.log2_two_pow, ← Nat.pow_add_one']
    exact Nat.pow_dvd_pow 2 (by omega)

/-- The next magnitude in the last place is precise too. -/
theorem Precise.add_lastPlace (h : Precise units) : Precise (units + lastPlace units) := by
  obtain ⟨significand, hsignificand⟩ := h
  have hlt : significand < 2 ^ 53 := by
    refine Nat.lt_of_mul_lt_mul_left (a := lastPlace units) ?_
    rw [← hsignificand, Nat.mul_comm]
    exact lt_mul_lastPlace units
  have heq : units + lastPlace units = (significand + 1) * lastPlace units := by
    rw [Nat.add_one_mul, Nat.mul_comm significand, ← hsignificand]
  rw [heq]
  exact precise_mul hlt

/-- Two different magnitudes with even last places have a precise one between them. -/
theorem exists_precise_between (h : Precise units) (heven : 2 * lastPlace units ∣ units)
    (heven' : 2 * lastPlace units' ∣ units') (hlt : units < units') :
    ∃ middle, Precise middle ∧ units < middle ∧ middle < units' := by
  have hpos := lastPlace_pos units
  refine ⟨units + lastPlace units, h.add_lastPlace, by omega, ?_⟩
  have hdvd : 2 * lastPlace units ∣ units' :=
    Nat.dvd_trans (Nat.mul_dvd_mul_left 2 (lastPlace_dvd_lastPlace hlt.le)) heven'
  have hle : 2 * lastPlace units ≤ units' - units :=
    Nat.le_of_dvd (by omega) (Nat.dvd_sub hdvd heven)
  omega

/-- A precise magnitude is a multiple of a last place or has fewer bits. -/
theorem Precise.dvd_or_lt (h : Precise units) (whole : Nat) :
    lastPlace whole ∣ units ∨ whole ≠ 0 ∧ units < 2 ^ whole.log2 := by
  by_cases hlt : units < 2 ^ whole.log2
  · rcases Nat.eq_zero_or_pos whole with rfl | hpos
    · exact Or.inl (Nat.one_dvd _)
    · exact Or.inr ⟨by omega, hlt⟩
  · left
    have hdvd : lastPlace (2 ^ whole.log2) ∣ lastPlace units :=
      lastPlace_dvd_lastPlace (Nat.not_lt.mp hlt)
    rw [lastPlace, Nat.log2_two_pow] at hdvd
    exact Nat.dvd_trans hdvd h

/-- Between a precise magnitude that is no multiple of a last place and the one with that last place there
is a multiple. -/
theorem Precise.exists_mul_between (h : Precise units) {whole : Nat} (hndvd : ¬ lastPlace whole ∣ units) :
    ∃ k, units < k * lastPlace whole ∧ k * lastPlace whole ≤ whole := by
  obtain ⟨hne, hlt⟩ := (h.dvd_or_lt whole).resolve_left hndvd
  obtain ⟨k, hk⟩ : lastPlace whole ∣ 2 ^ whole.log2 := Nat.pow_dvd_pow 2 (by omega)
  rw [Nat.mul_comm] at hk
  exact ⟨k, hk ▸ hlt, hk ▸ Nat.log2_self_le hne⟩

namespace Rounds

/-- Of two different results for one magnitude the middle would be closer. -/
theorem not_lt (h : Rounds exact units) (h' : Rounds exact units') : ¬ units < units' := by
  intro hlt
  have htie : |(units : ℚ) - exact| = |(units' : ℚ) - exact| :=
    le_antisymm (h.closest _ h'.precise) (h'.closest _ h.precise)
  have hcast : (units : ℚ) < units' := by exact_mod_cast hlt
  have heven : 2 * lastPlace units ∣ units := (h.even _ h'.precise htie).resolve_left (by omega)
  have heven' : 2 * lastPlace units' ∣ units' :=
    (h'.even _ h.precise htie.symm).resolve_left (by omega)
  obtain ⟨middle, hmiddle, hbelow, habove⟩ := exists_precise_between h.precise heven heven' hlt
  have hbelow : (units : ℚ) < middle := by exact_mod_cast hbelow
  have habove : (middle : ℚ) < units' := by exact_mod_cast habove
  have hclosest := h.closest _ hmiddle
  rcases abs_cases ((units : ℚ) - exact) with hu | hu <;>
    rcases abs_cases ((units' : ℚ) - exact) with hu' | hu' <;>
    rcases abs_cases ((middle : ℚ) - exact) with hm | hm <;> linarith

/-- An exact magnitude is rounded to one magnitude only. -/
theorem unique (h : Rounds exact units) (h' : Rounds exact units') : units = units' :=
  Nat.le_antisymm (Nat.not_lt.mp (h'.not_lt h)) (Nat.not_lt.mp (h.not_lt h'))

/-- Rounding keeps the order. -/
theorem le_of_le (h : Rounds exact units) (h' : Rounds exact' units') (hle : exact ≤ exact') :
    units ≤ units' := by
  rcases eq_or_lt_of_le hle with rfl | hlt
  · exact (h.unique h').le
  · by_contra hgt
    have hcast : (units' : ℚ) < units := by exact_mod_cast Nat.not_le.mp hgt
    have hclosest := h.closest _ h'.precise
    have hclosest' := h'.closest _ h.precise
    rcases abs_cases ((units : ℚ) - exact) with hu | hu <;>
      rcases abs_cases ((units' : ℚ) - exact) with hu' | hu' <;>
      rcases abs_cases ((units : ℚ) - exact') with hm | hm <;>
      rcases abs_cases ((units' : ℚ) - exact') with hm' | hm' <;> linarith

/-- A precise magnitude is rounded to itself. -/
theorem ofPrecise (h : Precise units) : Rounds units units := by
  refine ⟨h, fun other _ => by simp, fun other _ htie => Or.inl ?_⟩
  have hzero : |(other : ℚ) - units| = 0 := by rw [← htie]; simp
  exact_mod_cast sub_eq_zero.mp (abs_eq_zero.mp hzero)

/-- Less than half a unit is rounded to zero. -/
theorem ofLess (hnonneg : 0 ≤ exact) (hless : exact < 1 / 2) : Rounds exact 0 := by
  have hcloser : ∀ other : Nat, other ≠ 0 → |((0 : Nat) : ℚ) - exact| < |(other : ℚ) - exact| := by
    intro other hne
    have hone : (1 : ℚ) ≤ other := by exact_mod_cast Nat.one_le_iff_ne_zero.mpr hne
    rw [abs_of_nonpos (by simpa using hnonneg), abs_of_pos (by linarith)]
    push_cast
    linarith
  refine ⟨Nat.dvd_zero _, ?_, ?_⟩
  · intro other _
    by_cases hzero : other = 0
    · rw [hzero]
    · exact (hcloser other hzero).le
  · intro other _ htie
    refine Or.inl ?_
    by_contra hne
    exact absurd htie (hcloser other hne).ne

end Rounds

theorem cast_div_eq (num : Nat) (hden : 0 < den) :
    (num : ℚ) / den = (num / den : Nat) + (num % den : Nat) / den := by
  have hdenq : (den : ℚ) ≠ 0 := Nat.cast_ne_zero.mpr hden.ne'
  have hnum : (num : ℚ) = den * (num / den : Nat) + (num % den : Nat) := by
    exact_mod_cast (Nat.div_add_mod num den).symm
  rw [div_eq_iff hdenq, add_mul, div_mul_cancel₀ _ hdenq, mul_comm _ (den : ℚ)]
  exact hnum

/-- The rounded quotient is at most a half away, and even where it is a half away. -/
theorem abs_roundQuotient_sub (num : Nat) (hden : 0 < den) :
    |(roundQuotient num den : ℚ) - num / den| ≤ 1 / 2 ∧
      (|(roundQuotient num den : ℚ) - num / den| = 1 / 2 → 2 ∣ roundQuotient num den) := by
  have hdenq : (0 : ℚ) < den := by exact_mod_cast hden
  obtain ⟨part, hpart⟩ : ∃ part : ℚ, part = (num % den : Nat) / den := ⟨_, rfl⟩
  have hnonneg : 0 ≤ part := by rw [hpart]; positivity
  have hless : part < 1 := by
    rw [hpart, div_lt_one hdenq]
    exact_mod_cast Nat.mod_lt num hden
  have habove : den < 2 * (num % den) ↔ 1 / 2 < part := by
    rw [hpart, div_lt_div_iff₀ two_pos hdenq, one_mul, mul_comm]
    exact_mod_cast Iff.rfl
  have htie : den = 2 * (num % den) ↔ part = 1 / 2 := by
    rw [hpart, div_eq_div_iff hdenq.ne' two_ne_zero, one_mul, mul_comm, eq_comm]
    exact_mod_cast Iff.rfl
  rw [cast_div_eq num hden, ← hpart]
  simp only [roundQuotient, Bool.or_eq_true, Bool.and_eq_true, decide_eq_true_eq, beq_iff_eq, habove,
    htie]
  split
  · rename_i hup
    have hhalf : 1 / 2 ≤ part := hup.elim le_of_lt fun h => h.1.ge
    push_cast
    rw [abs_of_nonneg (by linarith)]
    refine ⟨by linarith, fun heq => ?_⟩
    have hodd : num / den % 2 = 1 := (hup.resolve_left (by linarith)).2
    omega
  · rename_i hdown
    rw [not_or, not_lt, not_and] at hdown
    rw [abs_of_nonpos (by linarith)]
    refine ⟨by linarith [hdown.1], fun heq => ?_⟩
    have hodd := hdown.2 (by linarith)
    omega

/-- A natural number at most a half away is a closest one; another one just as close shows a tie. -/
theorem closest_of_abs_le {quotient : ℚ} {n : Nat} (h : |(n : ℚ) - quotient| ≤ 1 / 2) (k : Nat) :
    |(n : ℚ) - quotient| ≤ |(k : ℚ) - quotient| ∧
      (|(n : ℚ) - quotient| = |(k : ℚ) - quotient| → k = n ∨ |(n : ℚ) - quotient| = 1 / 2) := by
  by_cases hne : k = n
  · rw [hne]
    exact ⟨le_rfl, fun _ => Or.inl rfl⟩
  · have hstep : (1 : ℚ) ≤ |(k : ℚ) - n| := by
      have hint : (1 : ℤ) ≤ |(k : ℤ) - n| := Int.one_le_abs (by omega)
      exact_mod_cast hint
    have htriangle : |(k : ℚ) - n| ≤ |(k : ℚ) - quotient| + |(n : ℚ) - quotient| := by
      rw [abs_sub_comm (n : ℚ) quotient]
      exact abs_sub_le _ _ _
    refine ⟨by linarith, fun heq => Or.inr ?_⟩
    linarith

/-- Distances to multiples of a step are distances between whole numbers, scaled. -/
theorem abs_mul_sub_div {step : Nat} (num : Nat) (hden : 0 < den) (hstep : 0 < step) (k : Nat) :
    |((k * step : Nat) : ℚ) - num / den| = |(k : ℚ) - num / (den * step : Nat)| * step := by
  have hdenq : (0 : ℚ) < den := Nat.cast_pos.mpr hden
  have hstepq : (0 : ℚ) < step := Nat.cast_pos.mpr hstep
  rw [← abs_of_pos hstepq, ← abs_mul]
  congr 1
  push_cast
  field_simp

/-- In its last place a magnitude has 53 bits, also when it is rounded up. -/
theorem roundQuotient_lastPlace_le (num den : Nat) :
    roundQuotient num (den * lastPlace (num / den)) ≤ 2 ^ 53 := by
  have hlt : num / den / lastPlace (num / den) < 2 ^ 53 := by
    rw [Nat.div_lt_iff_lt_mul (lastPlace_pos _)]
    exact lt_mul_lastPlace _
  refine Nat.le_trans (roundQuotient_le _ _) ?_
  rw [← Nat.div_div_eq_div_mul]
  exact hlt

/-- What `nearest` finds is correct. -/
theorem rounds_nearest (num : Nat) (hden : 0 < den) : Rounds (num / den : ℚ) (nearest num den) := by
  obtain ⟨step, hstep⟩ : ∃ step, step = lastPlace (num / den) := ⟨_, rfl⟩
  have hpos : 0 < step := hstep ▸ lastPlace_pos _
  have hposq : (0 : ℚ) < step := Nat.cast_pos.mpr hpos
  obtain ⟨quotient, hquotient⟩ : ∃ quotient, quotient = roundQuotient num (den * step) := ⟨_, rfl⟩
  have hnearest : nearest num den = quotient * step := by
    rw [hquotient, hstep]
    rfl
  have hbound : quotient ≤ 2 ^ 53 := by
    rw [hquotient, hstep]
    exact roundQuotient_lastPlace_le num den
  obtain ⟨hhalf, heven⟩ := abs_roundQuotient_sub num (Nat.mul_pos hden hpos)
  rw [← hquotient] at hhalf heven
  have hscale := abs_mul_sub_div num hden hpos
  have hmultiple : ∀ k : Nat,
      |((quotient * step : Nat) : ℚ) - num / den| ≤ |((k * step : Nat) : ℚ) - num / den| := by
    intro k
    rw [hscale, hscale]
    exact mul_le_mul_of_nonneg_right (closest_of_abs_le hhalf k).1 hposq.le
  -- A precise magnitude off the multiples has one of them between it and the exact magnitude.
  have hfar : ∀ other, Precise other → ¬ step ∣ other →
      |((quotient * step : Nat) : ℚ) - num / den| < |(other : ℚ) - num / den| := by
    intro other hother hndvd
    obtain ⟨k, hlt, hle⟩ := hother.exists_mul_between (hstep ▸ hndvd)
    rw [← hstep] at hlt hle
    have hltq : (other : ℚ) < (k * step : Nat) := Nat.cast_lt.mpr hlt
    have hleq : ((k * step : Nat) : ℚ) ≤ num / den := (Nat.cast_le.mpr hle).trans Nat.cast_div_le
    calc |((quotient * step : Nat) : ℚ) - num / den|
        ≤ |((k * step : Nat) : ℚ) - num / den| := hmultiple k
      _ = num / den - (k * step : Nat) := by rw [abs_of_nonpos (by linarith), neg_sub]
      _ < num / den - other := by linarith
      _ = |(other : ℚ) - num / den| := by rw [abs_of_nonpos (by linarith), neg_sub]
  rw [hnearest]
  refine ⟨hstep ▸ precise_mul hbound, ?_, ?_⟩
  · intro other hother
    by_cases hdvd : step ∣ other
    · obtain ⟨k, rfl⟩ := hdvd
      rw [Nat.mul_comm step]
      exact hmultiple k
    · exact (hfar other hother hdvd).le
  · intro other hother htie
    by_cases hdvd : step ∣ other
    · obtain ⟨k, rfl⟩ := hdvd
      rw [Nat.mul_comm step, hscale, hscale] at htie
      rcases (closest_of_abs_le hhalf k).2 (mul_right_cancel₀ hposq.ne' htie) with rfl | hexact
      · exact Or.inl (Nat.mul_comm _ _)
      · exact Or.inr (hstep ▸ two_mul_lastPlace_dvd hbound (heven hexact))
    · exact absurd htie (hfar other hother hdvd).ne

/-- A quotient is rounded correctly. -/
theorem correctlyRounded_ofRatio (negative : Bool) (num : Nat) (hden : 0 < den) :
    CorrectlyRounded negative (num / den : ℚ) (ofRatio negative num den) := by
  unfold ofRatio
  split
  · exact .finite (rounds_nearest num hden) _
  · exact .infinite (rounds_nearest num hden) (Nat.not_lt.mp ‹_›)

/-- An exact magnitude and a sign are rounded to one number only. -/
theorem CorrectlyRounded.unique {negative : Bool} {x y : Binary64}
    (hx : CorrectlyRounded negative exact x) (hy : CorrectlyRounded negative exact y) : x = y := by
  cases hx with
  | finite rounds fits =>
      cases hy with
      | finite rounds' fits' =>
          cases rounds.unique rounds'
          rfl
      | infinite rounds' beyond =>
          rw [rounds.unique rounds'] at fits
          exact absurd fits.1 (Nat.not_lt.mpr beyond)
  | infinite rounds beyond =>
      cases hy with
      | finite rounds' fits =>
          rw [rounds'.unique rounds] at fits
          exact absurd fits.1 (Nat.not_lt.mpr beyond)
      | infinite => rfl

/-- The exact magnitude, in units, of digits times a power of ten. -/
def exactDecimal (digits : Nat) (exponent : ℤ) : ℚ := digits * 10 ^ exponent * one

theorem exactDecimal_zero (exponent : ℤ) : exactDecimal 0 exponent = 0 := by
  rw [exactDecimal, Nat.cast_zero, zero_mul, zero_mul]

theorem rounds_nearestDecimal (digits : Nat) (exponent : ℤ) :
    Rounds (exactDecimal digits exponent) (nearestDecimal digits exponent) := by
  cases exponent with
  | ofNat e =>
      have h := rounds_nearest (digits * 10 ^ e * one) Nat.one_pos
      rw [Nat.cast_one, div_one] at h
      have hexact : exactDecimal digits (Int.ofNat e) = (digits * 10 ^ e * one : Nat) := by
        rw [exactDecimal, Int.ofNat_eq_natCast, zpow_natCast]
        push_cast
        rfl
      rw [hexact]
      exact h
  | negSucc e =>
      have h := rounds_nearest (digits * one) (Nat.pow_pos (n := e + 1) (show 0 < 10 by decide))
      have hexact : exactDecimal digits (Int.negSucc e) =
          (digits * one : Nat) / (10 ^ (e + 1) : Nat) := by
        rw [exactDecimal, zpow_negSucc, div_eq_mul_inv]
        push_cast
        ring
      rw [hexact]
      exact h

theorem exactDecimal_nonneg (digits : Nat) (exponent : ℤ) : 0 ≤ exactDecimal digits exponent := by
  have hpow : (0 : ℚ) ≤ 10 ^ exponent := zpow_nonneg (by norm_num) exponent
  exact mul_nonneg (mul_nonneg (Nat.cast_nonneg _) hpow) (Nat.cast_nonneg _)

theorem precise_limit : Precise limit := by
  simp only [limit, Nat.pow_eq, precise_two_pow]

/-- A power of ten beyond the range is rounded to a magnitude beyond the range. -/
theorem limit_le_nearestDecimal {digits bound : Nat} {exponent : ℤ} (hrange : limit ≤ 10 ^ bound * one)
    (hdigits : digits ≠ 0) (hexponent : bound ≤ exponent) :
    limit ≤ nearestDecimal digits exponent := by
  refine (Rounds.ofPrecise precise_limit).le_of_le (rounds_nearestDecimal digits exponent) ?_
  have hone : (1 : ℚ) ≤ digits := by exact_mod_cast Nat.one_le_iff_ne_zero.mpr hdigits
  have hpow : (10 : ℚ) ^ bound ≤ 10 ^ exponent := by
    rw [← zpow_natCast]
    exact zpow_le_zpow_right₀ (by norm_num) hexponent
  calc (limit : ℚ) ≤ (10 ^ bound * one : Nat) := Nat.cast_le.mpr hrange
    _ = 1 * 10 ^ bound * one := by push_cast; ring
    _ ≤ exactDecimal digits exponent := by
      refine mul_le_mul_of_nonneg_right ?_ (Nat.cast_nonneg _)
      exact mul_le_mul hone hpow (pow_nonneg (by norm_num) _) (Nat.cast_nonneg _)

/-- Digits over a power of ten that is far larger are rounded to zero. -/
theorem nearestDecimal_eq_zero {digits bound : Nat} {exponent : ℤ} (hrange : 4 * one < 10 ^ bound)
    (hexponent : exponent ≤ -(digits.log2 + bound : Nat)) : nearestDecimal digits exponent = 0 := by
  refine (rounds_nearestDecimal digits exponent).unique (.ofLess (exactDecimal_nonneg _ _) ?_)
  have hdigits : digits ≤ 2 * 10 ^ digits.log2 := by
    have hlog : digits < 2 ^ (digits.log2 + 1) := Nat.lt_log2_self
    have hten : 2 ^ digits.log2 ≤ 10 ^ digits.log2 := Nat.pow_le_pow_left (by decide) _
    rw [Nat.pow_add_one'] at hlog
    omega
  have hproduct : 2 * (digits * one) < 10 ^ (digits.log2 + bound) := by
    calc 2 * (digits * one) ≤ 2 * (2 * 10 ^ digits.log2 * one) :=
          Nat.mul_le_mul_left 2 (Nat.mul_le_mul_right _ hdigits)
      _ = 10 ^ digits.log2 * (4 * one) := by ring
      _ < 10 ^ digits.log2 * 10 ^ bound :=
          Nat.mul_lt_mul_of_pos_left hrange (Nat.pow_pos (by decide))
      _ = 10 ^ (digits.log2 + bound) := (Nat.pow_add ..).symm
  have hpos : (0 : ℚ) < 10 ^ (digits.log2 + bound) := by positivity
  have hproduct : 2 * (digits * one) < (10 : ℚ) ^ (digits.log2 + bound) := by
    exact_mod_cast hproduct
  have hpow : (10 : ℚ) ^ exponent ≤ (10 ^ (digits.log2 + bound))⁻¹ := by
    rw [← zpow_natCast, ← zpow_neg]
    exact zpow_le_zpow_right₀ (by norm_num) hexponent
  calc exactDecimal digits exponent
      ≤ digits * (10 ^ (digits.log2 + bound))⁻¹ * one :=
        mul_le_mul_of_nonneg_right (mul_le_mul_of_nonneg_left hpow (Nat.cast_nonneg _))
          (Nat.cast_nonneg _)
    _ = digits * one / 10 ^ (digits.log2 + bound) := by rw [div_eq_mul_inv]; ring
    _ < 1 / 2 := by
        rw [div_lt_iff₀ hpos]
        linarith

/-- An exponent brought into bounds gives the same magnitude or one that is beyond the range too. -/
theorem nearestDecimal_bounded (digits : Nat) (exponent : ℤ) :
    nearestDecimal digits (max (min exponent 400) (-(digits.log2 + 400 : Nat))) =
        nearestDecimal digits exponent ∨
      limit ≤ nearestDecimal digits (max (min exponent 400) (-(digits.log2 + 400 : Nat))) ∧
        limit ≤ nearestDecimal digits exponent := by
  have hhigh : limit ≤ 10 ^ 400 * one := by decide +kernel
  have hlow : 4 * one < 10 ^ 400 := by decide +kernel
  rcases lt_or_ge 400 exponent with habove | hle
  · have hbounded : max (min exponent 400) (-(digits.log2 + 400 : Nat)) = 400 := by omega
    rw [hbounded]
    rcases Nat.eq_zero_or_pos digits with rfl | hpos
    · left
      have h := rounds_nearestDecimal 0 400
      have h' := rounds_nearestDecimal 0 exponent
      rw [exactDecimal_zero] at h h'
      exact h.unique h'
    · right
      exact ⟨limit_le_nearestDecimal hhigh (by omega) le_rfl,
        limit_le_nearestDecimal hhigh (by omega) habove.le⟩
  · left
    rcases lt_or_ge exponent (-(digits.log2 + 400 : Nat)) with hbelow | hge
    · have hbounded : max (min exponent 400) (-(digits.log2 + 400 : Nat)) =
          -(digits.log2 + 400 : Nat) := by omega
      rw [hbounded, nearestDecimal_eq_zero hlow le_rfl, nearestDecimal_eq_zero hlow hbelow.le]
    · have hbounded : max (min exponent 400) (-(digits.log2 + 400 : Nat)) = exponent := by omega
      rw [hbounded]

/-- Digits times a power of ten are rounded correctly. -/
theorem correctlyRounded_ofDecimal (negative : Bool) (digits : Nat) (exponent : ℤ) :
    CorrectlyRounded negative (exactDecimal digits exponent) (ofDecimal negative digits exponent) := by
  have hrounds := rounds_nearestDecimal digits exponent
  have hbounded := nearestDecimal_bounded digits exponent
  unfold ofDecimal
  dsimp only
  split
  · rename_i hless
    rw [← hbounded.resolve_right fun h => absurd hless (Nat.not_lt.mpr h.1)] at hrounds
    exact .finite hrounds _
  · rename_i hbeyond
    refine .infinite hrounds ?_
    rcases hbounded with heq | h
    · rw [← heq]
      exact Nat.not_lt.mp hbeyond
    · exact h.2

end Binary64

end FluidSizing
