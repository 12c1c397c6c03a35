import FluidSizing.Fluid.Line
import FluidSizing.Proofs.Binary64.Value
import FluidSizing.Proofs.Number

/-! Written decimals. The value of a written number is rounded to the number itself (`roundedTo_render`), so
the print is as close to it as any rounding (`formatNumber_close`). Rounding to five decimal places leaves a
whole number over a power of ten, rounded once (`exists_round5`); the result is finite just if the scaled
number is (`isFinite_round5`), and little more than half a unit of the fifth place away from the number if that
is not too large (`round5_close`). -/

namespace FluidSizing

/-- The value of a decimal that may have a minus. -/
def Text.signedValue : Text → ℚ
  | '-' :: rest => -decimalValue rest
  | text => decimalValue text

namespace Binary64

variable {exact bound error : ℚ} {x : Binary64}

/-- A number is close to every value that is rounded to it. -/
theorem RoundedTo.close_value (h : RoundedTo exact x) (hx : x.isFinite = true) (hvalue : |x.value| ≤ bound)
    (herror : bound / 2 ^ 52 + 1 / 10 ^ 99 ≤ error) : |exact - x.value| ≤ error := by
  have hclose := (h.abs_sub_le hx).trans (add_le_add_right half_unit_le _)
  have hnonneg := abs_nonneg x.value
  have htriangle : |exact| ≤ |x.value| + |x.value - exact| := by
    have habs := abs_sub_abs_le_abs_sub exact x.value
    rw [abs_sub_comm] at habs
    linarith
  rw [abs_sub_comm]
  norm_num at hclose herror ⊢
  linarith

/-- The value of a written number is rounded to the number. -/
theorem roundedTo_render (hx : x.isFinite = true) : RoundedTo x.render.signedValue x := by
  cases x <;> cases hx
  rename_i negative units fits
  obtain ⟨hplain, hrounds⟩ := renderMagnitude_spec fits
  refine ⟨negative, (renderMagnitude units).decimalValue, ?_, ?_, .finite hrounds fits⟩
  · unfold Text.decimalValue
    positivity
  · obtain ⟨first, rest, heq, hfirst⟩ := hplain.exists_cons
    rw [render_finite]
    cases negative with
    | true => rfl
    | false =>
        have hminus : first ≠ '-' := by
          rintro rfl
          exact absurd hfirst (by decide)
        simp [sign, heq, Text.signedValue, hminus]

end Binary64

open Binary64

variable {x : Binary64}

theorem roundingScale_spec : roundingScale.isFinite = true ∧ roundingScale.value = 100000 := by
  have hspec := ofNat_spec (n := 100000) (by decide)
  exact_mod_cast hspec

/-- A number that can be scaled is rounded to a decimal with five places: the whole number nearest to the scaled
one over the scale, a quotient that is rounded once and to which zero is added. -/
theorem exists_round5 (hscaled : (x.mul roundingScale).isFinite = true) :
    ∃ (n : ℤ) (quotient : Binary64), |n - (x.mul roundingScale).value| ≤ 1 / 2 ∧
      RoundedTo (n / 10 ^ 5) quotient ∧ quotient.isFinite = true ∧
      round5 x = quotient.add (zero false) := by
  obtain ⟨hscale, hvalue⟩ := roundingScale_spec
  obtain ⟨hwhole, ⟨n, hn⟩, hnearest⟩ := roundHalfAway_spec hscaled
  have hne : roundingScale.value ≠ 0 := by
    rw [hvalue]
    norm_num
  have hrounded := roundedTo_div hwhole hscale hne
  obtain ⟨bits, hbits⟩ : ∃ bits, bits + 16 = 1024 := ⟨1008, rfl⟩
  have hquotient : |(x.mul roundingScale).roundHalfAway.value / roundingScale.value| ≤ 2 ^ bits := by
    rw [hvalue, abs_div, div_le_iff₀ (by norm_num)]
    refine (abs_value_le hwhole hbits).trans (mul_le_mul_of_nonneg_left ?_ (by positivity))
    norm_num
  obtain ⟨hfinite, -⟩ := hrounded.upTo (by omega) hquotient
  have hplaces : (100000 : ℚ) = 10 ^ 5 := by norm_num
  rw [hn, hvalue, hplaces] at hrounded
  rw [hn] at hnearest
  exact ⟨n, _, hnearest, hrounded, hfinite, rfl⟩

/-- A number of up to ten digits is rounded to five decimal places. -/
theorem round5_close (hx : x.isFinite = true) (hsmall : |x.value| ≤ 2 * 10 ^ 9) :
    (round5 x).isFinite = true ∧ |(round5 x).value - x.value| ≤ 6 / 10 ^ 6 := by
  obtain ⟨hscale, hvalue⟩ := roundingScale_spec
  have hsmall := abs_le.mp hsmall
  obtain ⟨hfinite, hproduct⟩ : (x.mul roundingScale).isFinite = true ∧
      |(x.mul roundingScale).value - x.value * 100000| ≤ 1 / 40 := by
    have hexact : |x.value * 100000| ≤ 2 * 10 ^ 14 := by
      rw [abs_le]
      constructor <;> linarith
    rw [← hvalue] at hexact ⊢
    exact (roundedTo_mul hx hscale).close hexact (by norm_num) (by norm_num)
  obtain ⟨n, quotient, hnearest, hrounded, hquotient, hround⟩ := exists_round5 hfinite
  have hproduct := abs_le.mp hproduct
  have hnearest := abs_le.mp hnearest
  have hexact : |(n : ℚ) / 10 ^ 5| ≤ 3 * 10 ^ 9 := by
    rw [abs_le]
    constructor <;> linarith
  obtain ⟨-, hclose⟩ := hrounded.close hexact (by norm_num)
    (show 3 * 10 ^ 9 / 2 ^ 53 + 1 / 10 ^ 100 ≤ (4 / 10 ^ 7 : ℚ) by norm_num)
  have hclose := abs_le.mp hclose
  obtain ⟨hzero, hsame⟩ := add_zero_spec hquotient false
  rw [hround, hsame]
  refine ⟨hzero, ?_⟩
  rw [abs_le]
  constructor <;> linarith

/-- Rounding has a finite result just if the number can be scaled. -/
theorem isFinite_round5 (x : Binary64) : (round5 x).isFinite = (x.mul roundingScale).isFinite := by
  cases hscaled : (x.mul roundingScale).isFinite with
  | true =>
      obtain ⟨n, quotient, -, -, hfinite, hround⟩ := exists_round5 hscaled
      rw [hround]
      exact (add_zero_spec hfinite false).1
  | false =>
      obtain ⟨hscale, -⟩ := roundingScale_spec
      rw [round5]
      generalize x.mul roundingScale = scaled at hscaled ⊢
      cases hscaleCases : roundingScale with
      | finite =>
          cases scaled with
          | nan => rfl
          | infinity => rfl
          | finite => cases hscaled
      | _ => rw [hscaleCases] at hscale; cases hscale

/-- A written number of up to ten digits is plain, and its value is close to the number. -/
theorem formatNumber_close (hx : x.isFinite = true) (hsmall : |x.value| ≤ 3 * 10 ^ 9) :
    Number.Plain (formatNumber x) ∧ |(formatNumber x).signedValue - x.value| ≤ 7 / 10 ^ 7 := by
  obtain ⟨hfinite, hsame⟩ := add_zero_spec hx false
  have hclose := (roundedTo_render hfinite).close_value hfinite (hsame ▸ hsmall)
    (show 3 * 10 ^ 9 / 2 ^ 52 + 1 / 10 ^ 99 ≤ (7 / 10 ^ 7 : ℚ) by norm_num)
  rw [hsame] at hclose
  exact ⟨plain_render hfinite, hclose⟩

/-- A number is written with five decimal places at most, but for the last digits of the number. -/
theorem formatNumber_round5_close (hx : x.isFinite = true) (hsmall : |x.value| ≤ 2 * 10 ^ 9) :
    Number.Plain (formatNumber (round5 x)) ∧
      |(formatNumber (round5 x)).signedValue - x.value| ≤ 7 / 10 ^ 6 := by
  obtain ⟨hfinite, hround⟩ := round5_close hx hsmall
  have hround := abs_le.mp hround
  have hsmall := abs_le.mp hsmall
  obtain ⟨hplain, hclose⟩ := formatNumber_close hfinite (by rw [abs_le]; constructor <;> linarith)
  have hclose := abs_le.mp hclose
  refine ⟨hplain, ?_⟩
  rw [abs_le]
  constructor <;> linarith

end FluidSizing
