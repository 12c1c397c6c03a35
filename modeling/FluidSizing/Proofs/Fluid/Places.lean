import FluidSizing.Proofs.Fluid.Decimals

/-! The decimal places of written numbers. No decimal on a coarser grid than the shortest one is rounded to a
number, so a number that a decimal with some places is rounded to is written with at most as many
(`Binary64.places_formatNumber_le`). Scaled and rounded to a whole number, a number is such a decimal with five
places but for the last rounding, however large it is. So it is written as a canonical number with at most
five places, and is not finite where it cannot be scaled (`formatNumber_round5_canonical`). -/

namespace FluidSizing

namespace Text

def places (text : Text) : Nat := (text.dropWhile (· != '.')).tail.length

variable {whole fraction : Text}

theorem places_whole (h : IsDigits whole) : places whole = 0 := by
  rw [places, List.dropWhile_eq_nil_iff.mpr h.ne_point]
  rfl

theorem places_point (h : IsDigits whole) : places (whole ++ '.' :: fraction) = fraction.length := by
  rw [places, List.dropWhile_append_of_pos h.ne_point]
  rfl

theorem places_minus (text : Text) : places ('-' :: text) = places text := rfl

end Text

/-- The positional form has a place for each power of ten below the units. -/
theorem Decimal.places_positional (number : Decimal) :
    number.positional.places = (-number.exponent).toNat := by
  obtain ⟨n, exponent⟩ := number
  cases exponent with
  | ofNat e =>
      show (Text.ofNat n ++ List.replicate e '0').places = _
      rw [Text.places_whole ((Text.isDigits_ofNat n).append (Text.isDigits_zeros e))]
      exact (Int.toNat_of_nonpos (by simp)).symm
  | negSucc e =>
      obtain ⟨whole, fraction, heq, hall, -, hfraction, -⟩ := exists_withPoint n (e + 1)
      show (withPoint (Text.ofNat n) (e + 1)).places = _
      rw [heq, Text.places_point fun c hc => hall c (List.mem_append_left _ hc), hfraction]
      rfl

namespace Binary64

variable {units places : Nat} {n : ℤ} {x : Binary64}

/-- The grid of a decimal that is rounded to the magnitude is fine enough to write the magnitude. -/
theorem places_renderMagnitude_le {digits : Nat} (fits : Fits units)
    (h : Rounds (exactDecimal digits (-places)) units) : (renderMagnitude units).places ≤ places := by
  by_cases hzero : units = 0
  · rw [hzero]
    exact Nat.zero_le places
  · have hshortest : IsShortest units (shortest .upper units) := isShortest_shortest fits.2 hzero
    have hexponent := hshortest.exponent_le h
    rw [renderMagnitude, if_neg hzero, Decimal.places_positional]
    omega

theorem places_render_le (hx : x.isFinite = true) (h : RoundedTo (n / 10 ^ places) x) :
    x.render.places ≤ places := by
  obtain ⟨negative, magnitude, hnonneg, hexact, hrounded⟩ := h
  have hmagnitude : magnitude = n.natAbs / 10 ^ places := by
    calc magnitude = |(n : ℚ) / 10 ^ places| := by
          rw [hexact]
          cases negative <;> simp [abs_of_nonneg hnonneg]
      _ = |(n : ℚ)| / 10 ^ places := by rw [abs_div, abs_of_pos (by positivity : (0 : ℚ) < 10 ^ places)]
      _ = n.natAbs / 10 ^ places := by rw [Nat.cast_natAbs, Int.cast_abs]
  have hdecimal : magnitude * one = exactDecimal n.natAbs (-places) := by
    rw [hmagnitude, exactDecimal, zpow_neg, zpow_natCast, div_eq_mul_inv]
  rw [hdecimal] at hrounded
  cases hrounded with
  | infinite => cases hx
  | @finite units rounds fits =>
      have hplaces := places_renderMagnitude_le fits rounds
      cases negative with
      | false => exact hplaces
      | true => exact (Text.places_minus _).trans_le hplaces

/-- A number that a decimal with some places is rounded to is written with at most as many. -/
theorem places_formatNumber_le (hx : x.isFinite = true) (h : RoundedTo (n / 10 ^ places) x) :
    (formatNumber x).places ≤ places := by
  by_cases hzero : x = zero true
  · rw [hzero]
    exact Nat.zero_le places
  · rw [formatNumber, add_zero_of_ne hx hzero]
    exact places_render_le hx h

end Binary64

open Binary64

/-- A rounded number is not minus zero, so writing it adds zero in vain. -/
theorem formatNumber_round5 {x : Binary64} (hscaled : (x.mul roundingScale).isFinite = true) :
    formatNumber (round5 x) = (round5 x).render ∧ round5 x ≠ zero true := by
  obtain ⟨n, quotient, -, -, hfinite, hround⟩ := exists_round5 hscaled
  have hne : round5 x ≠ zero true := by
    rw [hround]
    exact add_zero_ne hfinite
  rw [formatNumber, add_zero_of_ne ((isFinite_round5 x).trans hscaled) hne]
  exact ⟨rfl, hne⟩

/-- A number that can be scaled is rounded and written as a canonical number with five decimal places at most,
never as minus zero, from which the rounded number is read; one that cannot be scaled is not. -/
theorem formatNumber_round5_canonical (x : Binary64) :
    (x.mul roundingScale).isFinite = true ↔
      Number.Plain (formatNumber (round5 x)) ∧ (formatNumber (round5 x)).places ≤ 5 ∧
        formatNumber (round5 x) ≠ ['-', '0'] ∧
        Number.read (formatNumber (round5 x)) = .ok (round5 x) := by
  constructor
  · intro hscaled
    have hfinite : (round5 x).isFinite = true := (isFinite_round5 x).trans hscaled
    obtain ⟨hwritten, hne⟩ := formatNumber_round5 hscaled
    have hplaces : (formatNumber (round5 x)).places ≤ 5 := by
      obtain ⟨n, quotient, -, hrounded, hquotient, hround⟩ := exists_round5 hscaled
      -- The decimal is rounded to the quotient: adding zero to it once is written as adding zero twice.
      have hsame : formatNumber (round5 x) = formatNumber quotient := by
        calc formatNumber (round5 x) = (round5 x).render := hwritten
          _ = (quotient.add (zero false)).render := by rw [hround]
          _ = formatNumber quotient := rfl
      rw [hsame]
      exact places_formatNumber_le hquotient hrounded
    rw [hwritten] at hplaces ⊢
    exact ⟨plain_render hfinite, hplaces, render_ne hfinite hne,
      Number.read_eq_ok_iff.mpr ⟨hfinite, hne, rfl⟩⟩
  · rintro ⟨-, -, -, hread⟩
    rw [← isFinite_round5]
    exact (Number.read_eq_ok_iff.mp hread).1

/-- A small negative number, and one whose scaled form has more than 53 bits before it is rounded. -/
example : formatNumber (round5 (ofDecimal true 1 (-6))) = ['0'] ∧
    formatNumber (round5 (ofDecimal false 98765432109876543 (-6))) = "98765432109.87654".toList := by
  decide +kernel

end FluidSizing
