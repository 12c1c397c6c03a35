import FluidSizing.Proofs.Fluid.Decimals

/-! A growing size at the ends of its range. The slope and the intercept of a line between whole sizes and
widths are close to the exact ones (`Line.between_close`), and so are the written decimals
(`Line.between_written_close`). So the written line goes through the two sizes but for a unit of the fifth
decimal place in the intercept and in the slope (`Line.between_through_ends`). -/

namespace FluidSizing

open Binary64

namespace Line

variable {minSize maxSize minWidth maxWidth : Nat}

def exactSlope (minSize maxSize minWidth maxWidth : Nat) : ℚ :=
  ((maxSize : ℚ) - minSize) / ((maxWidth : ℚ) - minWidth)

theorem sub_ofNat_spec {m n : Nat} (hm : m ≤ 10 ^ 5) (hn : n ≤ 10 ^ 5) :
    ((ofNat m).sub (ofNat n)).isFinite = true ∧ ((ofNat m).sub (ofNat n)).value = (m : ℚ) - n := by
  obtain ⟨hfinite, hvalue⟩ := ofNat_spec (Nat.le_trans hm (by decide) : m ≤ 2 ^ 53)
  obtain ⟨hfinite', hvalue'⟩ := ofNat_spec (Nat.le_trans hn (by decide) : n ≤ 2 ^ 53)
  have hrounded := roundedTo_sub hfinite hfinite'
  have hint : (ofNat m).value - (ofNat n).value = ((m : ℤ) - n : ℤ) := by
    rw [hvalue, hvalue']
    push_cast
    rfl
  rw [hint] at hrounded
  have hexact := hrounded.exact_int (by rw [abs_le]; omega)
  rwa [Int.cast_sub, Int.cast_natCast, Int.cast_natCast] at hexact

/-- The errors of the intercept and of the slope at one width. -/
theorem abs_line_sub_le {intercept slope exactIntercept exactSlope width size : ℚ}
    (hintercept : |intercept - exactIntercept| ≤ 1 / 10 ^ 5)
    (hslope : |slope - 100 * exactSlope| ≤ 1 / 10 ^ 5) (hwidth : 0 ≤ width)
    (hsize : exactIntercept + exactSlope * width = size) :
    |intercept + slope * width / 100 - size| ≤ 1 / 10 ^ 5 * (1 + width / 100) := by
  have hgrowth : |(slope - 100 * exactSlope) * (width / 100)| ≤ 1 / 10 ^ 5 * (width / 100) := by
    rw [abs_mul, abs_of_nonneg (by positivity : 0 ≤ width / 100)]
    exact mul_le_mul_of_nonneg_right hslope (by positivity)
  calc |intercept + slope * width / 100 - size|
      = |(intercept - exactIntercept) + (slope - 100 * exactSlope) * (width / 100)| := by
        rw [← hsize]
        ring_nf
    _ ≤ |intercept - exactIntercept| + |(slope - 100 * exactSlope) * (width / 100)| := abs_add_le _ _
    _ ≤ 1 / 10 ^ 5 * (1 + width / 100) := by linarith

/-- The errors of the slope count once for each pixel of the width. -/
theorem intercept_close (hmin : minSize ≤ 10 ^ 4) (hminWidth : minWidth ≤ 10 ^ 5) {slope : Binary64}
    (hfinite : slope.isFinite = true) {exact : ℚ} (hexact : |minSize - exact * minWidth| ≤ 2 * 10 ^ 9 - 1)
    (hclose : |slope.value - exact| ≤ 2 / 10 ^ 12) :
    (slope.mulAdd (ofNat minWidth).neg (ofNat minSize)).isFinite = true ∧
      |(slope.mulAdd (ofNat minWidth).neg (ofNat minSize)).value - (minSize - exact * minWidth)| ≤
        5 / 10 ^ 7 := by
  obtain ⟨hsize, hsizeValue⟩ := ofNat_spec (Nat.le_trans hmin (by decide) : minSize ≤ 2 ^ 53)
  obtain ⟨hwidth, hwidthValue⟩ := ofNat_spec (Nat.le_trans hminWidth (by decide) : minWidth ≤ 2 ^ 53)
  have hdrift : |(slope.value - exact) * minWidth| ≤ 2 / 10 ^ 7 := by
    have hwidthLe : (minWidth : ℚ) ≤ 10 ^ 5 := by exact_mod_cast hminWidth
    rw [abs_mul, Nat.abs_cast]
    calc |slope.value - exact| * minWidth
        ≤ 2 / 10 ^ 12 * 10 ^ 5 := mul_le_mul hclose hwidthLe (Nat.cast_nonneg _) (by norm_num)
      _ = 2 / 10 ^ 7 := by norm_num
  have hdrift := abs_le.mp hdrift
  have hbound : |slope.value * -minWidth + minSize| ≤ 2 * 10 ^ 9 := by
    have hexact := abs_le.mp hexact
    rw [abs_le]
    constructor <;> linarith
  have hrounded := roundedTo_mulAdd hfinite (isFinite_neg.trans hwidth) hsize
  rw [value_neg, hwidthValue, hsizeValue] at hrounded
  obtain ⟨hintercept, hnear⟩ := hrounded.close hbound (by norm_num)
    (show 2 * 10 ^ 9 / 2 ^ 53 + 1 / 10 ^ 100 ≤ (3 / 10 ^ 7 : ℚ) by norm_num)
  refine ⟨hintercept, ?_⟩
  have hnear := abs_le.mp hnear
  rw [abs_le]
  constructor <;> linarith

section

variable (hmin : minSize ≤ 10 ^ 4) (hmax : maxSize ≤ 10 ^ 4) (hminWidth : minWidth ≤ 10 ^ 5)
  (hmaxWidth : maxWidth ≤ 10 ^ 5) (hne : minWidth ≠ maxWidth)
include hmin hmax hminWidth hmaxWidth hne

omit hminWidth hmaxWidth in
theorem abs_exactSlope_le : |exactSlope minSize maxSize minWidth maxWidth| ≤ 10 ^ 4 := by
  have hwidths : (1 : ℚ) ≤ |(maxWidth : ℚ) - minWidth| := by
    have hint : (1 : ℤ) ≤ |(maxWidth : ℤ) - minWidth| := Int.one_le_abs (by omega)
    exact_mod_cast hint
  have hsizes : |(maxSize : ℚ) - minSize| ≤ 10 ^ 4 := by
    have hint : |(maxSize : ℤ) - minSize| ≤ 10 ^ 4 := by rw [abs_le]; omega
    exact_mod_cast hint
  rw [exactSlope, abs_div, div_le_iff₀ (by linarith)]
  nlinarith

omit hmaxWidth in
theorem abs_exactIntercept_le :
    |(minSize : ℚ) - exactSlope minSize maxSize minWidth maxWidth * minWidth| ≤ 2 * 10 ^ 9 - 1 := by
  have hproduct : |exactSlope minSize maxSize minWidth maxWidth * minWidth| ≤ 10 ^ 9 := by
    have hwidth : (minWidth : ℚ) ≤ 10 ^ 5 := by exact_mod_cast hminWidth
    rw [abs_mul, Nat.abs_cast]
    calc |exactSlope minSize maxSize minWidth maxWidth| * minWidth
        ≤ 10 ^ 4 * 10 ^ 5 :=
          mul_le_mul (abs_exactSlope_le hmin hmax hne) hwidth (Nat.cast_nonneg _) (by norm_num)
      _ = 10 ^ 9 := by norm_num
  have hsize : (minSize : ℚ) ≤ 10 ^ 4 := by exact_mod_cast hmin
  have hnonneg : (0 : ℚ) ≤ minSize := Nat.cast_nonneg _
  have hproduct := abs_le.mp hproduct
  rw [abs_le]
  constructor <;> linarith

/-- The line between whole sizes and widths is close to the exact one. -/
theorem between_close (baseFontSize : Binary64) :
    ∃ line, Line.between (ofNat minSize) (ofNat maxSize) ⟨ofNat minWidth, ofNat maxWidth, baseFontSize⟩ =
        some line ∧ line.slope.isFinite = true ∧ line.intercept.isFinite = true ∧
      |line.slope.value - exactSlope minSize maxSize minWidth maxWidth| ≤ 2 / 10 ^ 12 ∧
      |line.intercept.value - (minSize - exactSlope minSize maxSize minWidth maxWidth * minWidth)| ≤
        5 / 10 ^ 7 := by
  obtain ⟨hwidths, hwidthsValue⟩ := sub_ofNat_spec hmaxWidth hminWidth
  obtain ⟨hsizes, hsizesValue⟩ :=
    sub_ofNat_spec (Nat.le_trans hmax (by decide)) (Nat.le_trans hmin (by decide))
  have hzero : (maxWidth : ℚ) - minWidth ≠ 0 := by
    rw [sub_ne_zero]
    exact_mod_cast hne.symm
  have hdiffer : ((ofNat maxWidth).sub (ofNat minWidth)).isEqual (zero false) = false := by
    rw [isEqual_zero hwidths, hwidthsValue]
    exact decide_eq_false hzero
  have hrounded := roundedTo_div hsizes hwidths (hwidthsValue ▸ hzero)
  rw [hsizesValue, hwidthsValue] at hrounded
  obtain ⟨hfinite, hclose⟩ := hrounded.close (abs_exactSlope_le hmin hmax hne) (by norm_num)
    (show 10 ^ 4 / 2 ^ 53 + 1 / 10 ^ 100 ≤ (2 / 10 ^ 12 : ℚ) by norm_num)
  generalize hquotient :
    ((ofNat maxSize).sub (ofNat minSize)).div ((ofNat maxWidth).sub (ofNat minWidth)) = slope at hfinite hclose
  obtain ⟨hintercept, hnear⟩ := intercept_close hmin hminWidth hfinite
    (abs_exactIntercept_le hmin hmax hminWidth hne) hclose
  refine ⟨⟨slope, slope.mulAdd (ofNat minWidth).neg (ofNat minSize)⟩, ?_, hfinite, hintercept, hclose, hnear⟩
  simp [between, hdiffer, hquotient]

/-- The written decimals are close to the exact intercept and to the exact slope in hundredths. -/
theorem between_written_close (baseFontSize : Binary64) :
    ∃ line, Line.between (ofNat minSize) (ofNat maxSize) ⟨ofNat minWidth, ofNat maxWidth, baseFontSize⟩ =
        some line ∧
      Number.Plain (formatNumber line.roundedIntercept) ∧
      Number.Plain (formatNumber line.slopePerHundredth) ∧
      |(formatNumber line.roundedIntercept).signedValue -
        (minSize - exactSlope minSize maxSize minWidth maxWidth * minWidth)| ≤ 1 / 10 ^ 5 ∧
      |(formatNumber line.slopePerHundredth).signedValue -
        100 * exactSlope minSize maxSize minWidth maxWidth| ≤ 1 / 10 ^ 5 := by
  obtain ⟨line, hline, hslopeFinite, hinterceptFinite, hslope, hintercept⟩ :=
    between_close hmin hmax hminWidth hmaxWidth hne baseFontSize
  have hexactIntercept := abs_le.mp (abs_exactIntercept_le hmin hmax hminWidth hne)
  have hexactSlope := abs_le.mp (abs_exactSlope_le hmin hmax hne)
  have hslope := abs_le.mp hslope
  have hintercept := abs_le.mp hintercept
  obtain ⟨hhundred, hhundredValue⟩ := ofNat_spec (by decide : 100 ≤ 2 ^ 53)
  have hrounded := roundedTo_mul hslopeFinite hhundred
  rw [hhundredValue] at hrounded
  obtain ⟨hfinite, hscaled⟩ := hrounded.close
    (show |line.slope.value * (100 : Nat)| ≤ 2 * 10 ^ 6 by
      rw [abs_le]
      push_cast
      constructor <;> linarith) (by norm_num)
    (show 2 * 10 ^ 6 / 2 ^ 53 + 1 / 10 ^ 100 ≤ (3 / 10 ^ 10 : ℚ) by norm_num)
  have hscaled := abs_le.mp hscaled
  push_cast at hscaled
  obtain ⟨hplain, hwritten⟩ := formatNumber_round5_close hinterceptFinite
    (by rw [abs_le]; constructor <;> linarith)
  obtain ⟨hplain', hwritten'⟩ := formatNumber_round5_close hfinite
    (by rw [abs_le]; constructor <;> linarith)
  have hwritten := abs_le.mp hwritten
  have hwritten' := abs_le.mp hwritten'
  refine ⟨line, hline, hplain, hplain', ?_, ?_⟩
  · rw [roundedIntercept, abs_le]
    constructor <;> linarith
  · rw [slopePerHundredth, abs_le]
    constructor <;> linarith

/-- The written line through two sizes goes through both but for a unit of the fifth decimal place in the
intercept and in the slope. -/
theorem between_through_ends (baseFontSize : Binary64) :
    ∃ (line : Line) (intercept slope : Text),
      Line.between (ofNat minSize) (ofNat maxSize) ⟨ofNat minWidth, ofNat maxWidth, baseFontSize⟩ =
        some line ∧
      (FluidSize.growing line).render =
        "calc(".toList ++ intercept ++ "px + ".toList ++ slope ++ "vw)".toList ∧
      Number.Plain intercept ∧ Number.Plain slope ∧
      |intercept.signedValue + slope.signedValue * minWidth / 100 - minSize| ≤
        1 / 10 ^ 5 * (1 + minWidth / 100) ∧
      |intercept.signedValue + slope.signedValue * maxWidth / 100 - maxSize| ≤
        1 / 10 ^ 5 * (1 + maxWidth / 100) := by
  obtain ⟨line, hline, hplain, hplain', hintercept, hslope⟩ :=
    between_written_close hmin hmax hminWidth hmaxWidth hne baseFontSize
  have hzero : (maxWidth : ℚ) - minWidth ≠ 0 := by
    rw [sub_ne_zero]
    exact_mod_cast hne.symm
  have hrise : exactSlope minSize maxSize minWidth maxWidth * ((maxWidth : ℚ) - minWidth) =
      (maxSize : ℚ) - minSize := div_mul_cancel₀ _ hzero
  refine ⟨line, _, _, hline, rfl, hplain, hplain', ?_, ?_⟩
  · exact abs_line_sub_le hintercept hslope (Nat.cast_nonneg _) (by ring)
  · exact abs_line_sub_le hintercept hslope (Nat.cast_nonneg _) (by linarith)

end

/-- A size that shrinks, with the larger width first. -/
theorem between_through_ends_reversed :
    let line := Line.between (ofNat 16) (ofNat 24) ⟨ofNat 1537, ofNat 320, .nan⟩
    16 ≤ 10 ^ 4 ∧ 24 ≤ 10 ^ 4 ∧ 1537 ≤ 10 ^ 5 ∧ 320 ≤ 10 ^ 5 ∧ 1537 ≠ 320 ∧
      line.map (fun line => (FluidSize.growing line).render) =
        some "calc(26.10353px + -0.65735vw)".toList ∧
      ∃ (found : Line) (intercept slope : Text), line = some found ∧
        (FluidSize.growing found).render =
          "calc(".toList ++ intercept ++ "px + ".toList ++ slope ++ "vw)".toList ∧
        Number.Plain intercept ∧ Number.Plain slope ∧
        |intercept.signedValue + slope.signedValue * (1537 : Nat) / 100 - (16 : Nat)| ≤
          1 / 10 ^ 5 * (1 + (1537 : Nat) / 100) ∧
        |intercept.signedValue + slope.signedValue * (320 : Nat) / 100 - (24 : Nat)| ≤
          1 / 10 ^ 5 * (1 + (320 : Nat) / 100) := by
  intro line
  exact ⟨by decide, by decide, by decide, by decide, by decide, by decide +kernel,
    between_through_ends (by decide) (by decide) (by decide) (by decide) (by decide) .nan⟩

end Line

end FluidSizing
