import FluidSizing.Binary64.Basic
import FluidSizing.Proofs.Binary64.Nearest
import Mathlib.Data.Rat.Floor
import Mathlib.Tactic.NormNum

/-! The values of numbers and of what the operations make of them. `RoundedTo` says that a number is the one
that an exact value is rounded to; the sum, the product, the quotient and the product with addition of
finite numbers are what the exact results are rounded to. One rounding keeps a value that is a number
(`RoundedTo.exact_of_precise`) and stays close to every other (`RoundedTo.close`). -/

namespace FluidSizing

namespace Binary64

def value : Binary64 → ℚ
  | finite negative units _ => signed negative units / one
  | _ => 0

/-- The number that an exact value is rounded to; a zero may have either sign. -/
def RoundedTo (exact : ℚ) (x : Binary64) : Prop :=
  ∃ (negative : Bool) (magnitude : ℚ), 0 ≤ magnitude ∧
    exact = (if negative then -magnitude else magnitude) ∧
    CorrectlyRounded negative (magnitude * one) x

/-- A finite number of a magnitude up to a power of two. -/
structure UpTo (n : Nat) (x : Binary64) : Prop where
  finite : x.isFinite = true
  le : |x.value| ≤ 2 ^ n

variable {exact bound error : ℚ} {units m n : Nat} {x y z : Binary64}

/-! One and the limit are powers of two. Their exponents stay variables, so that no power is computed. -/

theorem exists_one_eq : ∃ places, places = 1074 ∧ one = 2 ^ places := ⟨_, rfl, one.eq_1.trans Nat.pow_eq⟩

theorem exists_limit_eq : ∃ top, top = 1024 ∧ limit = 2 ^ top * one := by
  obtain ⟨top, htop⟩ : ∃ top, top = 1024 := ⟨_, rfl⟩
  obtain ⟨places, hplaces, hone⟩ := exists_one_eq
  have hsum : 2098 = top + places := by omega
  refine ⟨top, htop, ?_⟩
  rw [hone, ← Nat.pow_add, ← hsum]
  exact limit.eq_1.trans Nat.pow_eq

attribute [local irreducible] one limit

theorem cast_one_pos : (0 : ℚ) < one := Nat.cast_pos.mpr one_pos

theorem cast_signed (negative : Bool) (units : Nat) :
    (signed negative units : ℚ) = if negative then -(units : ℚ) else units := by
  cases negative <;> simp [signed]

theorem abs_value (negative : Bool) (fits : Fits units) : |(finite negative units fits).value| = units / one := by
  rw [value, cast_signed, abs_div, abs_of_pos cast_one_pos]
  cases negative <;> simp

/-! The error of one rounding. -/

/-- A last place is one, or small beside the magnitude. -/
theorem lastPlace_le (units : Nat) : 2 ^ 52 * lastPlace units ≤ units + 2 ^ 52 := by
  by_cases hsmall : units.log2 ≤ 52
  · rw [lastPlace, Nat.sub_eq_zero_of_le hsmall]
    omega
  · have hne : units ≠ 0 := by
      rintro rfl
      simp at hsmall
    have hpow : 2 ^ 52 * lastPlace units = 2 ^ units.log2 := by
      rw [lastPlace, ← Nat.pow_add]
      congr 1
      omega
    have hle := Nat.log2_self_le hne
    omega

/-- The precise magnitudes on both sides of an exact one are a last place apart, so the closer of them is at
most half of that away. -/
theorem Rounds.abs_sub_le (h : Rounds exact units) (hnonneg : 0 ≤ exact) :
    |(units : ℚ) - exact| ≤ exact / 2 ^ 53 + 1 / 2 := by
  obtain ⟨whole, hwhole⟩ : ∃ whole, whole = ⌊exact⌋₊ := ⟨_, rfl⟩
  have hfloor : (whole : ℚ) ≤ exact := hwhole ▸ Nat.floor_le hnonneg
  have hless : exact < whole + 1 := hwhole ▸ Nat.lt_floor_add_one exact
  obtain ⟨count, hcount⟩ : ∃ count, count = whole / lastPlace whole := ⟨_, rfl⟩
  have hbits : count < 2 ^ 53 := by
    rw [hcount, Nat.div_lt_iff_lt_mul (lastPlace_pos _)]
    exact lt_mul_lastPlace _
  have hlower : (count * lastPlace whole : Nat) ≤ exact :=
    (Nat.cast_le.mpr (hcount ▸ Nat.div_mul_le_self _ _)).trans hfloor
  have hupper : exact ≤ ((count + 1) * lastPlace whole : Nat) := by
    have hnext : whole + 1 ≤ (count + 1) * lastPlace whole := by
      rw [hcount, Nat.add_one_mul]
      exact Nat.lt_div_mul_add (lastPlace_pos _)
    exact hless.le.trans (by exact_mod_cast hnext)
  have hprecise : ∀ k ≤ 2 ^ 53, Precise (k * lastPlace whole) := fun _ hk => precise_mul hk
  have hbelow := h.closest _ (hprecise count hbits.le)
  have habove := h.closest _ (hprecise (count + 1) hbits)
  rw [abs_of_nonpos (sub_nonpos.mpr hlower)] at hbelow
  rw [abs_of_nonneg (sub_nonneg.mpr hupper)] at habove
  have hplace : (2 ^ 52 * lastPlace whole : ℚ) ≤ whole + 2 ^ 52 := by
    exact_mod_cast lastPlace_le whole
  push_cast at hbelow habove
  linarith

theorem two_pow_mul_one_lt (hn : n < 1024) : 2 ^ n * one < limit := by
  obtain ⟨top, htop, hlimit⟩ := exists_limit_eq
  rw [hlimit]
  exact Nat.mul_lt_mul_of_pos_right (Nat.pow_lt_pow_right (by decide) (htop ▸ hn)) one_pos

/-- Powers of two in units are precise. -/
theorem precise_two_pow_mul_one (n : Nat) : Precise (2 ^ n * one) := by
  obtain ⟨places, -, hone⟩ := exists_one_eq
  rw [hone, ← Nat.pow_add]
  exact precise_two_pow _

theorem half_unit_le : 1 / 2 / (one : ℚ) ≤ 1 / 10 ^ 100 := by
  have hone : 10 ^ 100 ≤ 2 * one := by decide +kernel
  have honeq : (10 : ℚ) ^ 100 ≤ 2 * one := by exact_mod_cast hone
  rw [div_div]
  exact one_div_le_one_div_of_le (by positivity) honeq

namespace RoundedTo

/-- A value up to a power of two in the range is rounded to a finite number up to it. -/
theorem upTo (h : RoundedTo exact x) (hn : n < 1024) (hexact : |exact| ≤ 2 ^ n) : x.UpTo n := by
  obtain ⟨negative, magnitude, hnonneg, rfl, hrounded⟩ := h
  have hmagnitude : magnitude ≤ 2 ^ n := by
    cases negative <;> simpa [abs_of_nonneg hnonneg] using hexact
  have hle : magnitude * one ≤ (2 ^ n * one : Nat) := by
    push_cast
    exact mul_le_mul_of_nonneg_right hmagnitude cast_one_pos.le
  cases hrounded with
  | @finite units rounds fits =>
      refine ⟨rfl, ?_⟩
      have hunits := rounds.le_of_le (.ofPrecise (precise_two_pow_mul_one n)) hle
      rw [abs_value, div_le_iff₀ cast_one_pos]
      exact_mod_cast hunits
  | @infinite units rounds beyond =>
      exfalso
      have hunits := rounds.le_of_le (.ofPrecise (precise_two_pow_mul_one n)) hle
      exact absurd (Nat.le_trans beyond hunits) (Nat.not_le.mpr (two_pow_mul_one_lt hn))

/-- A value of at least a power of two is rounded to a number of at least that power. -/
theorem le_abs (h : RoundedTo exact x) (hx : x.isFinite = true) (hn : n ≤ 1074)
    (hexact : 1 / 2 ^ n ≤ |exact|) : 1 / 2 ^ n ≤ |x.value| := by
  obtain ⟨negative, magnitude, hnonneg, rfl, hrounded⟩ := h
  have hmagnitude : 1 / 2 ^ n ≤ magnitude := by
    cases negative <;> simpa [abs_of_nonneg hnonneg] using hexact
  obtain ⟨rest, hone⟩ : ∃ rest, one = 2 ^ n * 2 ^ rest := by
    obtain ⟨places, hplaces, hone⟩ := exists_one_eq
    refine ⟨places - n, ?_⟩
    rw [hone, ← Nat.pow_add, Nat.add_sub_cancel' (by omega)]
  have honeq : (one : ℚ) = 2 ^ n * 2 ^ rest := by exact_mod_cast hone
  have hle : ((2 ^ rest : Nat) : ℚ) ≤ magnitude * one := by
    have hscaled := mul_le_mul_of_nonneg_right hmagnitude cast_one_pos.le
    rw [honeq] at hscaled ⊢
    push_cast
    calc (2 : ℚ) ^ rest = 1 / 2 ^ n * (2 ^ n * 2 ^ rest) := by field_simp
      _ ≤ magnitude * (2 ^ n * 2 ^ rest) := hscaled
  cases hrounded with
  | infinite => cases hx
  | @finite units rounds fits =>
      have hunits := (Rounds.ofPrecise (precise_two_pow rest)).le_of_le rounds hle
      have hunitsq : (2 : ℚ) ^ rest ≤ units := by exact_mod_cast hunits
      rw [abs_value, le_div_iff₀ cast_one_pos, honeq]
      calc 1 / 2 ^ n * (2 ^ n * 2 ^ rest) = (2 : ℚ) ^ rest := by field_simp
        _ ≤ units := hunitsq

/-- One rounding changes a value by at most one part in 2 to the power 53, or by half a unit. -/
theorem abs_sub_le (h : RoundedTo exact x) (hx : x.isFinite = true) :
    |x.value - exact| ≤ |exact| / 2 ^ 53 + 1 / 2 / one := by
  obtain ⟨negative, magnitude, hnonneg, rfl, hrounded⟩ := h
  have hone := cast_one_pos
  cases hrounded with
  | infinite => cases hx
  | @finite units rounds fits =>
      have hunits := rounds.abs_sub_le (mul_nonneg hnonneg hone.le)
      have hscaled : |(units : ℚ) / one - magnitude| ≤ magnitude / 2 ^ 53 + 1 / 2 / one := by
        have hdist : (units : ℚ) / one - magnitude = (units - magnitude * one) / one := by
          field_simp
        rw [hdist, abs_div, abs_of_pos hone]
        calc |(units : ℚ) - magnitude * one| / one
            ≤ (magnitude * one / 2 ^ 53 + 1 / 2) / one :=
              div_le_div_of_nonneg_right hunits hone.le
          _ = magnitude / 2 ^ 53 + 1 / 2 / one := by field_simp
      rw [value, cast_signed]
      cases negative with
      | false => simpa [abs_of_nonneg hnonneg] using hscaled
      | true =>
          simp only [if_true, abs_neg, abs_of_nonneg hnonneg]
          rw [neg_div, neg_sub_neg, abs_sub_comm]
          exact hscaled

/-- A value in the range is rounded to a finite number, which is close to it. -/
theorem close (h : RoundedTo exact x) (hexact : |exact| ≤ bound) (hbound : bound ≤ 2 ^ 100)
    (herror : bound / 2 ^ 53 + 1 / 10 ^ 100 ≤ error) :
    x.isFinite = true ∧ |x.value - exact| ≤ error := by
  obtain ⟨hfinite, -⟩ := h.upTo (by decide) (hexact.trans hbound)
  refine ⟨hfinite, (h.abs_sub_le hfinite).trans (le_trans ?_ herror)⟩
  exact add_le_add (div_le_div_of_nonneg_right hexact (by positivity)) half_unit_le

/-- A value that is a number is rounded to itself. -/
theorem exact_of_precise (h : RoundedTo exact x) (hexact : |exact| * one = units) (hfits : Fits units) :
    x.isFinite = true ∧ x.value = exact := by
  obtain ⟨negative, magnitude, hnonneg, rfl, hrounded⟩ := h
  have hmagnitude : magnitude * one = units := by
    rw [← hexact]
    cases negative <;> simp [abs_of_nonneg hnonneg]
  rw [hmagnitude] at hrounded
  rw [hrounded.unique (.finite (.ofPrecise hfits.2) hfits)]
  refine ⟨rfl, ?_⟩
  have hdiv : (units : ℚ) / one = magnitude := by
    rw [← hmagnitude, mul_div_cancel_right₀ _ cast_one_pos.ne']
  rw [value, cast_signed]
  cases negative with
  | false => simpa using hdiv
  | true => simpa [neg_div] using hdiv

theorem eq_value (h : RoundedTo x.value y) (hx : x.isFinite = true) :
    y.isFinite = true ∧ y.value = x.value := by
  cases x with
  | nan => cases hx
  | infinity => cases hx
  | finite negative units fits =>
      refine h.exact_of_precise ?_ fits
      rw [abs_value, div_mul_cancel₀ _ cast_one_pos.ne']

end RoundedTo

theorem fits_mul_one (h : n ≤ 2 ^ 53) : Fits (n * one) := by
  constructor
  · exact Nat.lt_of_le_of_lt (Nat.mul_le_mul_right one h) (two_pow_mul_one_lt (by decide))
  · obtain ⟨places, -, hone⟩ := exists_one_eq
    rw [hone]
    exact precise_mul h

/-- Whole numbers of up to 53 bits are numbers. -/
theorem RoundedTo.exact_int {n : ℤ} (h : RoundedTo n x) (hn : |n| ≤ 2 ^ 53) :
    x.isFinite = true ∧ x.value = n := by
  have hbits : n.natAbs ≤ 2 ^ 53 := by
    have habs := Int.abs_eq_natAbs n
    omega
  refine h.exact_of_precise ?_ (fits_mul_one hbits)
  rw [Nat.cast_mul, Nat.cast_natAbs, Int.cast_abs]

/-! What the operations round. -/

/-- A magnitude that the format holds is rounded to itself. -/
theorem ofRatio_one (negative : Bool) (fits : Fits units) :
    ofRatio negative units 1 = finite negative units fits := by
  have hrounded := correctlyRounded_ofRatio negative units Nat.one_pos
  rw [Nat.cast_one, div_one] at hrounded
  exact hrounded.unique (.finite (.ofPrecise fits.2) fits)

theorem roundedTo_ofRatio (negative : Bool) (num : Nat) {den : Nat} (hden : 0 < den) :
    RoundedTo (signed negative num / (den * one : Nat)) (ofRatio negative num den) := by
  refine ⟨negative, num / (den * one : Nat), div_nonneg (Nat.cast_nonneg _) (Nat.cast_nonneg _),
    ?_, ?_⟩
  · rw [cast_signed]
    cases negative <;> simp [neg_div]
  · have hone := cast_one_pos.ne'
    have hmul : (num : ℚ) / (den * one : Nat) * one = num / den := by
      push_cast
      field_simp
    rw [hmul]
    exact correctlyRounded_ofRatio negative num hden

theorem roundedTo_ofSignedRatio (zeroNegative : Bool) (num : ℤ) {den : Nat} (hden : 0 < den) :
    RoundedTo (num / (den * one : Nat)) (ofSignedRatio zeroNegative num den) := by
  rw [ofSignedRatio]
  split
  · rename_i hzero
    refine ⟨zeroNegative, 0, le_rfl, by simp [hzero], ?_⟩
    rw [zero_mul]
    exact .finite (.ofLess le_rfl (by norm_num)) _
  · have hsigned : signed (num < 0) num.natAbs = num := by
      rcases lt_or_ge num 0 with hneg | hnonneg
      · simp only [signed, hneg, decide_true, if_true]
        omega
      · simp only [signed, not_lt.mpr hnonneg, decide_false, Bool.false_eq_true, if_false]
        omega
    have hrounded := roundedTo_ofRatio (num < 0) num.natAbs hden
    rwa [hsigned] at hrounded

section

variable (hx : x.isFinite = true) (hy : y.isFinite = true)
include hx hy

theorem roundedTo_add : RoundedTo (x.value + y.value) (x.add y) := by
  cases x <;> cases hx
  cases y <;> cases hy
  rename_i s a _ t b _
  have hrounded := roundedTo_ofSignedRatio (s && t) (signed s a + signed t b) Nat.one_pos
  have hsum : ((signed s a + signed t b : ℤ) : ℚ) / (1 * one : Nat) =
      signed s a / one + signed t b / one := by
    push_cast
    ring
  rw [hsum] at hrounded
  exact hrounded

theorem roundedTo_mul : RoundedTo (x.value * y.value) (x.mul y) := by
  cases x <;> cases hx
  cases y <;> cases hy
  rename_i s a _ t b _
  have hrounded := roundedTo_ofRatio (s != t) (a * b) one_pos
  have hproduct : (signed (s != t) (a * b) : ℚ) / (one * one : Nat) =
      signed s a / one * (signed t b / one) := by
    simp only [cast_signed]
    push_cast
    cases s <;> cases t <;> simp <;> ring
  rw [hproduct] at hrounded
  exact hrounded

theorem roundedTo_div (hzero : y.value ≠ 0) : RoundedTo (x.value / y.value) (x.div y) := by
  cases x <;> cases hx
  cases y <;> cases hy
  rename_i s a _ t b _
  have hone := cast_one_pos.ne'
  have hb : b ≠ 0 := by
    rintro rfl
    simp [value, cast_signed] at hzero
  have hrounded := roundedTo_ofRatio (s != t) (a * one) (Nat.pos_of_ne_zero hb)
  have hquotient : (signed (s != t) (a * one) : ℚ) / (b * one : Nat) =
      signed s a / one / (signed t b / one) := by
    simp only [cast_signed]
    push_cast
    cases s <;> cases t <;> simp <;> field_simp
  rw [hquotient] at hrounded
  rw [div, if_neg hb]
  exact hrounded

theorem roundedTo_mulAdd (hz : z.isFinite = true) :
    RoundedTo (x.value * y.value + z.value) (x.mulAdd y z) := by
  cases x <;> cases hx
  cases y <;> cases hy
  cases z <;> cases hz
  rename_i s a _ t b _ u c _
  have hone := cast_one_pos.ne'
  have hrounded := roundedTo_ofSignedRatio ((s != t) && u)
    (signed (s != t) (a * b) + signed u (c * one)) one_pos
  have hsum : ((signed (s != t) (a * b) + signed u (c * one) : ℤ) : ℚ) / (one * one : Nat) =
      signed s a / one * (signed t b / one) + signed u c / one := by
    push_cast
    simp only [cast_signed]
    push_cast
    cases s <;> cases t <;> cases u <;> simp <;> field_simp
  rw [hsum] at hrounded
  exact hrounded

end

theorem isFinite_neg : x.neg.isFinite = x.isFinite := by cases x <;> rfl

theorem value_neg : x.neg.value = -x.value := by
  cases x with
  | finite negative units fits =>
      simp only [neg, value, cast_signed]
      cases negative <;> simp [neg_div]
  | _ => simp [neg, value]

theorem roundedTo_sub (hx : x.isFinite = true) (hy : y.isFinite = true) :
    RoundedTo (x.value - y.value) (x.sub y) := by
  rw [sub_eq_add_neg, ← value_neg]
  exact roundedTo_add hx (isFinite_neg.trans hy)

theorem roundedTo_ofNat (n : Nat) : RoundedTo n (ofNat n) := by
  have hrounded := roundedTo_ofRatio false (n * one) Nat.one_pos
  have hvalue : (signed false (n * one) : ℚ) / (1 * one : Nat) = n := by
    have hone := cast_one_pos.ne'
    rw [cast_signed]
    push_cast
    field_simp
  rwa [hvalue] at hrounded

theorem ofNat_spec (h : n ≤ 2 ^ 53) : (ofNat n).isFinite = true ∧ (ofNat n).value = n := by
  have hrounded : RoundedTo (n : ℤ) (ofNat n) := by
    rw [Int.cast_natCast]
    exact roundedTo_ofNat n
  have hexact := hrounded.exact_int (by rw [abs_of_nonneg (by positivity)]; exact_mod_cast h)
  rwa [Int.cast_natCast] at hexact

/-- Zero is added without an error. -/
theorem add_zero_spec (hx : x.isFinite = true) (negative : Bool) :
    (x.add (zero negative)).isFinite = true ∧ (x.add (zero negative)).value = x.value := by
  have hrounded := roundedTo_add hx (show (zero negative).isFinite = true from rfl)
  have hzero : (zero negative).value = 0 := by
    simp [zero, value, cast_signed]
  rw [hzero, add_zero] at hrounded
  exact hrounded.eq_value hx

/-- Adding zero changes minus zero only. -/
theorem add_zero_of_ne (hx : x.isFinite = true) (hne : x ≠ zero true) : x.add (zero false) = x := by
  cases x <;> cases hx
  rename_i negative units fits
  have hsum : signed negative units + signed false 0 = signed negative units := add_zero _
  rw [zero, add, hsum, ofSignedRatio]
  by_cases hunits : units = 0
  · subst hunits
    cases negative with
    | false => rfl
    | true => exact absurd rfl hne
  · have hpos : 0 < units := Nat.pos_of_ne_zero hunits
    rw [← ofRatio_one negative fits]
    cases negative <;> simp [signed, hunits, hpos, not_lt.mpr (Int.natCast_nonneg units)]

theorem add_zero_ne (hx : x.isFinite = true) : x.add (zero false) ≠ zero true := by
  by_cases hzero : x = zero true
  · rw [hzero]
    exact fun h => nomatch h
  · rwa [add_zero_of_ne hx hzero]

theorem isEqual_zero (hx : x.isFinite = true) : x.isEqual (zero false) = decide (x.value = 0) := by
  cases x <;> cases hx
  rename_i negative units fits
  have hzero : (finite negative units fits).value = 0 ↔ signed negative units = 0 := by
    rw [value, div_eq_zero_iff, or_iff_left cast_one_pos.ne', Int.cast_eq_zero]
  rw [zero, isEqual, Bool.eq_iff_iff, decide_eq_true_iff, hzero, beq_iff_eq]
  rfl

theorem isLess_zero (hx : x.isFinite = true) : x.isLess (zero false) = decide (x.value < 0) := by
  cases x <;> cases hx
  rename_i negative units fits
  have hless : (finite negative units fits).value < 0 ↔ signed negative units < 0 := by
    rw [value, div_lt_iff₀ cast_one_pos, zero_mul, Int.cast_lt_zero]
  rw [zero, isLess, decide_eq_decide, hless]
  rfl

/-- Large numbers are whole. -/
theorem one_dvd_of_fits (hfits : Fits units) (hlarge : 2 ^ 52 * one < units) : one ∣ units := by
  obtain ⟨places, -, hone⟩ := exists_one_eq
  rw [hone, ← Nat.pow_add] at hlarge
  have hne : units ≠ 0 := Nat.ne_of_gt (Nat.lt_of_le_of_lt (Nat.zero_le _) hlarge)
  have hlog : 52 + places ≤ units.log2 := (Nat.le_log2 hne).mpr hlarge.le
  rw [hone]
  exact Nat.dvd_trans (Nat.pow_dvd_pow 2 (by omega)) hfits.2

/-- The whole number nearest to a magnitude that the format holds is a number: of 53 bits, or the magnitude
itself. -/
theorem fits_nearestWhole (fits : Fits units) : Fits ((2 * units + one) / (2 * one) * one) := by
  have hpos := one_pos
  rcases Nat.lt_or_ge (2 ^ 52 * one) units with hlarge | hsmall
  · obtain ⟨whole, hwhole⟩ := one_dvd_of_fits fits hlarge
    have hround : (2 * units + one) / (2 * one) * one = units := by
      have hsplit : 2 * units + one = one + 2 * one * whole := by rw [hwhole]; ring
      rw [hsplit, Nat.add_mul_div_left _ _ (Nat.mul_pos two_pos hpos), Nat.div_eq_of_lt (by omega),
        Nat.zero_add, Nat.mul_comm, hwhole]
    rwa [hround]
  · refine fits_mul_one (Nat.div_le_of_le_mul ?_)
    omega

/-- A magnitude is rounded to the whole one that is at most a half above it and less than a half below it. -/
theorem exists_roundHalfAway (negative : Bool) (fits : Fits units) :
    ∃ (n : Nat) (hn : Fits (n * one)), (finite negative units fits).roundHalfAway = finite negative (n * one) hn ∧
      2 * one * n ≤ 2 * units + one ∧ 2 * units + one < 2 * one * (n + 1) := by
  refine ⟨_, fits_nearestWhole fits, ?_, Nat.mul_div_le _ _,
    Nat.lt_mul_div_succ _ (Nat.mul_pos two_pos one_pos)⟩
  rw [roundHalfAway]
  exact ofRatio_one negative _

/-- The nearest whole number is at most a half away. -/
theorem roundHalfAway_spec (hx : x.isFinite = true) :
    x.roundHalfAway.isFinite = true ∧ (∃ n : ℤ, x.roundHalfAway.value = n) ∧
      |x.roundHalfAway.value - x.value| ≤ 1 / 2 := by
  cases x <;> cases hx
  rename_i negative a fits
  have hone := cast_one_pos
  obtain ⟨n, hfits, hround, htwice⟩ := exists_roundHalfAway negative fits
  have hvalue : (finite negative (n * one) hfits).value = (signed negative n : ℤ) := by
    rw [value, cast_signed, cast_signed]
    push_cast
    cases negative <;> simp [neg_div, hone.ne']
  rw [hround]
  have hlow : 2 * one * n ≤ (2 * a + one : ℚ) := by exact_mod_cast htwice.1
  have hhigh : (2 * a + one : ℚ) < 2 * one * (n + 1) := by exact_mod_cast htwice.2
  have hhalf : |(n : ℚ) - a / one| ≤ 1 / 2 := by
    have hdist : (n : ℚ) - a / one = (n * one - a) / one := by field_simp
    rw [hdist, abs_div, abs_of_pos hone, div_le_iff₀ hone, abs_le]
    constructor <;> linarith
  refine ⟨rfl, ⟨_, hvalue⟩, ?_⟩
  rw [hvalue, value, cast_signed, cast_signed]
  cases negative with
  | false => simpa using hhalf
  | true =>
      simp only [if_true]
      rw [neg_div, neg_sub_neg, abs_sub_comm]
      exact hhalf

theorem abs_value_le (hx : x.isFinite = true) (hmn : m + n = 1024) :
    |x.value| ≤ 2 ^ m * 2 ^ n := by
  cases x <;> cases hx
  rename_i negative units fits
  have hunits : units ≤ 2 ^ m * 2 ^ n * one := by
    obtain ⟨top, htop, hlimit⟩ := exists_limit_eq
    have hlt := fits.1
    rw [hlimit, htop.trans hmn.symm, Nat.pow_add] at hlt
    exact hlt.le
  rw [abs_value, div_le_iff₀ cast_one_pos]
  exact_mod_cast hunits

/-! Magnitudes of results. -/

namespace UpTo

theorem sub (hx : x.UpTo n) (hy : y.UpTo n) (hn : n + 1 < 1024) : (x.sub y).UpTo (n + 1) := by
  refine (roundedTo_sub hx.finite hy.finite).upTo hn ?_
  calc |x.value - y.value| ≤ |x.value| + |y.value| := abs_sub _ _
    _ ≤ 2 ^ n + 2 ^ n := add_le_add hx.le hy.le
    _ = 2 ^ (n + 1) := by ring

theorem mul (hx : x.UpTo m) (hy : y.UpTo n) (hn : m + n < 1024) : (x.mul y).UpTo (m + n) := by
  refine (roundedTo_mul hx.finite hy.finite).upTo hn ?_
  rw [abs_mul, pow_add]
  exact mul_le_mul hx.le hy.le (abs_nonneg _) (by positivity)

theorem div (hx : x.UpTo m) (hy : y.isFinite = true) (hle : 1 / 2 ^ n ≤ |y.value|) (hn : m + n < 1024) :
    (x.div y).UpTo (m + n) := by
  have hpos : 0 < |y.value| := lt_of_lt_of_le (by positivity) hle
  refine (roundedTo_div hx.finite hy (abs_pos.mp hpos)).upTo hn ?_
  rw [abs_div, div_le_iff₀ hpos]
  calc |x.value| ≤ 2 ^ m := hx.le
    _ = 2 ^ (m + n) * (1 / 2 ^ n) := by rw [pow_add]; field_simp
    _ ≤ 2 ^ (m + n) * |y.value| := mul_le_mul_of_nonneg_left hle (by positivity)

theorem neg (hx : x.UpTo n) : x.neg.UpTo n :=
  ⟨isFinite_neg.trans hx.finite, by rw [value_neg, abs_neg]; exact hx.le⟩

theorem mulAdd (hx : x.UpTo m) (hy : y.UpTo n) (hz : z.UpTo (m + n)) (hn : m + n + 1 < 1024) :
    (x.mulAdd y z).UpTo (m + n + 1) := by
  refine (roundedTo_mulAdd hx.finite hy.finite hz.finite).upTo hn ?_
  have hproduct : |x.value * y.value| ≤ 2 ^ (m + n) := by
    rw [abs_mul, pow_add]
    exact mul_le_mul hx.le hy.le (abs_nonneg _) (by positivity)
  calc |x.value * y.value + z.value| ≤ |x.value * y.value| + |z.value| := abs_add_le _ _
    _ ≤ 2 ^ (m + n) + 2 ^ (m + n) := add_le_add hproduct hz.le
    _ = 2 ^ (m + n + 1) := by ring

theorem mono (hx : x.UpTo m) (hmn : m ≤ n) : x.UpTo n :=
  ⟨hx.finite, hx.le.trans (pow_le_pow_right₀ (by norm_num) hmn)⟩

theorem ofNat (h : m ≤ 2 ^ n) (hn : n ≤ 53) : (Binary64.ofNat m).UpTo n := by
  obtain ⟨hfinite, hvalue⟩ := ofNat_spec (Nat.le_trans h (Nat.pow_le_pow_right two_pos hn))
  refine ⟨hfinite, ?_⟩
  rw [hvalue, Nat.abs_cast]
  exact_mod_cast h

end UpTo

end Binary64

end FluidSizing
