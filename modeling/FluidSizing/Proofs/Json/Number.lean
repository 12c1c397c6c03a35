import FluidSizing.Json.Number
import FluidSizing.Proofs.Binary64.Value
import FluidSizing.Proofs.Json.String
import FluidSizing.Proofs.Number

/-! Numbers as they are spelled. What is read as a number is spelled as one and is finite (`exists_isNumber`);
where reading stops does not depend on the arithmetic, so it is described on its own (`behindNumber`), and a
spelling is read to its end if nothing behind goes on with it (`behindNumber_append`). An integer of less than
54 bits is read as it is shown (`readNumber_showInteger`) and is not rounded (`isInteger_toBinary64`). -/

namespace FluidSizing
namespace Json

open Text (IsDigits)
open FluidSizing.Number (PlainWhole)

/-- Nothing, or a point and digits. -/
inductive IsFraction : Text → Prop where
  | absent : IsFraction []
  | present {digits : Text} (isDigits : IsDigits digits) (ne_nil : digits ≠ []) :
      IsFraction ('.' :: digits)

/-- The sign of an exponent, if it has one. -/
inductive IsSign : Text → Prop where
  | none : IsSign []
  | plus : IsSign ['+']
  | minus : IsSign ['-']

/-- Nothing, or the mark of an exponent, its sign and digits. -/
inductive IsExponent : Text → Prop where
  | absent : IsExponent []
  | present {mark : Char} {sign digits : Text} (isMark : mark = 'e' ∨ mark = 'E') (isSign : IsSign sign)
      (isDigits : IsDigits digits) (ne_nil : digits ≠ []) : IsExponent (mark :: (sign ++ digits))

inductive IsUnsigned : Text → Prop where
  | mk {whole fraction exponent : Text} (isWhole : PlainWhole whole) (isFraction : IsFraction fraction)
      (isExponent : IsExponent exponent) : IsUnsigned (whole ++ (fraction ++ exponent))

inductive IsNumber : Text → Prop where
  | plain {text : Text} (isUnsigned : IsUnsigned text) : IsNumber text
  | minus {text : Text} (isUnsigned : IsUnsigned text) : IsNumber ('-' :: text)

/-- What stands behind a number and does not go on with it. -/
def EndsNumber (rest : Text) : Prop :=
  ∀ c ∈ rest.head?, c.isDigit = false ∧ c ≠ '.' ∧ c ≠ 'e' ∧ c ≠ 'E'

/-! How far a number goes. -/

/-- What follows the digits at the start of a text, if there are any. -/
def behindDigits (text : Text) : Option Text :=
  if text.head?.any Char.isDigit then some (text.dropWhile Char.isDigit) else none

/-- What follows an exponent, if one starts. -/
def behindExponent (text : Text) : Option Text :=
  if startsExponent text then behindDigits (exponentSign (text.drop 1)).2 else some text

/-- What follows a fraction, if one starts, and an exponent. -/
def behindFraction : Text → Option Text
  | '.' :: rest => (behindDigits rest).bind behindExponent
  | text => behindExponent text

/-- What follows a number without a sign. -/
def behindUnsigned : Text → Option Text
  | '0' :: rest => if rest.head?.any Char.isDigit then none else behindFraction rest
  | text => (behindDigits text).bind behindFraction

/-- What follows a number. -/
def behindNumber : Text → Option Text
  | '-' :: rest => behindUnsigned rest
  | text => behindUnsigned text

theorem exists_isDigits {text rest : Text} (h : behindDigits text = some rest) :
    ∃ digits, text = digits ++ rest ∧ IsDigits digits ∧ digits ≠ [] := by
  unfold behindDigits at h
  split at h
  · rename_i hhead
    refine ⟨text.takeWhile Char.isDigit, ?_, fun c hc => ?_, fun hnil => ?_⟩
    · rw [← Option.some.inj h, List.takeWhile_append_dropWhile]
    · exact List.all_eq_true.mp List.all_takeWhile c hc
    · cases text with
      | nil => cases hhead
      | cons c text => simp_all
  · cases h

theorem exists_isExponent {text rest : Text} (h : behindExponent text = some rest) :
    ∃ exponent, text = exponent ++ rest ∧ IsExponent exponent := by
  unfold behindExponent at h
  split at h
  · rename_i hmark
    obtain ⟨digits, hdigits, hisDigits, hne⟩ := exists_isDigits h
    cases text with
    | nil => cases hmark
    | cons mark text =>
        rw [startsExponent, Bool.or_eq_true, decide_eq_true_eq, decide_eq_true_eq] at hmark
        obtain ⟨sign, hsign, htext⟩ : ∃ sign, IsSign sign ∧ text = sign ++ (exponentSign text).2 := by
          unfold exponentSign
          split
          · exact ⟨['+'], .plus, rfl⟩
          · exact ⟨['-'], .minus, rfl⟩
          · exact ⟨[], .none, rfl⟩
        rw [List.drop_succ_cons, List.drop_zero] at hdigits
        refine ⟨mark :: (sign ++ digits), ?_, .present hmark hsign hisDigits hne⟩
        rw [htext, hdigits]
        simp
  · exact ⟨[], Option.some.inj h, .absent⟩

theorem exists_isFraction {text rest : Text} (h : behindFraction text = some rest) :
    ∃ fraction exponent, text = fraction ++ (exponent ++ rest) ∧ IsFraction fraction ∧
      IsExponent exponent := by
  unfold behindFraction at h
  split at h
  · obtain ⟨behind, hbehind, hrest⟩ := Option.bind_eq_some_iff.mp h
    obtain ⟨digits, rfl, hdigits, hne⟩ := exists_isDigits hbehind
    obtain ⟨exponent, rfl, hexponent⟩ := exists_isExponent hrest
    exact ⟨'.' :: digits, exponent, rfl, .present hdigits hne, hexponent⟩
  · obtain ⟨exponent, rfl, hexponent⟩ := exists_isExponent h
    exact ⟨[], exponent, rfl, .absent, hexponent⟩

theorem exists_isUnsigned {text rest : Text} (h : behindUnsigned text = some rest) :
    ∃ number, text = number ++ rest ∧ IsUnsigned number := by
  unfold behindUnsigned at h
  split at h
  · split at h
    · cases h
    · obtain ⟨fraction, exponent, rfl, hfraction, hexponent⟩ := exists_isFraction h
      exact ⟨['0'] ++ (fraction ++ exponent), by simp, .mk .zero hfraction hexponent⟩
  · rename_i hzero
    obtain ⟨behind, hbehind, hrest⟩ := Option.bind_eq_some_iff.mp h
    obtain ⟨whole, rfl, hwhole, hne⟩ := exists_isDigits hbehind
    obtain ⟨fraction, exponent, rfl, hfraction, hexponent⟩ := exists_isFraction hrest
    obtain ⟨first, others, rfl⟩ := List.exists_cons_of_ne_nil hne
    obtain ⟨hfirst, hothers⟩ := List.forall_mem_cons.mp hwhole
    refine ⟨first :: others ++ (fraction ++ exponent), by simp, .mk (.digits hfirst ?_ hothers)
      hfraction hexponent⟩
    rintro rfl
    exact hzero _ rfl

theorem exists_isNumber_of_behindNumber {text rest : Text} (h : behindNumber text = some rest) :
    ∃ number, text = number ++ rest ∧ IsNumber number := by
  unfold behindNumber at h
  split at h
  · obtain ⟨number, rfl, hnumber⟩ := exists_isUnsigned h
    exact ⟨'-' :: number, rfl, .minus hnumber⟩
  · obtain ⟨number, rfl, hnumber⟩ := exists_isUnsigned h
    exact ⟨number, rfl, .plain hnumber⟩

theorem behindDigits_append {digits rest : Text} (h : IsDigits digits) (hne : digits ≠ [])
    (hrest : ∀ c ∈ rest.head?, c.isDigit = false) : behindDigits (digits ++ rest) = some rest := by
  obtain ⟨c, digits, rfl⟩ := List.exists_cons_of_ne_nil hne
  have hspan := Text.span_append h hrest
  rw [List.span_eq_takeWhile_dropWhile, Prod.mk.injEq] at hspan
  rw [behindDigits, if_pos (by simpa using (List.forall_mem_cons.mp h).1), hspan.2]

theorem startsExponent_eq_false {rest : Text} (h : EndsNumber rest) : startsExponent rest = false := by
  cases rest with
  | nil => rfl
  | cons c rest =>
      obtain ⟨-, -, he, hE⟩ := h c rfl
      simp [startsExponent, he, hE]

theorem behindExponent_append {exponent rest : Text} (h : IsExponent exponent)
    (hrest : EndsNumber rest) : behindExponent (exponent ++ rest) = some rest := by
  cases h with
  | absent => simp [behindExponent, startsExponent_eq_false hrest]
  | @present mark sign digits isMark isSign isDigits ne_nil =>
      have hsign : (exponentSign (sign ++ (digits ++ rest))).2 = digits ++ rest := by
        cases isSign with
        | plus => rfl
        | minus => rfl
        | none =>
            obtain ⟨c, digits, rfl⟩ := List.exists_cons_of_ne_nil ne_nil
            have hc := (List.forall_mem_cons.mp isDigits).1
            unfold exponentSign
            split
            · rename_i heq
              rw [List.nil_append, List.cons_append, List.cons.injEq] at heq
              rw [heq.1] at hc
              cases hc
            · rename_i heq
              rw [List.nil_append, List.cons_append, List.cons.injEq] at heq
              rw [heq.1] at hc
              cases hc
            · rfl
      have hmark : startsExponent (mark :: (sign ++ digits) ++ rest) = true := by
        simpa [startsExponent] using isMark
      rw [behindExponent, if_pos hmark, List.cons_append, List.drop_succ_cons, List.drop_zero,
        List.append_assoc, hsign]
      exact behindDigits_append isDigits ne_nil fun c hc => (hrest c hc).1

theorem head?_exponent_append {exponent rest : Text} (h : IsExponent exponent)
    (hrest : EndsNumber rest) : ∀ c ∈ (exponent ++ rest).head?, c.isDigit = false ∧ c ≠ '.' := by
  intro c hc
  cases h with
  | absent => exact ⟨(hrest c hc).1, (hrest c hc).2.1⟩
  | present isMark =>
      obtain rfl := Option.some.inj hc
      rcases isMark with rfl | rfl <;> decide

theorem behindFraction_append {fraction exponent rest : Text} (h : IsFraction fraction)
    (hexponent : IsExponent exponent) (hrest : EndsNumber rest) :
    behindFraction (fraction ++ (exponent ++ rest)) = some rest := by
  have hhead := head?_exponent_append hexponent hrest
  cases h with
  | absent =>
      rw [List.nil_append]
      unfold behindFraction
      split
      · rename_i heq
        exact absurd rfl (hhead '.' (by rw [heq]; rfl)).2
      · exact behindExponent_append hexponent hrest
  | present isDigits ne_nil =>
      rw [List.cons_append, behindFraction, behindDigits_append isDigits ne_nil fun c hc => (hhead c hc).1]
      exact behindExponent_append hexponent hrest

theorem behindUnsigned_append {number rest : Text} (h : IsUnsigned number) (hrest : EndsNumber rest) :
    behindUnsigned (number ++ rest) = some rest := by
  obtain ⟨isWhole, isFraction, isExponent⟩ := h
  rename_i whole fraction exponent
  have hbehind := behindFraction_append isFraction isExponent hrest
  have hhead : ∀ c ∈ (fraction ++ (exponent ++ rest)).head?, c.isDigit = false := by
    intro c hc
    cases isFraction with
    | absent => exact (head?_exponent_append isExponent hrest c hc).1
    | present =>
        obtain rfl := Option.some.inj hc
        decide
  rw [List.append_assoc, List.append_assoc]
  cases isWhole with
  | zero =>
      rw [List.singleton_append, behindUnsigned, if_neg ?_, hbehind]
      rw [Option.any_eq_true]
      rintro ⟨c, hc, hdigit⟩
      rw [hhead c hc] at hdigit
      cases hdigit
  | @digits first others hfirst hzero h =>
      have hdigits : IsDigits (first :: others) := List.forall_mem_cons.mpr ⟨hfirst, h⟩
      unfold behindUnsigned
      split
      · rename_i heq
        exact absurd (List.cons.inj heq).1 hzero
      · rw [behindDigits_append hdigits (List.cons_ne_nil _ _) hhead]
        exact hbehind

theorem behindNumber_append {number rest : Text} (h : IsNumber number) (hrest : EndsNumber rest) :
    behindNumber (number ++ rest) = some rest := by
  cases h with
  | minus isUnsigned => exact behindUnsigned_append isUnsigned hrest
  | plain isUnsigned =>
      have hbehind := behindUnsigned_append isUnsigned hrest
      unfold behindNumber
      split
      · rename_i heq
        exfalso
        obtain ⟨isWhole, -, -⟩ := isUnsigned
        cases isWhole with
        | zero => cases heq
        | digits hfirst =>
            rw [(List.cons.inj heq).1] at hfirst
            cases hfirst
      · exact hbehind

/-! Where the readers stop, and that the numbers they give are finite. -/

/-- What is read is finite and stops at `behind`. -/
def Reads (behind : Option Text) (read : Except Fault (Number × Text)) : Prop :=
  ∀ number rest, read = .ok (number, rest) → behind = some rest ∧ number.toBinary64.isFinite = true

section

open Binary64 (RoundedTo UpTo roundedTo_ofNat roundedTo_ofSignedRatio cast_one_pos)

attribute [local irreducible] Binary64.one Binary64.limit

theorem upTo_ofNat {significand : Nat} (h : significand ≤ maxSignificand) :
    (Binary64.ofNat significand).UpTo 64 := by
  have hle : significand ≤ 2 ^ 64 := Nat.le_trans h (Nat.sub_le _ _)
  refine (roundedTo_ofNat significand).upTo (by decide) ?_
  rw [Nat.abs_cast]
  exact_mod_cast hle

/-! Three quarters of the range are precise and beyond the powers of ten that are in range. -/

theorem precise_three_quarters : Binary64.Precise (3 * 2 ^ 1022 * Binary64.one) := by
  obtain ⟨places, -, hone⟩ := Binary64.exists_one_eq
  rw [hone, Nat.mul_assoc, ← Nat.pow_add]
  exact Binary64.precise_mul (by decide)

theorem three_quarters_lt : 3 * 2 ^ 1022 * Binary64.one < Binary64.limit := by
  obtain ⟨top, rfl, hlimit⟩ := Binary64.exists_limit_eq
  rw [hlimit]
  exact Nat.mul_lt_mul_of_pos_right (by decide +kernel) Binary64.one_pos

theorem ten_pow_le {places : Nat} (h : places ≤ 308) :
    10 ^ places * Binary64.one ≤ 3 * 2 ^ 1022 * Binary64.one := by
  refine Nat.mul_le_mul_right _ ?_
  calc 10 ^ places ≤ 10 ^ 308 := Nat.pow_le_pow_right (by decide) h
    _ ≤ 3 * 2 ^ 1022 := by decide +kernel

/-- The powers of ten up to the largest that is in range. -/
theorem powerOfTen_spec {places : Nat} (h : places ≤ 308) :
    (Binary64.ofDecimal false 1 places).isFinite = true ∧
      1 ≤ |(Binary64.ofDecimal false 1 places).value| := by
  have hexact : Binary64.exactDecimal 1 places = 10 ^ places * Binary64.one := by
    rw [Binary64.exactDecimal, Nat.cast_one, one_mul, zpow_natCast]
  have hrounded := Binary64.correctlyRounded_ofDecimal false 1 places
  rw [hexact] at hrounded
  have hfinite : (Binary64.ofDecimal false 1 places).isFinite = true := by
    generalize Binary64.ofDecimal false 1 places = x at hrounded
    cases hrounded with
    | finite => rfl
    | @infinite units rounds beyond =>
        have hle : (10 : ℚ) ^ places * Binary64.one ≤ (3 * 2 ^ 1022 * Binary64.one : Nat) := by
          refine le_trans (le_of_eq ?_) (Nat.cast_le.mpr (ten_pow_le h))
          rw [Nat.cast_mul, Nat.cast_pow, Nat.cast_ofNat]
        have hunits := rounds.le_of_le (.ofPrecise precise_three_quarters) hle
        exact absurd (beyond.trans hunits) (Nat.not_le.mpr three_quarters_lt)
  refine ⟨hfinite, ?_⟩
  have hvalue : RoundedTo (10 ^ places) (Binary64.ofDecimal false 1 places) :=
    ⟨false, 10 ^ places, by positivity, rfl, hrounded⟩
  have hone : (1 : ℚ) ≤ 10 ^ places := one_le_pow₀ (by norm_num)
  have hle := hvalue.le_abs hfinite (Nat.zero_le 1074) (by simpa [abs_of_nonneg] using hone)
  simpa using hle

theorem upTo_scaleDown {x : Binary64} (hx : x.UpTo 64) (places : Nat) : (scaleDown x places).UpTo 64 := by
  have hdiv : ∀ {x : Binary64} {places : Nat}, x.UpTo 64 → places ≤ 308 →
      (x.div (Binary64.ofDecimal false 1 places)).UpTo 64 := by
    intro x places hx hplaces
    obtain ⟨hfinite, hle⟩ := powerOfTen_spec hplaces
    exact hx.div (n := 0) hfinite (by simpa using hle) (by decide)
  fun_induction scaleDown x places with
  | case1 x places h => exact hdiv hx h
  | case2 x => exact hx
  | case3 x places _ _ ih => exact ih (hdiv hx le_rfl)

theorem integer_snd (negative : Bool) (significand : Nat) (rest : Text) :
    (integer negative significand rest).2 = rest := by
  unfold integer
  split
  · rfl
  · split <;> rfl

theorem roundedTo_integer (n : Int) : RoundedTo n (Number.integer n).toBinary64 := by
  have hrounded := roundedTo_ofSignedRatio false (n * Binary64.one) Nat.one_pos
  have hvalue : ((n * Binary64.one : Int) : ℚ) / (1 * Binary64.one : Nat) = n := by
    have hone := cast_one_pos.ne'
    push_cast
    field_simp
  rwa [hvalue] at hrounded

/-- The number that an integer is, sign and magnitude. -/
def IsInteger (n : Int) (x : Binary64) : Prop := ∃ fits, x = .finite (n < 0) (n.natAbs * Binary64.one) fits

/-- An integer of up to 53 bits is not rounded. -/
theorem isInteger_toBinary64 {n : Int} (hn : |n| ≤ 2 ^ 53) : IsInteger n (Number.integer n).toBinary64 := by
  have hbits : n.natAbs ≤ 2 ^ 53 := by
    rw [Int.abs_eq_natAbs] at hn
    omega
  have hfits := Binary64.fits_mul_one hbits
  refine ⟨hfits, ?_⟩
  have hpos : (0 : Int) < Binary64.one := Int.natCast_pos.mpr Binary64.one_pos
  have hunits : (n * Binary64.one).natAbs = n.natAbs * Binary64.one := by
    rw [Int.natAbs_mul, Int.natAbs_natCast]
  have hsign : decide (n * Binary64.one < 0) = decide (n < 0) := by
    rw [decide_eq_decide, ← not_le, ← not_le, mul_nonneg_iff_of_pos_right hpos]
  rw [Number.toBinary64, Binary64.ofSignedRatio]
  split
  · rename_i hzero
    obtain rfl : n = 0 := (mul_eq_zero.mp hzero).resolve_right hpos.ne'
    simp [Binary64.zero]
  · have hrounded := Binary64.correctlyRounded_ofRatio (n * Binary64.one < 0)
      (n * Binary64.one).natAbs Nat.one_pos
    rw [Nat.cast_one, div_one, hunits, hsign] at hrounded
    rw [hunits, hsign]
    exact hrounded.unique (.finite (.ofPrecise hfits.2) hfits)

theorem reads_scaled (negative : Bool) {significand : Nat} (exponent : Int) (rest : Text)
    (h : significand ≤ maxSignificand) :
    Reads (some rest) (scaled negative significand exponent rest) := by
  intro number rest' hread
  rw [scaled] at hread
  split at hread
  · rename_i x hscale
    obtain ⟨rfl, rfl⟩ := Prod.mk.inj (Except.ok.inj hread)
    refine ⟨rfl, ?_⟩
    have hfinite : x.isFinite = true := by
      have hofNat := upTo_ofNat h
      simp only [scale?] at hscale
      split at hscale
      · split at hscale
        · split at hscale
          · rename_i hfinite
            rw [← Option.some.inj hscale]
            exact hfinite
          · cases hscale
        · split at hscale
          · rw [← Option.some.inj hscale]
            exact hofNat.finite
          · cases hscale
      · rw [← Option.some.inj hscale]
        exact (upTo_scaleDown hofNat _).finite
    cases negative with
    | false => exact hfinite
    | true => exact Binary64.isFinite_neg.trans hfinite
  · cases hread

theorem isFinite_integer (negative : Bool) {significand : Nat} (rest : Text)
    (h : significand ≤ maxSignificand) :
    (integer negative significand rest).1.toBinary64.isFinite = true := by
  have hinteger : ∀ n : Int, n.natAbs ≤ maxSignificand → (Number.integer n).toBinary64.isFinite = true := by
    intro n hn
    refine (roundedTo_integer n).upTo (n := 64) (by decide) ?_ |>.finite
    have hle : n.natAbs ≤ 2 ^ 64 := Nat.le_trans hn (Nat.sub_le _ _)
    rw [← Int.cast_abs, Int.abs_eq_natAbs, Int.cast_natCast]
    exact_mod_cast hle
  unfold integer
  split
  · exact hinteger _ (by simpa using h)
  · split
    · exact hinteger _ (by simpa using h)
    · exact Binary64.isFinite_neg.trans (upTo_ofNat h).finite

end

/-! Digits. -/

theorem collectDigits_of_head? {text : Text} (significand : Nat)
    (h : text.head?.any Char.isDigit = false) : collectDigits significand text = (significand, 0, text) := by
  cases text with
  | nil => rfl
  | cons c text =>
      have hdigit : c.isDigit = false := h
      simp [collectDigits, hdigit]

theorem collectDigits_spec (significand : Nat) (text : Text) (h : significand ≤ maxSignificand) :
    (collectDigits significand text).1 ≤ maxSignificand ∧
      (collectDigits significand text).2.2.dropWhile Char.isDigit = text.dropWhile Char.isDigit := by
  induction text generalizing significand with
  | nil => exact ⟨h, rfl⟩
  | cons c text ih =>
      simp only [collectDigits]
      split
      · rename_i hnext
        rw [Bool.and_eq_true, decide_eq_true_eq] at hnext
        rw [List.dropWhile_cons_of_pos hnext.1]
        exact ih _ hnext.2
      · exact ⟨h, rfl⟩

theorem exponentDigits_spec (value : Nat) (text : Text) :
    (∀ n rest, exponentDigits value text = .ok (n, rest) → rest = text.dropWhile Char.isDigit) ∧
      (∀ rest, exponentDigits value text = .error rest →
        rest.dropWhile Char.isDigit = text.dropWhile Char.isDigit) := by
  induction text generalizing value with
  | nil =>
      constructor
      · rintro n rest h
        exact (Prod.mk.inj (Except.ok.inj h)).2.symm
      · rintro rest h
        cases h
  | cons c text ih =>
      simp only [exponentDigits]
      split
      · rename_i hdigit
        rw [List.dropWhile_cons_of_pos hdigit]
        split
        · exact ih _
        · constructor
          · rintro n rest h
            cases h
          · rintro rest h
            rw [Except.error.inj h]
      · rename_i hdigit
        rw [List.dropWhile_cons_of_neg hdigit]
        constructor
        · rintro n rest h
          exact (Prod.mk.inj (Except.ok.inj h)).2.symm
        · rintro rest h
          cases h

/-! The readers, the last part of a number first. -/

variable (negative : Bool) {significand : Nat}

theorem Reads.error {behind : Option Text} (fault : Fault) : Reads behind (.error fault) := by
  rintro number rest h
  cases h

theorem reads_readExponent (exponent : Int) (text : Text) (h : significand ≤ maxSignificand) :
    Reads (behindDigits (exponentSign text).2) (readExponent negative significand exponent text) := by
  simp only [readExponent]
  split
  · exact .error _
  · rename_i c digits hdigits
    split
    · rename_i hdigit
      rw [behindDigits, if_pos (by simpa [hdigits] using hdigit)]
      obtain ⟨hok, herror⟩ := exponentDigits_spec 0 (exponentSign text).2
      split
      · rename_i value rest hread
        rw [← hok _ _ hread]
        exact reads_scaled _ _ _ h
      · rename_i rest hread
        split
        · exact .error _
        · rw [← herror _ hread]
          rintro number rest' hzero
          obtain ⟨rfl, rfl⟩ := Prod.mk.inj (Except.ok.inj hzero)
          exact ⟨rfl, rfl⟩
    · exact .error _

theorem reads_readScaled (exponent : Int) (text : Text) (h : significand ≤ maxSignificand) :
    Reads (behindExponent text) (readScaled negative significand exponent text) := by
  rw [readScaled, behindExponent]
  split
  · exact reads_readExponent negative exponent _ h
  · exact reads_scaled negative exponent text h

theorem reads_readFraction (exponent : Int) (text : Text) (h : significand ≤ maxSignificand) :
    Reads ((behindDigits text).bind behindExponent)
      (readFraction negative significand exponent text) := by
  obtain ⟨hcollected, hbehind⟩ := collectDigits_spec significand text h
  simp only [readFraction]
  by_cases hdigit : text.head?.any Char.isDigit = true
  · rw [behindDigits, if_pos hdigit, ← hbehind]
    split
    · split <;> exact .error _
    · exact reads_readScaled negative _ _ hcollected
  · rw [Bool.not_eq_true] at hdigit
    have hnone : text.dropWhile Char.isDigit = text := by
      cases text with
      | nil => rfl
      | cons c text => exact List.dropWhile_cons_of_neg (by simpa using hdigit)
    rw [collectDigits_of_head? significand hdigit, hnone, if_pos (by simp)]
    split <;> exact .error _

theorem reads_readTail (dropped : Nat) (text : Text) (h : significand ≤ maxSignificand) :
    Reads (behindFraction text) (readTail negative significand dropped text) := by
  unfold readTail
  split
  · exact reads_readFraction negative dropped _ h
  · rename_i hpoint
    rw [behindFraction]
    swap
    · exact hpoint
    split
    · rename_i hinteger
      rw [Bool.and_eq_true, Bool.not_eq_true'] at hinteger
      rintro number rest hread
      rw [Except.ok.injEq] at hread
      have hfinite := isFinite_integer negative text h
      rw [behindExponent, hinteger.2, if_neg Bool.false_ne_true, ← integer_snd negative significand text,
        hread]
      rw [hread] at hfinite
      exact ⟨rfl, hfinite⟩
    · exact reads_readScaled negative dropped text h

theorem reads_readUnsigned (text : Text) : Reads (behindUnsigned text) (readUnsigned negative text) := by
  unfold readUnsigned
  split
  · exact .error _
  · rename_i rest
    rw [behindUnsigned]
    cases rest with
    | nil => exact reads_readTail negative 0 [] (Nat.zero_le _)
    | cons c rest =>
        simp only
        by_cases hdigit : c.isDigit = true
        · rw [if_pos hdigit]
          exact .error _
        · rw [if_neg hdigit, if_neg (by simpa using hdigit)]
          exact reads_readTail negative 0 (c :: rest) (Nat.zero_le _)
  · rename_i c rest hzero
    rw [behindUnsigned]
    swap
    · rintro rest heq
      exact hzero (List.cons.inj heq).1
    split
    · rename_i hdigit
      obtain ⟨hcollected, hbehind⟩ := collectDigits_spec 0 (c :: rest) (Nat.zero_le _)
      rw [behindDigits, if_pos (by simpa using hdigit), Option.bind_some, ← hbehind]
      generalize collectDigits 0 (c :: rest) = collected at hcollected ⊢
      have hdrop : collected.2.2.drop (collected.2.2.takeWhile Char.isDigit).length =
          collected.2.2.dropWhile Char.isDigit := by
        calc collected.2.2.drop (collected.2.2.takeWhile Char.isDigit).length
            = (collected.2.2.takeWhile Char.isDigit ++ collected.2.2.dropWhile Char.isDigit).drop
                (collected.2.2.takeWhile Char.isDigit).length := by rw [List.takeWhile_append_dropWhile]
          _ = collected.2.2.dropWhile Char.isDigit := List.drop_left
      dsimp only
      rw [hdrop]
      exact reads_readTail negative _ _ hcollected
    · exact .error _

/-- Reading a number. -/
theorem reads_readNumber (text : Text) : Reads (behindNumber text) (readNumber text) := by
  unfold readNumber
  split
  · exact reads_readUnsigned true _
  · rename_i hminus
    rw [behindNumber]
    · exact reads_readUnsigned false _
    · exact hminus

/-- What is read as a number is spelled as one and is finite. -/
theorem exists_isNumber {text rest : Text} {number : Number} (h : readNumber text = .ok (number, rest)) :
    ∃ spelling, text = spelling ++ rest ∧ IsNumber spelling ∧ number.toBinary64.isFinite = true := by
  obtain ⟨hbehind, hfinite⟩ := reads_readNumber text number rest h
  obtain ⟨spelling, hspelling, hnumber⟩ := exists_isNumber_of_behindNumber hbehind
  exact ⟨spelling, hspelling, hnumber, hfinite⟩

/-! Integers. -/

theorem le_ofDigitChars (digits : Text) (value : Nat) : value ≤ Nat.ofDigitChars 10 digits value := by
  rw [Nat.ofDigitChars_eq_ofDigitChars_zero]
  exact Nat.le_add_right_of_le (Nat.le_mul_of_pos_left _ (Nat.pow_pos (by decide)))

theorem collectDigits_append {digits rest : Text} (h : IsDigits digits)
    (hrest : ∀ c ∈ rest.head?, c.isDigit = false)
    (hbound : Nat.ofDigitChars 10 digits significand ≤ maxSignificand) :
    collectDigits significand (digits ++ rest) =
      (Nat.ofDigitChars 10 digits significand, digits.length, rest) := by
  induction digits generalizing significand with
  | nil =>
      refine collectDigits_of_head? significand ?_
      cases rest with
      | nil => rfl
      | cons c rest => exact hrest c rfl
  | cons c digits ih =>
      obtain ⟨hc, hdigits⟩ := List.forall_mem_cons.mp h
      have hcons : Nat.ofDigitChars 10 (c :: digits) significand =
          Nat.ofDigitChars 10 digits (10 * significand + digitValue c) := Nat.ofDigitChars_cons
      rw [hcons] at hbound ⊢
      have hnext := (le_ofDigitChars digits _).trans hbound
      simp only [List.cons_append, collectDigits]
      rw [if_pos (by rw [hc, decide_eq_true hnext, Bool.and_self]), ih hdigits hbound]
      rfl

theorem readTail_of_endsNumber {rest : Text} (h : EndsNumber rest) :
    readTail negative significand 0 rest = .ok (integer negative significand rest) := by
  unfold readTail
  split
  · exact absurd rfl (h '.' rfl).2.1
  · rw [startsExponent_eq_false h]
    rfl

theorem readUnsigned_ofNat {rest : Text} (h : significand ≤ maxSignificand) (hrest : EndsNumber rest) :
    readUnsigned negative (Text.ofNat significand ++ rest) = .ok (integer negative significand rest) := by
  by_cases hzero : significand = 0
  · subst hzero
    cases rest with
    | nil => exact readTail_of_endsNumber negative hrest
    | cons c rest =>
        change readUnsigned negative ('0' :: c :: rest) = _
        simp only [readUnsigned]
        rw [(hrest c rfl).1, if_neg Bool.false_ne_true]
        exact readTail_of_endsNumber negative hrest
  · have hdigits := Text.isDigits_ofNat significand
    have hhead := Text.head?_ofNat hzero
    have hvalue : Nat.ofDigitChars 10 (Text.ofNat significand) 0 = significand :=
      Nat.ofDigitChars_ten_toDigits
    have hcollected := collectDigits_append hdigits (fun c hc => (hrest c hc).1) (hvalue.trans_le h)
    rw [hvalue] at hcollected
    obtain ⟨c, digits, hcons⟩ := List.exists_cons_of_ne_nil
      (show Text.ofNat significand ≠ [] from Nat.toDigits_ne_nil)
    rw [hcons] at hdigits hhead hcollected ⊢
    have hnone : rest.takeWhile Char.isDigit = [] := by
      cases rest with
      | nil => rfl
      | cons d rest => exact List.takeWhile_cons_of_neg (by rw [(hrest d rfl).1]; decide)
    rw [List.cons_append] at hcollected ⊢
    rw [readUnsigned]
    · rw [if_pos (List.forall_mem_cons.mp hdigits).1]
      simp only [hcollected, hnone]
      exact readTail_of_endsNumber negative hrest
    · rintro rfl
      exact hhead rfl

/-- An integer is read as it is shown. -/
theorem readNumber_showInteger {n : Int} {rest : Text} (hn : |n| < 2 ^ 53) (hrest : EndsNumber rest) :
    readNumber (showInteger n ++ rest) = .ok (.integer n, rest) := by
  cases n with
  | ofNat n =>
      have hle : n ≤ maxSignificand := by
        rw [Int.ofNat_eq_natCast, Nat.abs_cast] at hn
        rw [maxSignificand, Nat.pow_eq]
        omega
      have hread := readUnsigned_ofNat false hle hrest
      rw [showInteger]
      unfold readNumber
      split
      · rename_i heq
        exfalso
        obtain ⟨c, digits, hcons⟩ := List.exists_cons_of_ne_nil
          (show Text.ofNat n ≠ [] from Nat.toDigits_ne_nil)
        have hdigit := Text.isDigits_ofNat n c (by rw [hcons]; exact List.mem_cons_self)
        rw [hcons, List.cons_append] at heq
        rw [(List.cons.inj heq).1] at hdigit
        cases hdigit
      · exact hread
  | negSucc n =>
      have hless : n + 1 < 2 ^ 53 := by
        rw [Int.abs_eq_natAbs, Int.natAbs_negSucc] at hn
        omega
      have hle : n + 1 ≤ maxSignificand := by
        rw [maxSignificand, Nat.pow_eq]
        omega
      have hfits : n + 1 ≤ Nat.pow 2 63 := by
        rw [Nat.pow_eq]
        omega
      rw [showInteger, List.cons_append, readNumber, readUnsigned_ofNat true hle hrest, integer,
        if_neg (by decide), if_pos (by simpa using hfits)]
      rfl

end Json
end FluidSizing
