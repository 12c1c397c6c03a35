import FluidSizing.Number
import FluidSizing.Proofs.Binary64.DecimalText
import FluidSizing.Proofs.Binary64.Shortest

/-! Canonical numbers are the written numbers. The plain form is a grammar of its own (`Number.Plain`). The
positional form of a decimal that does not end in zero is plain (`Decimal.plainMagnitude_positional`) and its
value is the decimal (`Decimal.decimalValue_positional`), so a written number is read as the number itself
(`Binary64.read?_render`), and nothing else is read as a number at all (`Number.read_eq_ok_iff`). -/

namespace FluidSizing

open Text (IsDigits IsDecimal)

namespace Text

theorem isDigits_ofNat (n : Nat) : IsDigits (ofNat n) := fun _ hc =>
  Nat.isDigit_of_mem_toDigits (by decide) (by decide) hc

theorem digitChar_eq_zero_iff : ∀ d < 10, d.digitChar = '0' → d = 0 := by decide

theorem isDigits_zeros (n : Nat) : IsDigits (List.replicate n '0') := by
  intro c hc
  rw [List.eq_of_mem_replicate hc]
  decide

/-- A number other than zero does not start with the digit zero. -/
theorem head?_ofNat {n : Nat} (h : n ≠ 0) : (ofNat n).head? ≠ some '0' := by
  induction n using Nat.strong_induction_on with
  | _ n ih =>
      rw [ofNat, Nat.toDigits_eq_if (by decide)]
      split
      · rename_i hlt
        rw [List.head?_cons, ne_eq, Option.some.injEq]
        exact fun heq => h (digitChar_eq_zero_iff n hlt heq)
      · rename_i hge
        have hhead := ih (n / 10) (by omega) (by omega)
        rw [List.head?_append_of_ne_nil _ Nat.toDigits_ne_nil]
        exact hhead

/-- The last digit of a number is the rest of dividing it by ten. -/
theorem getLast?_ofNat (n : Nat) : (ofNat n).getLast? = some (n % 10).digitChar := by
  rw [ofNat, Nat.toDigits_eq_if (by decide)]
  split
  · rename_i hlt
    rw [Nat.mod_eq_of_lt hlt]
    rfl
  · rw [List.getLast?_concat]

end Text

namespace Number

/-- Zero, or digits that do not start with zero. -/
inductive PlainWhole : Text → Prop
  | zero : PlainWhole ['0']
  | digits {first : Char} {rest : Text} (hfirst : first.isDigit = true) (hzero : first ≠ '0')
      (h : IsDigits rest) : PlainWhole (first :: rest)

/-- Nothing, or a point and digits that do not end in zero. -/
inductive PlainFraction : Text → Prop
  | none : PlainFraction []
  | digits {front : Text} {last : Char} (h : IsDigits front) (hlast : last.isDigit = true)
      (hzero : last ≠ '0') : PlainFraction ('.' :: (front ++ [last]))

/-- A plain number without a sign. -/
inductive PlainMagnitude : Text → Prop
  | parts {whole fraction : Text} (h : PlainWhole whole) (h' : PlainFraction fraction) :
      PlainMagnitude (whole ++ fraction)

inductive Plain : Text → Prop
  | positive {text : Text} (h : PlainMagnitude text) : Plain text
  | negative {text : Text} (h : PlainMagnitude text) : Plain ('-' :: text)

variable {text whole fraction : Text}

theorem PlainWhole.isDigits (h : PlainWhole whole) : IsDigits whole := by
  cases h with
  | zero => exact List.forall_mem_singleton.mpr (by decide)
  | digits hfirst _ h => exact List.forall_mem_cons.mpr ⟨hfirst, h⟩

theorem isPlainWhole_iff : isPlainWhole whole = true ↔ PlainWhole whole := by
  constructor
  · intro h
    cases whole with
    | nil => cases h
    | cons first rest =>
        rw [isPlainWhole] at h
        split at h
        · rename_i hzero
          rw [List.isEmpty_iff.mp h, hzero]
          exact .zero
        · rename_i hzero
          rw [Bool.and_eq_true, List.all_eq_true] at h
          exact .digits h.1 hzero h.2
  · intro h
    cases h with
    | zero => rfl
    | digits hfirst hzero h =>
        rw [isPlainWhole, if_neg hzero, hfirst, List.all_eq_true.mpr h, Bool.true_and]

theorem isPlainFraction_iff (hpoint : ∀ c ∈ fraction.head?, c = '.') :
    isPlainFraction fraction = true ↔ PlainFraction fraction := by
  constructor
  · intro h
    cases fraction with
    | nil => exact .none
    | cons point digits =>
        obtain rfl : point = '.' := hpoint point rfl
        simp only [isPlainFraction, Bool.and_eq_true, List.all_eq_true, bne_iff_ne, ne_eq] at h
        obtain ⟨⟨hne, hdigits⟩, hlast⟩ := h
        rcases List.eq_nil_or_concat' digits with rfl | ⟨front, last, rfl⟩
        · cases hne
        · rw [List.getLast?_concat, Option.some.injEq] at hlast
          exact .digits (fun c hc => hdigits c (List.mem_append_left _ hc))
            (hdigits last (by simp)) hlast
  · intro h
    cases h with
    | none => rfl
    | digits h hlast hzero =>
        simp only [isPlainFraction, Bool.and_eq_true, List.all_eq_true, bne_iff_ne, ne_eq,
          List.getLast?_concat, Option.some.injEq]
        refine ⟨⟨by simp, fun c hc => ?_⟩, hzero⟩
        rcases List.mem_append.mp hc with hc | hc
        · exact h c hc
        · rw [List.mem_singleton.mp hc]
          exact hlast

theorem PlainFraction.head?_eq (h : PlainFraction fraction) : ∀ c ∈ fraction.head?, c = '.' := by
  cases h with
  | none => simp
  | digits => simp

/-- The parts before and from the first point on are the parts of a plain number. -/
theorem plainMagnitude_iff :
    (isPlainWhole (text.takeWhile (· != '.')) && isPlainFraction (text.dropWhile (· != '.'))) = true ↔
      PlainMagnitude text := by
  have hpoint : ∀ c ∈ (text.dropWhile (· != '.')).head?, c = '.' := by
    intro c hc
    have hhead := List.head?_dropWhile_not (· != '.') text
    rw [hc] at hhead
    simpa using hhead
  rw [Bool.and_eq_true, isPlainWhole_iff, isPlainFraction_iff hpoint]
  constructor
  · rintro ⟨hwhole, hfraction⟩
    rw [← List.takeWhile_append_dropWhile (p := (· != '.')) (l := text)]
    exact .parts hwhole hfraction
  · rintro ⟨hwhole, hfraction⟩
    rename_i whole fraction
    have hspan : (whole ++ fraction).span (· != '.') = (whole, fraction) := by
      refine Text.span_append hwhole.isDigits.ne_point fun c hc => ?_
      rw [hfraction.head?_eq c hc]
      rfl
    rw [List.span_eq_takeWhile_dropWhile, Prod.mk.injEq] at hspan
    rw [hspan.1, hspan.2]
    exact ⟨hwhole, hfraction⟩

theorem PlainMagnitude.isDecimal (h : PlainMagnitude text) : IsDecimal text := by
  obtain ⟨hwhole, hfraction⟩ := h
  cases hfraction with
  | none =>
      rw [List.append_nil]
      exact .whole hwhole.isDigits
  | digits h hlast _ =>
      exact .point hwhole.isDigits (h.append (List.forall_mem_singleton.mpr hlast))

/-- A plain number without a sign starts with a digit. -/
theorem PlainMagnitude.exists_cons (h : PlainMagnitude text) :
    ∃ first rest, text = first :: rest ∧ first.isDigit = true := by
  obtain ⟨hwhole, hfraction⟩ := h
  cases hwhole with
  | zero => exact ⟨_, _, rfl, by decide⟩
  | digits hfirst _ _ => exact ⟨_, _, rfl, hfirst⟩

theorem PlainMagnitude.magnitudeText_eq (h : PlainMagnitude text) : magnitudeText text = text := by
  obtain ⟨first, rest, rfl, hfirst⟩ := h.exists_cons
  unfold magnitudeText
  split
  · rename_i heq
    rw [(List.cons.inj heq).1] at hfirst
    exact absurd hfirst (by decide)
  · rfl

theorem isPlain_iff : isPlain text = true ↔ Plain text ∧ text ≠ ['-', '0'] := by
  have hparts : isPlain text = true ↔ PlainMagnitude (magnitudeText text) ∧ text ≠ ['-', '0'] := by
    rw [isPlain, List.span_eq_takeWhile_dropWhile]
    dsimp only
    rw [Bool.and_eq_true, plainMagnitude_iff, bne_iff_ne]
  rw [hparts]
  refine and_congr_left fun _ => ⟨fun h => ?_, fun h => ?_⟩
  · unfold magnitudeText at h
    split at h
    · exact .negative h
    · exact .positive h
  · cases h with
    | positive h =>
        rw [h.magnitudeText_eq]
        exact h
    | negative h => exact h

end Number

namespace Decimal

open Number (PlainWhole PlainFraction PlainMagnitude)

variable {places : Nat}

/-- The parts before and behind the point are together the digits, behind as many zeros as they need. -/
theorem exists_withPoint (n places : Nat) : ∃ whole fraction,
    withPoint (Text.ofNat n) places = whole ++ '.' :: fraction ∧ IsDigits (whole ++ fraction) ∧
      whole ++ fraction = List.replicate (places + 1 - (Text.ofNat n).length) '0' ++ Text.ofNat n ∧
      fraction.length = places ∧ whole.length = max 1 ((Text.ofNat n).length - places) := by
  refine ⟨_, _, rfl, ?_, List.take_append_drop _ _, ?_, ?_⟩
  · rw [List.take_append_drop]
    exact (Text.isDigits_zeros _).append (Text.isDigits_ofNat n)
  · rw [List.length_drop, List.length_append, List.length_replicate]
    omega
  · rw [List.length_take, List.length_append, List.length_replicate]
    omega

variable {n : Nat} {whole fraction : Text}

/-- Before the point stand the digits that are left, or `0`. -/
theorem plainWhole_of_withPoint (hpos : n ≠ 0) (hall : IsDigits (whole ++ fraction))
    (hdigits : whole ++ fraction = List.replicate (places + 1 - (Text.ofNat n).length) '0' ++ Text.ofNat n)
    (hwhole : whole.length = max 1 ((Text.ofNat n).length - places)) : PlainWhole whole := by
  cases whole with
  | nil =>
      rw [List.length_nil] at hwhole
      omega
  | cons first rest =>
      rcases Nat.lt_or_ge places (Text.ofNat n).length with hlt | hge
      · have hzeros : places + 1 - (Text.ofNat n).length = 0 := by omega
        rw [hzeros, List.replicate_zero, List.nil_append] at hdigits
        have hhead := Text.head?_ofNat hpos
        rw [← hdigits, List.cons_append, List.head?_cons, ne_eq, Option.some.injEq] at hhead
        exact .digits (hall first (by simp)) hhead fun c hc => hall c (by simp [hc])
      · obtain ⟨zeros, hzeros⟩ : ∃ zeros, places + 1 - (Text.ofNat n).length = zeros + 1 :=
          ⟨places - (Text.ofNat n).length, by omega⟩
        rw [hzeros, List.replicate_succ, List.cons_append, List.cons_append, List.cons.injEq] at hdigits
        obtain rfl : rest = [] := by
          rw [List.length_cons] at hwhole
          exact List.length_eq_zero_iff.mp (by omega)
        rw [hdigits.1]
        exact .zero

/-- The last digit of the number is the last one behind the point. -/
theorem plainFraction_of_withPoint (hlast : ¬ 10 ∣ n) (hall : IsDigits (whole ++ fraction))
    (hdigits : whole ++ fraction = List.replicate (places + 1 - (Text.ofNat n).length) '0' ++ Text.ofNat n)
    (hne : fraction ≠ []) : PlainFraction ('.' :: fraction) := by
  rcases List.eq_nil_or_concat' fraction with rfl | ⟨front, last, rfl⟩
  · exact absurd rfl hne
  · have hend : last = (n % 10).digitChar := by
      have hgetLast := congrArg List.getLast? hdigits
      rw [← List.append_assoc, List.getLast?_concat, List.getLast?_append, Text.getLast?_ofNat] at hgetLast
      exact Option.some.inj hgetLast
    refine .digits (fun c hc => hall c (by simp [hc])) (hall last (by simp)) ?_
    rintro rfl
    exact hlast (Nat.dvd_of_mod_eq_zero
      (Text.digitChar_eq_zero_iff _ (Nat.mod_lt _ (by decide)) hend.symm))

/-- The digits have a point in front of the last ones, or stand behind `0` and the point. -/
theorem plainMagnitude_withPoint (hpos : n ≠ 0) (hlast : ¬ 10 ∣ n) (hplaces : places ≠ 0) :
    PlainMagnitude (withPoint (Text.ofNat n) places) := by
  obtain ⟨whole, fraction, heq, hall, hdigits, hfraction, hwhole⟩ := exists_withPoint n places
  have hne : fraction ≠ [] := by
    rintro rfl
    exact hplaces hfraction.symm
  rw [heq]
  exact .parts (plainWhole_of_withPoint hpos hall hdigits hwhole)
    (plainFraction_of_withPoint hlast hall hdigits hne)

/-- The positional form is plain if the last digit is not zero. -/
theorem plainMagnitude_positional {number : Decimal} (hpos : number.digits ≠ 0)
    (hlast : ¬ 10 ∣ number.digits) : PlainMagnitude number.positional := by
  unfold positional
  split
  · rename_i e _
    have hhead := Text.head?_ofNat hpos
    have hall := Text.isDigits_ofNat number.digits
    cases hdigits : Text.ofNat number.digits with
    | nil => exact absurd hdigits Nat.toDigits_ne_nil
    | cons first rest =>
        rw [hdigits] at hhead hall
        rw [List.head?_cons, ne_eq, Option.some.injEq] at hhead
        obtain ⟨hfirst, hrest⟩ := List.forall_mem_cons.mp hall
        have hwhole : PlainWhole (first :: rest ++ List.replicate e '0') :=
          .digits hfirst hhead (IsDigits.append hrest (Text.isDigits_zeros e))
        rw [← List.append_nil (first :: rest ++ List.replicate e '0')]
        exact .parts hwhole .none
  · exact plainMagnitude_withPoint hpos hlast (Nat.succ_ne_zero _)

/-- The value of the positional form is the decimal. -/
theorem decimalValue_positional (number : Decimal) :
    number.positional.decimalValue = number.digits * 10 ^ number.exponent := by
  obtain ⟨n, exponent⟩ := number
  cases exponent with
  | ofNat e =>
      have hall : IsDigits (Text.ofNat n ++ List.replicate e '0') :=
        (Text.isDigits_ofNat n).append (Text.isDigits_zeros e)
      show (Text.ofNat n ++ List.replicate e '0').decimalValue = _
      rw [Text.decimalValue_whole hall, Nat.ofDigitChars_append, Nat.ofDigitChars_replicate_zero,
        Text.ofNat, Nat.ofDigitChars_ten_toDigits, Int.ofNat_eq_natCast, zpow_natCast]
      push_cast
      exact mul_comm _ _
  | negSucc e =>
      obtain ⟨whole, fraction, heq, hall, hdigits, hfraction, -⟩ := exists_withPoint n (e + 1)
      show (withPoint (Text.ofNat n) (e + 1)).decimalValue = _
      rw [heq, Text.decimalValue_point fun c hc => hall c (List.mem_append_left _ hc), hdigits, hfraction,
        Nat.ofDigitChars_append, Nat.ofDigitChars_replicate_zero, Nat.mul_zero, Text.ofNat,
        Nat.ofDigitChars_ten_toDigits, zpow_negSucc, div_eq_mul_inv]

end Decimal

namespace Binary64

open Number (PlainWhole PlainMagnitude Plain)

variable {units : Nat}

def sign (negative : Bool) : Text := if negative then ['-'] else []

/-- The shortest text without an exponent that denotes a number: behind the sign zero, or the positional form
of a decimal that is rounded to the magnitude. No decimal with fewer digits is, and none of those on the same
grid is closer. -/
inductive ShortestPrint : Binary64 → Text → Prop
  | zero (negative : Bool) : ShortestPrint (zero negative) (sign negative ++ ['0'])
  | decimal {negative : Bool} {units : Nat} {fits : Fits units} {decimal : Decimal}
      (hpos : units ≠ 0) (h : IsShortest units decimal)
      (hfewest : ∀ other : Decimal, Rounds (exactDecimal other.digits other.exponent) units →
        (Text.ofNat decimal.digits).length ≤ (Text.ofNat other.digits).length) :
      ShortestPrint (finite negative units fits) (sign negative ++ decimal.positional)

theorem render_finite (negative : Bool) (fits : Fits units) :
    (finite negative units fits).render = sign negative ++ renderMagnitude units := by
  cases negative <;> rfl

/-- The written form of a finite number is its shortest print. -/
theorem shortestPrint_render {x : Binary64} (hfinite : x.isFinite = true) : ShortestPrint x x.render := by
  cases x with
  | nan => cases hfinite
  | infinity negative => cases hfinite
  | finite negative units fits =>
      rw [render_finite, renderMagnitude]
      split
      · rename_i hzero
        obtain rfl := hzero
        exact .zero negative
      · rename_i hpos
        have hshortest : IsShortest units (shortest .upper units) := isShortest_shortest fits.2 hpos
        exact .decimal hpos hshortest fun _ hother => hshortest.length_le hother

/-- The written magnitude is plain, and its value is rounded to the magnitude. -/
theorem renderMagnitude_spec (hfits : Fits units) : PlainMagnitude (renderMagnitude units) ∧
    Rounds ((renderMagnitude units).decimalValue * one) units := by
  by_cases hzero : units = 0
  · obtain rfl := hzero
    have hvalue : Text.decimalValue ['0'] = 0 := by
      rw [Text.decimalValue_whole (PlainWhole.zero.isDigits)]
      rfl
    refine ⟨.parts .zero .none, ?_⟩
    show Rounds (Text.decimalValue ['0'] * one) 0
    rw [hvalue, zero_mul]
    exact .ofLess le_rfl (by norm_num)
  · have hshortest : IsShortest units (shortest .upper units) := isShortest_shortest hfits.2 hzero
    have hrounds := (hshortest 0).rounds
    have hdigits : (shortest .upper units).digits ≠ 0 := by
      intro hdigits
      exact hshortest.not_dvd (hdigits ▸ Nat.dvd_zero 10)
    rw [renderMagnitude, if_neg hzero, Decimal.decimalValue_positional]
    exact ⟨Decimal.plainMagnitude_positional hdigits hshortest.not_dvd, hrounds⟩

/-- A finite number is read from its written form. -/
theorem read?_render {x : Binary64} (hfinite : x.isFinite = true) : read? x.render = some x := by
  cases x with
  | nan => cases hfinite
  | infinity negative => cases hfinite
  | finite negative units fits =>
      obtain ⟨hplain, hrounds⟩ := renderMagnitude_spec fits
      obtain ⟨first, rest, heq, hfirst⟩ := hplain.exists_cons
      obtain ⟨y, hread, hrounded⟩ := exists_readDecimal? negative hplain.isDecimal
        ⟨first, by rw [heq]; exact List.mem_cons_self, hfirst⟩
      rw [hrounded.unique (.finite hrounds fits)] at hread
      cases negative with
      | false => exact (read?_of_isDecimal hplain.isDecimal).trans hread
      | true => exact (read?_minus hplain.isDecimal).trans hread

/-- The written form of a finite number is plain. -/
theorem plain_render {x : Binary64} (hfinite : x.isFinite = true) : Plain x.render := by
  cases x with
  | nan => cases hfinite
  | infinity negative => cases hfinite
  | finite negative units fits =>
      have hplain := (renderMagnitude_spec fits).1
      cases negative with
      | false => exact .positive hplain
      | true => exact .negative hplain

/-- Of the finite numbers only minus zero is written with a sign and a zero. -/
theorem render_ne {x : Binary64} (hfinite : x.isFinite = true) (hx : x ≠ zero true) :
    x.render ≠ ['-', '0'] := by
  intro heq
  have hread : read? ['-', '0'] = some (zero true) := by decide +kernel
  rw [← heq, read?_render hfinite, Option.some.injEq] at hread
  exact hx hread

/-- Equal finite numbers that are not minus zero are one number. -/
theorem eq_of_isEqual {x y : Binary64} (hfinite : x.isFinite = true) (hx : x ≠ zero true)
    (hy : y ≠ zero true) (h : x.isEqual y = true) : x = y := by
  cases x with
  | nan => cases hfinite
  | infinity negative => cases hfinite
  | finite s a ha =>
      cases y with
      | nan => cases h
      | infinity t => cases h
      | finite t b hb =>
          have hsigned : signed s a = signed t b := by simpa [isEqual] using h
          have hnonzero : ∀ c hc, finite true c hc ≠ zero true → c ≠ 0 := by
            rintro c hc hne rfl
            exact hne rfl
          have hparts : s = t ∧ a = b := by
            cases s <;> cases t <;> simp only [signed] at hsigned
            · exact ⟨rfl, by simpa using hsigned⟩
            · have := hnonzero b hb hy
              simp at hsigned
              omega
            · have := hnonzero a ha hx
              simp at hsigned
              omega
            · exact ⟨rfl, by simpa using hsigned⟩
          obtain ⟨rfl, rfl⟩ := hparts
          rfl

end Binary64

namespace Number

variable {text : Text} {x : Binary64}

theorem read_of_isPlain (h : isPlain text = true) :
    read text = match Binary64.read? text with
      | some number => if number.render = text then .ok number else .error .notCanonical
      | none => .error .notCanonical := by
  have hne : text.isEmpty = false := by
    cases text with
    | nil => cases h
    | cons c text => rfl
  cases hread : Binary64.read? text <;> simp [read, hne, h, hread]

theorem read_of_not_isPlain (hne : text ≠ []) (h : isPlain text = false) :
    read text = .error .notCanonical := by
  rw [read, if_neg (by simpa using hne), h, if_neg Bool.false_ne_true]

/-- A text is read as a number exactly if it is the written form of this number, which is finite and not
minus zero. -/
theorem read_eq_ok_iff :
    read text = .ok x ↔ x.isFinite = true ∧ x ≠ .zero true ∧ text = x.render := by
  constructor
  · intro h
    have hplain : isPlain text = true := by
      by_contra hnot
      by_cases hne : text = []
      · rw [hne] at h
        cases h
      · rw [read_of_not_isPlain hne (by simpa using hnot)] at h
        cases h
    have hrender : x.render = text := by
      rw [read_of_isPlain hplain] at h
      split at h
      · split at h
        · rename_i heq
          cases h
          exact heq
        · cases h
      · cases h
    rw [← hrender] at hplain
    refine ⟨?_, ?_, hrender.symm⟩
    · cases x with
      | nan => exact absurd hplain (by decide)
      | infinity negative => cases negative <;> exact absurd hplain (by decide)
      | finite negative units fits => rfl
    · rintro rfl
      exact (isPlain_iff.mp hplain).2 rfl
  · rintro ⟨hfinite, hx, rfl⟩
    have hplain : isPlain x.render = true :=
      isPlain_iff.mpr ⟨Binary64.plain_render hfinite, Binary64.render_ne hfinite hx⟩
    rw [read_of_isPlain hplain, Binary64.read?_render hfinite]
    exact if_pos rfl

/-- A text is empty exactly if it is read as empty. -/
theorem read_eq_empty_iff : read text = .error .empty ↔ text = [] := by
  constructor
  · intro h
    by_contra hne
    cases hplain : isPlain text with
    | false =>
        rw [read_of_not_isPlain hne hplain] at h
        cases h
    | true =>
        rw [read_of_isPlain hplain] at h
        split at h
        · split at h <;> cases h
        · cases h
  · rintro rfl
    rfl

/-- Canonical numbers are the written numbers: a text is read as a number exactly if the number is finite
and not minus zero and the text is its shortest print. So all these numbers are read from their own print,
equal numbers have one text, and a text without the plain form, or that of minus zero, is no canonical
number; only the empty text is told apart from the rest. -/
theorem read_canonical :
    (∀ text x, read text = .ok x ↔ x.isFinite = true ∧ x ≠ .zero true ∧ text = x.render) ∧
      (∀ x : Binary64, x.isFinite = true → x.ShortestPrint x.render) ∧
      (∀ x : Binary64, x.isFinite = true → x ≠ .zero true → read x.render = .ok x) ∧
      (∀ text text' x x', read text = .ok x → read text' = .ok x' → x.isEqual x' = true →
        text = text') ∧
      (∀ text, read text = .error .empty ↔ text = []) ∧
      ∀ text, text ≠ [] → (¬ Plain text ∨ text = ['-', '0']) → read text = .error .notCanonical := by
  refine ⟨fun _ _ => read_eq_ok_iff, fun _ => Binary64.shortestPrint_render, ?_, ?_,
    fun _ => read_eq_empty_iff, ?_⟩
  · intro x hfinite hx
    exact read_eq_ok_iff.mpr ⟨hfinite, hx, rfl⟩
  · intro text text' x x' h h' hequal
    obtain ⟨hfinite, hx, htext⟩ := read_eq_ok_iff.mp h
    obtain ⟨-, hx', htext'⟩ := read_eq_ok_iff.mp h'
    rw [htext, htext', Binary64.eq_of_isEqual hfinite hx hx' hequal]
  · intro text hne hform
    refine read_of_not_isPlain hne ?_
    rw [← Bool.not_eq_true, isPlain_iff, not_and_or, not_not]
    exact hform

end Number

end FluidSizing
