import FluidSizing.Binary64.Decimal
import FluidSizing.Proofs.Binary64.Nearest
import Mathlib.Data.List.TakeWhile

/-! Decimals as texts. A decimal is digits and, perhaps, a point with digits behind it; either may be
missing, but a decimal without any digit denotes nothing (`readDecimal?_eq_none`). Every other one is read
as the number that its value is correctly rounded to (`exists_readDecimal?`), whether the
reader takes the names of infinite numbers too or not (`read?_of_isDecimal`). -/

namespace FluidSizing

theorem toLower_of_isDigit {c : Char} (h : c.isDigit = true) : c.toLower = c := by
  have hrange : (decide (48 ≤ c.val) && decide (c.val ≤ 57)) = true := h
  simp only [Bool.and_eq_true, decide_eq_true_eq, UInt32.le_iff_toNat_le] at hrange
  refine dif_neg fun hupper => ?_
  simp only [UInt32.le_iff_toNat_le, ge_iff_le] at hupper
  exact absurd (Nat.le_trans hupper.1 hrange.2) (by decide)

namespace Text

def IsDigits (text : Text) : Prop := ∀ c ∈ text, c.isDigit = true

/-- Digits, and perhaps a point with digits behind it. -/
inductive IsDecimal : Text → Prop
  | whole {whole : Text} (h : IsDigits whole) : IsDecimal whole
  | point {whole fraction : Text} (h : IsDigits whole) (h' : IsDigits fraction) :
      IsDecimal (whole ++ '.' :: fraction)

/-- The value of a decimal: the digits before the point, and those behind it over a power of ten. -/
def decimalValue (text : Text) : ℚ :=
  let whole := text.takeWhile (· != '.')
  let fraction := (text.dropWhile (· != '.')).tail
  Nat.ofDigitChars 10 whole 0 + Nat.ofDigitChars 10 fraction 0 / 10 ^ fraction.length

variable {whole fraction text rest : Text}

theorem IsDigits.append (h : IsDigits whole) (h' : IsDigits fraction) : IsDigits (whole ++ fraction) :=
  fun c hc => (List.mem_append.mp hc).elim (h c) (h' c)

theorem IsDecimal.isDigit_or_point (h : IsDecimal text) : ∀ c ∈ text, c.isDigit = true ∨ c = '.' := by
  intro c hc
  cases h with
  | whole h => exact Or.inl (h c hc)
  | point h h' =>
      rcases List.mem_append.mp hc with hc | hc
      · exact Or.inl (h c hc)
      · exact (List.mem_cons.mp hc).symm.imp_left (h' c)

/-- A class of characters ends where a character outside of it stands. -/
theorem span_append {p : Char → Bool} (h : ∀ c ∈ text, p c = true) (hrest : ∀ c ∈ rest.head?, p c = false) :
    (text ++ rest).span p = (text, rest) := by
  rw [List.span_eq_takeWhile_dropWhile, List.takeWhile_append_of_pos h, List.dropWhile_append_of_pos h]
  cases rest with
  | nil => simp
  | cons c rest => simp [hrest c rfl]

theorem span_self {p : Char → Bool} (h : ∀ c ∈ text, p c = true) : text.span p = (text, []) := by
  have hspan : (text ++ []).span p = (text, []) := span_append h (by simp)
  rwa [List.append_nil] at hspan

theorem IsDigits.ne_point (h : IsDigits text) : ∀ c ∈ text, (c != '.') = true := by
  intro c hc
  rw [bne_iff_ne]
  rintro rfl
  exact absurd (h _ hc) (by decide)

theorem decimalValue_whole (h : IsDigits whole) :
    decimalValue whole = Nat.ofDigitChars 10 whole 0 := by
  have hspan := span_self h.ne_point
  rw [List.span_eq_takeWhile_dropWhile, Prod.mk.injEq] at hspan
  simp [decimalValue, hspan]

theorem decimalValue_point (h : IsDigits whole) :
    decimalValue (whole ++ '.' :: fraction) =
      Nat.ofDigitChars 10 (whole ++ fraction) 0 / 10 ^ fraction.length := by
  have hspan : (whole ++ '.' :: fraction).span (· != '.') = (whole, '.' :: fraction) :=
    span_append h.ne_point (by simp)
  rw [List.span_eq_takeWhile_dropWhile, Prod.mk.injEq] at hspan
  have hdigits : Nat.ofDigitChars 10 fraction (Nat.ofDigitChars 10 whole 0) =
      10 ^ fraction.length * Nat.ofDigitChars 10 whole 0 + Nat.ofDigitChars 10 fraction 0 :=
    Nat.ofDigitChars_eq_ofDigitChars_zero
  rw [decimalValue, hspan.1, hspan.2, Nat.ofDigitChars_append, hdigits, List.tail_cons]
  push_cast
  field_simp

end Text

namespace Binary64

open Text (IsDigits IsDecimal)

variable {negative : Bool} {whole fraction text : Text}

theorem readDecimal?_whole (h : IsDigits whole) (hne : whole ≠ []) :
    readDecimal? negative whole = some (ofDecimal negative (Nat.ofDigitChars 10 whole 0) 0) := by
  have hspan : spanDigits whole = (whole, []) := Text.span_self h
  simp [readDecimal?, hspan, spanFraction, exponent?, hne]

theorem readDecimal?_point (h : IsDigits whole) (h' : IsDigits fraction) (hne : whole ++ fraction ≠ []) :
    readDecimal? negative (whole ++ '.' :: fraction) =
      some (ofDecimal negative (Nat.ofDigitChars 10 (whole ++ fraction) 0) (-fraction.length)) := by
  have hspan : spanDigits (whole ++ '.' :: fraction) = (whole, '.' :: fraction) :=
    Text.span_append h (by simp)
  have hfraction : spanDigits fraction = (fraction, []) := Text.span_self h'
  have hempty : (whole.isEmpty && fraction.isEmpty) = false := by
    cases whole with
    | nil => simpa using hne
    | cons c whole => rfl
  simp [readDecimal?, hspan, spanFraction, hfraction, exponent?, hempty]

/-- A decimal without a digit denotes nothing. -/
theorem readDecimal?_eq_none (h : IsDecimal text) (hnone : ∀ c ∈ text, c.isDigit = false) :
    readDecimal? negative text = none := by
  have hnil : ∀ part, IsDigits part → (∀ c ∈ part, c ∈ text) → part = [] := by
    intro part hpart hsub
    refine List.eq_nil_iff_forall_not_mem.mpr fun c hc => ?_
    have hdigit := hpart c hc
    rw [hnone c (hsub c hc)] at hdigit
    cases hdigit
  cases h with
  | whole h =>
      rw [hnil _ h fun c hc => hc]
      rfl
  | point h h' =>
      rw [hnil _ h fun c hc => List.mem_append_left _ hc,
        hnil _ h' fun c hc => List.mem_append_right _ (List.mem_cons_of_mem _ hc)]
      rfl

/-- Every other one is read as the number that its value is rounded to. -/
theorem exists_readDecimal? (negative : Bool) (h : IsDecimal text) (hdigit : ∃ c ∈ text, c.isDigit = true) :
    ∃ x, readDecimal? negative text = some x ∧ CorrectlyRounded negative (text.decimalValue * one) x := by
  obtain ⟨c, hc, hdigit⟩ := hdigit
  cases h with
  | whole h =>
      refine ⟨_, readDecimal?_whole h (List.ne_nil_of_mem hc), ?_⟩
      have hexact := correctlyRounded_ofDecimal negative (Nat.ofDigitChars 10 text 0) 0
      rw [exactDecimal, zpow_zero, mul_one] at hexact
      rw [Text.decimalValue_whole h]
      exact hexact
  | @point whole fraction h h' =>
      have hne : whole ++ fraction ≠ [] := by
        rcases List.mem_append.mp hc with hc | hc
        · simp [List.ne_nil_of_mem hc]
        · rcases List.mem_cons.mp hc with rfl | hc
          · exact absurd hdigit (by decide)
          · simp [List.ne_nil_of_mem hc]
      refine ⟨_, readDecimal?_point h h' hne, ?_⟩
      have hexact := correctlyRounded_ofDecimal negative (Nat.ofDigitChars 10 (whole ++ fraction) 0)
        (-fraction.length)
      rw [exactDecimal, zpow_neg, zpow_natCast, ← div_eq_mul_inv] at hexact
      rw [Text.decimalValue_point h]
      exact hexact

/-- A decimal is not the name of a number. -/
theorem readMagnitude?_of_isDecimal (h : IsDecimal text) :
    readMagnitude? negative text = readDecimal? negative text := by
  have hlower : Text.toLowerAscii text = text := by
    have hmap : ∀ c ∈ text, c.toLower = id c := by
      intro c hc
      rcases h.isDigit_or_point c hc with hdigit | rfl
      · exact toLower_of_isDigit hdigit
      · rfl
    rw [Text.toLowerAscii, List.map_congr_left hmap, List.map_id]
  have hname : ∀ name : Text, (∃ c ∈ name, c.isDigit = false ∧ c ≠ '.') → text ≠ name := by
    rintro name ⟨c, hc, hdigit, hpoint⟩ rfl
    rcases h.isDigit_or_point c hc with h | h
    · rw [hdigit] at h
      cases h
    · exact hpoint h
  have hinf : text ≠ "inf".toList := hname _ ⟨'i', by decide⟩
  have hinfinity : text ≠ "infinity".toList := hname _ ⟨'i', by decide⟩
  have hnan : text ≠ "nan".toList := hname _ ⟨'n', by decide⟩
  simp only [readMagnitude?, hlower, hinf, hinfinity, hnan, decide_false, Bool.or_false,
    Bool.false_eq_true, if_false]

/-- A decimal is read as a number without a sign. -/
theorem read?_of_isDecimal (h : IsDecimal text) : read? text = readDecimal? false text := by
  rw [← readMagnitude?_of_isDecimal h]
  unfold read?
  split
  · rcases h.isDigit_or_point '-' (by simp) with h | h <;> exact absurd h (by decide)
  · rcases h.isDigit_or_point '+' (by simp) with h | h <;> exact absurd h (by decide)
  · rfl

theorem read?_minus (h : IsDecimal text) : read? ('-' :: text) = readDecimal? true text :=
  readMagnitude?_of_isDecimal h

end Binary64

end FluidSizing
