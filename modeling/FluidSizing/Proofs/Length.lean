import FluidSizing.Length
import FluidSizing.Proofs.Binary64.DecimalText
import Mathlib.Data.List.Infix

/-! The grammar of fixed lengths. A trimmed text is cut twice: its numeric part is the longest part at the
start that is digits and points, and its decimal the longest part of that with one point at most
(`Length.Cut`). What the text is read as depends on the decimal having a digit and on what follows the
numeric part (`Length.exists_cut_read`); what follows the decimal in the numeric part is ignored. -/

namespace FluidSizing

/-- The longest part at the start of a text that has a property. -/
structure Text.Longest (P : Text → Prop) (part text : Text) : Prop where
  starts : part <+: text
  holds : P part
  longest : ∀ other : Text, other <+: text → P other → other.length ≤ part.length

theorem Text.Longest.unique {P : Text → Prop} {part part' text : Text} (h : Longest P part text)
    (h' : Longest P part' text) : part = part' := by
  have hlength : part.length = part'.length :=
    Nat.le_antisymm (h'.longest _ h.starts h.holds) (h.longest _ h'.starts h'.holds)
  exact (List.prefix_of_prefix_length_le h.starts h'.starts hlength.le).eq_of_length hlength

def LengthUnit.spelling : LengthUnit → Text
  | pixels => ['p', 'x']
  | ems => ['e', 'm']
  | rootEms => ['r', 'e', 'm']

theorem LengthUnit.ofText?_eq_some_iff {text : Text} {unit : LengthUnit} :
    ofText? text = some unit ↔ text = unit.spelling := by
  constructor
  · intro h
    unfold ofText? at h
    split at h
    · rename_i heq
      cases h
      exact heq
    · split at h
      · rename_i heq
        cases h
        exact heq
      · split at h
        · rename_i heq
          cases h
          exact heq
        · cases h
  · rintro rfl
    cases unit <;> rfl

theorem LengthUnit.ofText?_eq_none_iff {text : Text} :
    ofText? text = none ↔ ∀ unit : LengthUnit, text ≠ unit.spelling := by
  rw [Option.eq_none_iff_forall_ne_some]
  exact forall_congr' fun unit => not_congr ofText?_eq_some_iff

/-- A unit is a non-empty text of letters. -/
theorem LengthUnit.isAlpha_spelling (unit : LengthUnit) :
    unit.spelling ≠ [] ∧ ∀ c ∈ unit.spelling, c.isAlpha = true := by
  cases unit <;> exact ⟨by decide, List.all_eq_true.mp (by decide)⟩

open Text (Longest IsDigits IsDecimal)

/-- The characters of a class at the start are the longest part of such characters. -/
theorem Text.longest_takeWhile (p : Char → Bool) (text : Text) :
    Longest (fun part => ∀ c ∈ part, p c = true) (text.takeWhile p) text := by
  refine ⟨List.takeWhile_prefix p, fun c hc => List.mem_takeWhile_imp hc, ?_⟩
  rintro other ⟨rest, rfl⟩ hother
  rw [List.takeWhile_append_of_pos hother]
  simp

namespace Length

variable {text number decimal suffix whole : Text}

theorem leadingDecimal_point (h : IsDigits whole) (rest : Text) :
    leadingDecimal (whole ++ '.' :: rest) = whole ++ '.' :: rest.takeWhile Char.isDigit := by
  rw [leadingDecimal, Text.span_append h (by simp)]
  rfl

/-- The scan for a decimal takes the digits at the start, and a point with digits behind it where a point
is next. -/
theorem leadingDecimal_cases (text : Text) :
    leadingDecimal text = text.takeWhile Char.isDigit ∨
      ∃ rest, text = text.takeWhile Char.isDigit ++ '.' :: rest ∧
        leadingDecimal text = text.takeWhile Char.isDigit ++ '.' :: rest.takeWhile Char.isDigit := by
  have hsplit : text.takeWhile Char.isDigit ++ text.dropWhile Char.isDigit = text :=
    List.takeWhile_append_dropWhile
  unfold leadingDecimal
  rw [List.span_eq_takeWhile_dropWhile]
  split
  · rename_i whole rest heq
    obtain ⟨rfl, hrest⟩ := Prod.mk.inj heq
    rw [hrest] at hsplit
    exact Or.inr ⟨rest, hsplit.symm, rfl⟩
  · rename_i heq
    exact Or.inl (Prod.mk.inj heq).1.symm

/-- The scan for a decimal finds the longest one. -/
theorem longest_leadingDecimal (text : Text) : Longest IsDecimal (leadingDecimal text) text := by
  obtain ⟨hstarts, hdigits, hlongest⟩ := Text.longest_takeWhile Char.isDigit text
  have hcases := leadingDecimal_cases text
  refine ⟨?_, ?_, ?_⟩
  · rcases hcases with heq | ⟨rest, htext, heq⟩
    · rw [heq]
      exact hstarts
    · rw [heq]
      nth_rewrite 2 [htext]
      rw [List.prefix_append_right_inj, List.prefix_cons_inj]
      exact List.takeWhile_prefix _
  · rcases hcases with heq | ⟨rest, htext, heq⟩
    · rw [heq]
      exact .whole hdigits
    · rw [heq]
      exact .point hdigits fun c hc => List.mem_takeWhile_imp hc
  · intro other hother hdecimal
    cases hdecimal with
    | whole h =>
        refine Nat.le_trans (hlongest _ hother h) ?_
        rcases hcases with heq | ⟨rest, -, heq⟩ <;> simp [heq]
    | @point whole fraction h h' =>
        obtain ⟨back, rfl⟩ := hother
        rw [List.append_assoc, List.cons_append, leadingDecimal_point h,
          List.takeWhile_append_of_pos h']
        simp

/-- The parts of a text that its reading as a length depends on: the numeric part of the trimmed text, the
decimal that it starts with, and what follows it. -/
structure Cut (text number decimal suffix : Text) : Prop where
  trim_eq : Text.trim text = number ++ suffix
  longest_number : Longest (fun part => ∀ c ∈ part, isNumeric c = true) number (Text.trim text)
  longest_decimal : Longest IsDecimal decimal number

/-- The cut that the reader makes. -/
theorem cut (text : Text) : Cut text ((Text.trim text).takeWhile isNumeric)
    (leadingDecimal ((Text.trim text).takeWhile isNumeric)) ((Text.trim text).dropWhile isNumeric) where
  trim_eq := List.takeWhile_append_dropWhile.symm
  longest_number := Text.longest_takeWhile isNumeric _
  longest_decimal := longest_leadingDecimal _

def HasDigit (text : Text) : Prop := ∃ c ∈ text, c.isDigit = true

def IsName (text : Text) : Prop := text ≠ [] ∧ ∀ c ∈ text, c.isAlpha = true

namespace Cut

variable (h : Cut text number decimal suffix)
include h

/-- What a text is read as, in terms of its parts. -/
theorem read_eq : read text =
    match Binary64.readDecimal? false decimal with
    | none => .error .notALength
    | some value =>
      if suffix.isEmpty || !suffix.all Char.isAlpha then .error .notALength
      else
        match LengthUnit.ofText? suffix with
        | some unit => .ok ⟨value, unit⟩
        | none => .error .unsupportedUnit := by
  have hcut := cut text
  obtain rfl := h.longest_number.unique hcut.longest_number
  obtain rfl := h.longest_decimal.unique hcut.longest_decimal
  obtain rfl := List.append_cancel_left (h.trim_eq.symm.trans hcut.trim_eq)
  cases hvalue : Binary64.readDecimal? false (leadingDecimal ((Text.trim text).takeWhile isNumeric)) with
  | none => simp [read, List.span_eq_takeWhile_dropWhile, hvalue]
  | some value =>
      cases hunit : LengthUnit.ofText? ((Text.trim text).dropWhile isNumeric) <;>
        simp [read, List.span_eq_takeWhile_dropWhile, hvalue, hunit]

/-- Nothing is read from a text without a digit in its decimal. -/
theorem read_of_not_hasDigit (hdigit : ¬ HasDigit decimal) : read text = .error .notALength := by
  have hnone : Binary64.readDecimal? false decimal = none := by
    refine Binary64.readDecimal?_eq_none h.longest_decimal.holds fun c hc => ?_
    rw [← Bool.not_eq_true]
    exact fun hc' => hdigit ⟨c, hc, hc'⟩
  rw [h.read_eq, hnone]

/-- Nothing is read from a text that does not go on with letters alone. -/
theorem read_of_not_isName (hname : ¬ IsName suffix) : read text = .error .notALength := by
  have hfails : (suffix.isEmpty || !suffix.all Char.isAlpha) = true := by
    rw [IsName, not_and_or, ne_eq, not_not] at hname
    rcases hname with rfl | hletters
    · rfl
    · rw [← List.all_eq_true, Bool.not_eq_true] at hletters
      rw [hletters, Bool.not_false, Bool.or_true]
  rw [h.read_eq]
  split
  · rfl
  · rw [if_pos hfails]

/-- With a digit and letters, the unit decides, and the number is the decimal. -/
theorem exists_read (hdigit : HasDigit decimal) (hname : IsName suffix) :
    ∃ value, Binary64.read? decimal = some value ∧
      Binary64.CorrectlyRounded false (decimal.decimalValue * Binary64.one) value ∧
      read text = match LengthUnit.ofText? suffix with
        | some unit => .ok ⟨value, unit⟩
        | none => .error .unsupportedUnit := by
  have hdecimal := h.longest_decimal.holds
  obtain ⟨value, hvalue, hrounded⟩ := Binary64.exists_readDecimal? false hdecimal hdigit
  have hholds : (suffix.isEmpty || !suffix.all Char.isAlpha) = false := by
    rw [List.all_eq_true.mpr hname.2, Bool.not_true, Bool.or_false]
    simpa using hname.1
  refine ⟨value, (Binary64.read?_of_isDecimal hdecimal).trans hvalue, hrounded, ?_⟩
  rw [h.read_eq, hvalue]
  dsimp only
  rw [if_neg (by rw [hholds]; decide)]

theorem hasDigit_of_read (hread : read text ≠ .error .notALength) : HasDigit decimal := by
  by_contra hdigit
  exact hread (h.read_of_not_hasDigit hdigit)

theorem isName_of_read (hread : read text ≠ .error .notALength) : IsName suffix := by
  by_contra hname
  exact hread (h.read_of_not_isName hname)

theorem read_eq_ok_iff (length : Length) : read text = .ok length ↔
    HasDigit decimal ∧ suffix = length.unit.spelling ∧
      Binary64.CorrectlyRounded false (decimal.decimalValue * Binary64.one) length.value := by
  constructor
  · intro hread
    have hlength : read text ≠ .error .notALength := by simp [hread]
    have hdigit := h.hasDigit_of_read hlength
    obtain ⟨value, -, hrounded, heq⟩ := h.exists_read hdigit (h.isName_of_read hlength)
    rw [hread] at heq
    split at heq
    · rename_i unit hunit
      cases heq
      exact ⟨hdigit, LengthUnit.ofText?_eq_some_iff.mp hunit, hrounded⟩
    · cases heq
  · rintro ⟨hdigit, rfl, hrounded⟩
    obtain ⟨value, -, hvalue, heq⟩ := h.exists_read hdigit length.unit.isAlpha_spelling
    rw [LengthUnit.ofText?_eq_some_iff.mpr rfl] at heq
    rw [heq, hvalue.unique hrounded]

theorem read_eq_unsupportedUnit_iff : read text = .error .unsupportedUnit ↔
    HasDigit decimal ∧ IsName suffix ∧ ∀ unit : LengthUnit, suffix ≠ unit.spelling := by
  constructor
  · intro hread
    have hlength : read text ≠ .error .notALength := by simp [hread]
    have hdigit := h.hasDigit_of_read hlength
    have hname := h.isName_of_read hlength
    obtain ⟨value, -, -, heq⟩ := h.exists_read hdigit hname
    rw [hread] at heq
    split at heq
    · cases heq
    · rename_i hunit
      exact ⟨hdigit, hname, LengthUnit.ofText?_eq_none_iff.mp hunit⟩
  · rintro ⟨hdigit, hname, hunit⟩
    obtain ⟨value, -, -, heq⟩ := h.exists_read hdigit hname
    rw [heq, LengthUnit.ofText?_eq_none_iff.mpr hunit]

theorem read_eq_notALength_iff :
    read text = .error .notALength ↔ ¬ (HasDigit decimal ∧ IsName suffix) := by
  constructor
  · rintro hread ⟨hdigit, hname⟩
    obtain ⟨value, -, -, heq⟩ := h.exists_read hdigit hname
    rw [hread] at heq
    split at heq <;> cases heq
  · intro hparts
    by_contra hread
    exact hparts ⟨h.hasDigit_of_read hread, h.isName_of_read hread⟩

end Cut

/-- A text is a length exactly if its decimal has a digit and one of the units follows the numeric part;
the number is the decimal, correctly rounded, which never fails to be read. Other letters there are an
unsupported unit, and everything else is no length. -/
theorem exists_cut_read (text : Text) : ∃ number decimal suffix, Cut text number decimal suffix ∧
    (∀ length, read text = .ok length ↔
      HasDigit decimal ∧ suffix = length.unit.spelling ∧
        Binary64.CorrectlyRounded false (decimal.decimalValue * Binary64.one) length.value) ∧
    (read text = .error .unsupportedUnit ↔
      HasDigit decimal ∧ IsName suffix ∧ ∀ unit : LengthUnit, suffix ≠ unit.spelling) ∧
    (read text = .error .notALength ↔ ¬ (HasDigit decimal ∧ IsName suffix)) ∧
    (HasDigit decimal → ∃ value, Binary64.read? decimal = some value ∧
      Binary64.CorrectlyRounded false (decimal.decimalValue * Binary64.one) value) := by
  have h := cut text
  refine ⟨_, _, _, h, h.read_eq_ok_iff, h.read_eq_unsupportedUnit_iff, h.read_eq_notALength_iff, ?_⟩
  intro hdigit
  obtain ⟨value, hvalue, hrounded⟩ :=
    Binary64.exists_readDecimal? false h.longest_decimal.holds hdigit
  exact ⟨value, (Binary64.read?_of_isDecimal h.longest_decimal.holds).trans hvalue, hrounded⟩

end Length

end FluidSizing
