import FluidSizing.Json.String

/-! Strings as they are spelled. `Spells spelling text` says that the text between the quotes of a JSON string
is `spelling` and that it denotes `text`: characters that stand for themselves, and escapes. Reading a
string finds its spelling and gives what it denotes (`Spells.readString`, `exists_spells`). -/

namespace FluidSizing
namespace Json

/-- What is made of a result is made of a result. -/
theorem exists_of_map_eq_ok {α β : Type} {read : Except Fault α} {f : α → β} {b : β}
    (h : read.map f = .ok b) : ∃ a, read = .ok a ∧ f a = b := by
  cases read with
  | error fault => cases h
  | ok a => exact ⟨a, rfl, Except.ok.inj h⟩

/-- Four hexadecimal digits, and the code unit they denote. -/
structure IsUnit (digits : Text) (unit : Nat) : Prop where
  length_eq : digits.length = 4
  isHexDigit : digits.all Token.isHexDigit = true
  value_eq : digits.foldl (fun unit c => 16 * unit + Token.hexValue c) 0 = unit

/-- An escape behind its backslash, and the character it denotes. -/
inductive IsEscape : Text → Char → Prop where
  | letter {c d : Char} (denotes : escapedLetter? c = some d) : IsEscape [c] d
  | unit {digits : Text} {unit : Nat} (isUnit : IsUnit digits unit)
      (leading : isLeadingSurrogate unit = false) (trailing : isTrailingSurrogate unit = false) :
      IsEscape ('u' :: digits) (Char.ofNat unit)
  | pair {digits digits' : Text} {unit unit' : Nat} (isUnit : IsUnit digits unit)
      (isUnit' : IsUnit digits' unit') (leading : isLeadingSurrogate unit = true)
      (trailing : isTrailingSurrogate unit' = true) :
      IsEscape ('u' :: (digits ++ '\\' :: 'u' :: digits'))
        (Char.ofNat ((unit - 0xD800) * 0x400 + (unit' - 0xDC00) + 0x10000))

/-- The text between the quotes of a string, and the text it denotes. -/
inductive Spells : Text → Text → Prop where
  | nil : Spells [] []
  | plain {c : Char} {spelling text : Text} (not_quote : c ≠ '\x22') (not_backslash : c ≠ '\\')
      (not_control : ¬ c.toNat < 0x20) (behind : Spells spelling text) : Spells (c :: spelling) (c :: text)
  | escape {escape spelling text : Text} {d : Char} (isEscape : IsEscape escape d)
      (behind : Spells spelling text) : Spells ('\\' :: (escape ++ spelling)) (d :: text)

theorem four_le_byteSize {text : Text} (h : 4 ≤ text.length) : 4 ≤ Text.byteSize text := by
  have hle : text.length ≤ Text.byteSize text := by
    clear h
    induction text with
    | nil => simp
    | cons c text ih =>
        have hpos := c.utf8Size_pos
        rw [Text.byteSize_cons, List.length_cons]
        omega
  omega

theorem readUnit_eq_ok_iff {text : Text} {unit : Nat} :
    readUnit text = .ok unit ↔ ∃ digits rest, text = digits ++ rest ∧ IsUnit digits unit := by
  constructor
  · intro h
    unfold readUnit at h
    split at h
    · cases h
    · dsimp only at h
      split at h
      · rename_i hdigits
        rw [Bool.and_eq_true, decide_eq_true_eq] at hdigits
        exact ⟨text.take 4, text.drop 4, (List.take_append_drop 4 text).symm, hdigits.1, hdigits.2,
          Except.ok.inj h⟩
      · cases h
  · rintro ⟨digits, rest, rfl, hlength, hhex, hvalue⟩
    have htake : (digits ++ rest).take 4 = digits := by rw [← hlength, List.take_left]
    have hbytes : 4 ≤ Text.byteSize (digits ++ rest) :=
      four_le_byteSize (by rw [List.length_append]; omega)
    rw [readUnit, if_neg (Nat.not_lt.mpr hbytes)]
    simp [htake, hlength, hhex, hvalue]

theorem readTrailing_eq_ok_iff {text : Text} {unit : Nat} :
    readTrailing text = .ok unit ↔ ∃ digits rest, text = '\\' :: 'u' :: (digits ++ rest) ∧
      IsUnit digits unit ∧ isTrailingSurrogate unit = true := by
  constructor
  · intro h
    unfold readTrailing at h
    split at h
    · cases h
    · cases h
    · rename_i rest
      split at h
      · cases h
      · rename_i second hunit
        split at h
        · rename_i htrailing
          obtain rfl := Except.ok.inj h
          obtain ⟨digits, behind, rfl, hdigits⟩ := readUnit_eq_ok_iff.mp hunit
          exact ⟨digits, behind, rfl, hdigits, htrailing⟩
        · cases h
    · cases h
    · cases h
  · rintro ⟨digits, rest, rfl, hdigits, htrailing⟩
    rw [readTrailing, readUnit_eq_ok_iff.mpr ⟨digits, rest, rfl, hdigits⟩]
    exact if_pos htrailing

theorem readCodePoint_eq_ok_iff {text : Text} {d : Char} {size : Nat} :
    readCodePoint text = .ok (d, size) ↔ ∃ digits rest, text = digits ++ rest ∧
      size = digits.length ∧ IsEscape ('u' :: digits) d := by
  constructor
  · intro h
    unfold readCodePoint at h
    split at h
    · cases h
    · rename_i unit hunit
      obtain ⟨digits, rest, rfl, hdigits⟩ := readUnit_eq_ok_iff.mp hunit
      split at h
      · cases h
      · rename_i htrailing
        split at h
        · rename_i hleading
          split at h
          · cases h
          · rename_i second hsecond
            obtain ⟨digits', rest', hrest, hdigits', htrailing'⟩ := readTrailing_eq_ok_iff.mp hsecond
            rw [← hdigits.length_eq, List.drop_left] at hrest
            obtain ⟨rfl, rfl⟩ := Prod.mk.inj (Except.ok.inj h)
            refine ⟨digits ++ '\\' :: 'u' :: digits', rest', by simp [hrest], ?_,
              .pair hdigits hdigits' hleading htrailing'⟩
            simp [hdigits.length_eq, hdigits'.length_eq]
        · rename_i hleading
          obtain ⟨rfl, rfl⟩ := Prod.mk.inj (Except.ok.inj h)
          exact ⟨digits, rest, rfl, hdigits.length_eq.symm,
            .unit hdigits (Bool.eq_false_iff.mpr hleading) (Bool.eq_false_iff.mpr htrailing)⟩
  · rintro ⟨digits, rest, rfl, rfl, hescape⟩
    cases hescape with
    | letter denotes => cases denotes
    | unit isUnit leading trailing =>
        rw [readCodePoint, readUnit_eq_ok_iff.mpr ⟨_, _, rfl, isUnit⟩]
        simp [leading, trailing, isUnit.length_eq]
    | @pair digits digits' unit unit' isUnit isUnit' leading trailing =>
        have hsurrogate : isTrailingSurrogate unit = false := by
          simp only [isLeadingSurrogate, isTrailingSurrogate, Bool.and_eq_true, decide_eq_true_eq,
            Bool.and_eq_false_iff, decide_eq_false_iff_not] at leading ⊢
          omega
        have hdrop : (digits ++ '\\' :: 'u' :: digits' ++ rest).drop 4 =
            '\\' :: 'u' :: (digits' ++ rest) := by
          rw [List.append_assoc, ← isUnit.length_eq, List.drop_left]
          rfl
        rw [readCodePoint, readUnit_eq_ok_iff.mpr ⟨digits, '\\' :: 'u' :: digits' ++ rest, by simp, isUnit⟩]
        simp only [hsurrogate, leading, hdrop, Bool.false_eq_true, if_false, if_true,
          readTrailing_eq_ok_iff.mpr ⟨digits', rest, rfl, isUnit', trailing⟩]
        simp [isUnit.length_eq, isUnit'.length_eq]

theorem readEscape_eq_ok_iff {text : Text} {d : Char} {size : Nat} :
    readEscape text = .ok (d, size) ↔ ∃ escape rest, text = escape ++ rest ∧
      size = escape.length ∧ IsEscape escape d := by
  constructor
  · intro h
    unfold readEscape at h
    split at h
    · cases h
    · rename_i c rest
      split at h
      · rename_i hc
        obtain ⟨⟨point, count⟩, hpoint, heq⟩ := exists_of_map_eq_ok h
        obtain ⟨rfl, rfl⟩ := Prod.mk.inj heq
        obtain ⟨digits, behind, rfl, rfl, hescape⟩ := readCodePoint_eq_ok_iff.mp hpoint
        exact ⟨'u' :: digits, behind, by rw [hc]; rfl, rfl, hescape⟩
      · split at h
        · rename_i letter hletter
          obtain ⟨rfl, rfl⟩ := Prod.mk.inj (Except.ok.inj h)
          exact ⟨[c], rest, rfl, rfl, .letter hletter⟩
        · cases h
  · rintro ⟨escape, rest, rfl, rfl, hescape⟩
    cases hescape with
    | letter denotes =>
        rename_i c
        have hc : c ≠ 'u' := by
          rintro rfl
          cases denotes
        simp [readEscape, hc, denotes]
    | unit isUnit leading trailing =>
        have hpoint := readCodePoint_eq_ok_iff.mpr ⟨_, rest, rfl, rfl, .unit isUnit leading trailing⟩
        simp [readEscape, hpoint, Except.map]
    | pair isUnit isUnit' leading trailing =>
        have hpoint := readCodePoint_eq_ok_iff.mpr
          ⟨_, rest, rfl, rfl, .pair isUnit isUnit' leading trailing⟩
        simp only [List.append_assoc, List.cons_append] at hpoint
        simp [readEscape, hpoint, Except.map]

theorem readStringFrom_eq_drop (skip : Nat) (text : Text) :
    readStringFrom skip text = readStringFrom 0 (text.drop skip) := by
  induction text generalizing skip with
  | nil => cases skip <;> simp [readStringFrom]
  | cons c text ih =>
      cases skip with
      | zero => rfl
      | succ skip => rw [readStringFrom, ih, List.drop_succ_cons]

/-- What is spelled is read. -/
theorem Spells.readString {spelling text : Text} (h : Spells spelling text) (rest : Text) :
    readString (spelling ++ '\x22' :: rest) = .ok (text, rest) := by
  rw [Json.readString]
  induction h with
  | nil => simp [readStringFrom]
  | plain not_quote not_backslash not_control _ ih =>
      simp [readStringFrom, not_quote, not_backslash, not_control, ih, Except.map]
  | @escape escape spelling text d isEscape behind ih =>
      have hescape : readEscape (escape ++ (spelling ++ '\x22' :: rest)) = .ok (d, escape.length) :=
        readEscape_eq_ok_iff.mpr ⟨escape, _, rfl, rfl, isEscape⟩
      simp [readStringFrom, hescape, readStringFrom_eq_drop escape.length, ih, Except.map]

/-- Characters that are no quotes, backslashes or controls stand for themselves. -/
theorem Spells.of_plain {text : Text}
    (h : text.all (fun c => c ≠ '\x22' && c ≠ '\\' && 0x20 ≤ c.toNat) = true) : Spells text text := by
  induction text with
  | nil => exact .nil
  | cons c text ih =>
      simp only [List.all_cons, Bool.and_eq_true, decide_eq_true_eq] at h
      obtain ⟨⟨⟨hquote, hbackslash⟩, hcontrol⟩, h⟩ := h
      exact .plain hquote hbackslash (Nat.not_lt.mpr hcontrol) (ih h)

/-- What is read is spelled. -/
theorem exists_spells {source text rest : Text} (h : readString source = .ok (text, rest)) :
    ∃ spelling, source = spelling ++ '\x22' :: rest ∧ Spells spelling text := by
  rw [Json.readString] at h
  induction hlen : source.length using Nat.strongRecOn generalizing source text with
  | ind n ih =>
      cases source with
      | nil => simp [readStringFrom] at h
      | cons c source =>
          rw [List.length_cons] at hlen
          rw [readStringFrom] at h
          split at h
          · rename_i hquote
            obtain ⟨rfl, rfl⟩ := Prod.mk.inj (Except.ok.inj h)
            exact ⟨[], by rw [hquote]; rfl, .nil⟩
          · rename_i hquote
            split at h
            · rename_i hbackslash
              split at h
              · cases h
              · rename_i d size hread
                obtain ⟨escape, behind, rfl, rfl, hescape⟩ := readEscape_eq_ok_iff.mp hread
                rw [readStringFrom_eq_drop, List.drop_left] at h
                rw [List.length_append] at hlen
                obtain ⟨⟨text', rest'⟩, hbehind, heq⟩ := exists_of_map_eq_ok h
                obtain ⟨rfl, rfl⟩ := Prod.mk.inj heq
                obtain ⟨spelling, rfl, hspells⟩ := ih behind.length (by omega) hbehind rfl
                exact ⟨'\\' :: (escape ++ spelling), by rw [hbackslash]; simp, .escape hescape hspells⟩
            · rename_i hbackslash
              split at h
              · cases h
              · rename_i hcontrol
                obtain ⟨⟨text', rest'⟩, hbehind, heq⟩ := exists_of_map_eq_ok h
                obtain ⟨rfl, rfl⟩ := Prod.mk.inj heq
                obtain ⟨spelling, rfl, hspells⟩ := ih source.length (by omega) hbehind rfl
                exact ⟨c :: spelling, rfl, .plain hquote hbackslash hcontrol hspells⟩

end Json
end FluidSizing
