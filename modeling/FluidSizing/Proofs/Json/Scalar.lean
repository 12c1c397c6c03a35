import FluidSizing.Json.Scalar
import FluidSizing.Proofs.Json.Number

/-! White space, truth values and numbers in front of other text. A truth value is read where one stands
behind white space, and only there (`readBool_eq_ok_iff`), and so is a number
(`IsNumber.readBinary64_eq_ok_iff`, `exists_isNumber_of_readBinary64`). Of no JSON value only a part is read
as one of the two (`rest_eq_of_readBool`, `rest_eq_of_readBinary64`). -/

namespace FluidSizing
namespace Json

structure Blanks where
  text : Text
  isBlank : ∀ c ∈ text, Json.isBlank c = true

def Blanks.none : Blanks := ⟨[], List.forall_mem_nil _⟩

def Blanks.append (blanks blanks' : Blanks) : Blanks where
  text := blanks.text ++ blanks'.text
  isBlank := fun c hc => (List.mem_append.mp hc).elim (blanks.isBlank c) (blanks'.isBlank c)

def boolText : Bool → Text
  | true => "true".toList
  | false => "false".toList

/-- A JSON value, or any text that starts as a null, a string, a list or an object does. -/
inductive IsValueLike : Text → Prop where
  | bool (value : Bool) : IsValueLike (boolText value)
  | number {number : Text} (isNumber : IsNumber number) : IsValueLike number
  | other {c : Char} {rest : Text} (starts : c = 'n' ∨ c = '\x22' ∨ c = '[' ∨ c = '\x7b') :
      IsValueLike (c :: rest)

variable {text rest : Text}

/-! White space. -/

theorem Blanks.skipBlanks_append (blanks : Blanks) : skipBlanks (blanks.text ++ rest) = skipBlanks rest :=
  List.dropWhile_append_of_pos blanks.isBlank

theorem skipBlanks_cons {c : Char} (h : isBlank c = false) : skipBlanks (c :: rest) = c :: rest :=
  List.dropWhile_cons_of_neg (by rw [h]; decide)

theorem exists_blanks (text : Text) : ∃ blanks : Blanks, text = blanks.text ++ skipBlanks text :=
  ⟨⟨text.takeWhile isBlank, fun _ hc => List.mem_takeWhile_imp hc⟩,
    (List.takeWhile_append_dropWhile ..).symm⟩

theorem isBlank_eq_false_of_isDigit {c : Char} (h : c.isDigit = true) : isBlank c = false := by
  rw [isBlank, Bool.or_eq_false_iff, Bool.or_eq_false_iff, Bool.or_eq_false_iff]
  refine ⟨⟨⟨?_, ?_⟩, ?_⟩, ?_⟩ <;>
  · rw [decide_eq_false_iff_not]
    rintro rfl
    cases h

/-! Words. -/

theorem readWord_eq_ok_iff {word : Text} : readWord word text = .ok rest ↔ text = word ++ rest := by
  induction word generalizing text with
  | nil => exact ⟨Except.ok.inj, congrArg Except.ok⟩
  | cons w word ih =>
      cases text with
      | nil =>
          constructor
          · intro h
            cases h
          · intro h
            cases h
      | cons c text =>
          rw [readWord, List.cons_append, List.cons.injEq]
          split
          · rename_i hc
            rw [ih, and_iff_right hc]
          · rename_i hc
            constructor
            · intro h
              cases h
            · intro h
              exact absurd h.1 hc

/-- A word of which the first character has been read. -/
theorem map_readWord_eq_ok_iff {α : Type} {word : Text} {value value' : α} :
    (readWord word text).map (fun rest => (value, rest)) = .ok (value', rest) ↔
      value = value' ∧ text = word ++ rest := by
  rw [← readWord_eq_ok_iff]
  cases readWord word text with
  | error fault =>
      constructor
      · intro h
        cases h
      · intro h
        cases h.2
  | ok behind =>
      rw [Except.map, Except.ok.injEq, Except.ok.injEq, Prod.mk.injEq]

/-! Truth values. -/

theorem head?_boolText {value : Bool} : ∀ c ∈ (boolText value ++ rest).head?, c = 't' ∨ c = 'f' := by
  intro c hc
  cases value with
  | false => exact Or.inr (Option.some.inj hc).symm
  | true => exact Or.inl (Option.some.inj hc).symm

theorem readBool_eq_ok_iff {value : Bool} :
    readBool text = .ok (value, rest) ↔
      ∃ blanks : Blanks, text = blanks.text ++ (boolText value ++ rest) := by
  constructor
  · intro h
    obtain ⟨blanks, hblanks⟩ := exists_blanks text
    refine ⟨blanks, ?_⟩
    unfold readBool at h
    split at h
    · cases h
    · rename_i behind hskip
      obtain ⟨rfl, rfl⟩ := map_readWord_eq_ok_iff.mp h
      rw [hblanks, hskip]
      rfl
    · rename_i behind hskip
      obtain ⟨rfl, rfl⟩ := map_readWord_eq_ok_iff.mp h
      rw [hblanks, hskip]
      rfl
    · cases h
  · rintro ⟨blanks, rfl⟩
    unfold readBool
    rw [blanks.skipBlanks_append]
    cases value with
    | false => exact map_readWord_eq_ok_iff.mpr ⟨rfl, rfl⟩
    | true => exact map_readWord_eq_ok_iff.mpr ⟨rfl, rfl⟩

/-! Numbers. -/

/-- A number starts with a minus or a digit. -/
theorem IsNumber.exists_cons {number : Text} (h : IsNumber number) :
    ∃ c rest, number = c :: rest ∧ (c = '-' ∨ c.isDigit = true) := by
  cases h with
  | minus => exact ⟨'-', _, rfl, Or.inl rfl⟩
  | plain isUnsigned =>
      obtain ⟨isWhole, -, -⟩ := isUnsigned
      cases isWhole with
      | zero => exact ⟨'0', _, rfl, Or.inr rfl⟩
      | digits hfirst => exact ⟨_, _, rfl, Or.inr hfirst⟩

theorem isNumber_showInteger (n : Int) : IsNumber (showInteger n) := by
  have hunsigned : ∀ n : Nat, IsUnsigned (Text.ofNat n) := by
    intro n
    have hwhole : FluidSizing.Number.PlainWhole (Text.ofNat n) := by
      by_cases hzero : n = 0
      · rw [hzero]
        exact .zero
      · have hdigits := Text.isDigits_ofNat n
        have hhead := Text.head?_ofNat hzero
        obtain ⟨c, digits, hcons⟩ := List.exists_cons_of_ne_nil
          (show Text.ofNat n ≠ [] from Nat.toDigits_ne_nil)
        rw [hcons] at hdigits hhead ⊢
        obtain ⟨hc, hdigits⟩ := List.forall_mem_cons.mp hdigits
        exact .digits hc (fun heq => hhead (congrArg some heq)) hdigits
    have h := IsUnsigned.mk hwhole .absent .absent
    rwa [List.append_nil, List.append_nil] at h
  cases n with
  | ofNat n => exact .plain (hunsigned n)
  | negSucc n => exact .minus (hunsigned (n + 1))

theorem IsNumber.skipBlanks {number : Text} (h : IsNumber number) (blanks : Blanks) :
    skipBlanks (blanks.text ++ (number ++ rest)) = number ++ rest := by
  obtain ⟨c, behind, rfl, hc⟩ := h.exists_cons
  rw [blanks.skipBlanks_append, List.cons_append]
  refine skipBlanks_cons ?_
  rcases hc with rfl | hdigit
  · rfl
  · exact isBlank_eq_false_of_isDigit hdigit

/-- A number that stands behind white space is read there. -/
theorem IsNumber.readBinary64_eq_ok_iff {number rest' : Text} {x : Binary64} (h : IsNumber number)
    (blanks : Blanks) :
    readBinary64 (blanks.text ++ (number ++ rest)) = .ok (x, rest') ↔
      ∃ n : Number, readNumber (number ++ rest) = .ok (n, rest') ∧ n.toBinary64 = x := by
  have hskip : Json.skipBlanks (blanks.text ++ (number ++ rest)) = number ++ rest := h.skipBlanks blanks
  obtain ⟨c, behind, rfl, hc⟩ := h.exists_cons
  rw [readBinary64, hskip, List.cons_append]
  dsimp only
  rw [if_pos (by simpa using hc)]
  constructor
  · intro hread
    obtain ⟨⟨n, rest''⟩, hnumber, heq⟩ := exists_of_map_eq_ok hread
    obtain ⟨rfl, rfl⟩ := Prod.mk.inj heq
    exact ⟨n, hnumber, rfl⟩
  · rintro ⟨n, hread, rfl⟩
    rw [hread]
    rfl

theorem exists_isNumber_of_readBinary64 {x : Binary64} (h : readBinary64 text = .ok (x, rest)) :
    ∃ (blanks : Blanks) (number : Text), text = blanks.text ++ (number ++ rest) ∧ IsNumber number ∧
      x.isFinite = true := by
  obtain ⟨blanks, hblanks⟩ := exists_blanks text
  unfold readBinary64 at h
  split at h
  · cases h
  · rename_i c behind hskip
    split at h
    · obtain ⟨⟨number, rest'⟩, hread, heq⟩ := exists_of_map_eq_ok h
      obtain ⟨rfl, rfl⟩ := Prod.mk.inj heq
      obtain ⟨spelling, hspelling, hnumber, hfinite⟩ := exists_isNumber hread
      refine ⟨blanks, spelling, ?_, hnumber, hfinite⟩
      rw [← hspelling, ← hskip]
      exact hblanks
    · cases h

/-! Values of any type. -/

variable {value rest' : Text} (blanks : Blanks)

theorem IsValueLike.exists_cons (h : IsValueLike value) :
    ∃ c behind, value = c :: behind ∧ isBlank c = false := by
  cases h with
  | bool value =>
      cases value with
      | false => exact ⟨'f', _, rfl, rfl⟩
      | true => exact ⟨'t', _, rfl, rfl⟩
  | number isNumber =>
      obtain ⟨c, behind, rfl, hc⟩ := isNumber.exists_cons
      refine ⟨c, behind, rfl, ?_⟩
      rcases hc with rfl | hdigit
      · rfl
      · exact isBlank_eq_false_of_isDigit hdigit
  | @other c rest starts =>
      refine ⟨c, rest, rfl, ?_⟩
      rcases starts with rfl | rfl | rfl | rfl <;> rfl

theorem IsValueLike.skipBlanks (h : IsValueLike value) :
    skipBlanks (blanks.text ++ (value ++ rest)) = value ++ rest := by
  obtain ⟨c, behind, rfl, hc⟩ := h.exists_cons
  rw [blanks.skipBlanks_append]
  exact skipBlanks_cons hc

/-- What is read as a truth value is all of the value. -/
theorem rest_eq_of_readBool {read : Bool} (h : IsValueLike value)
    (hread : readBool (blanks.text ++ (value ++ rest)) = .ok (read, rest')) : rest' = rest := by
  obtain ⟨blanks', heq⟩ := readBool_eq_ok_iff.mp hread
  have hskip := congrArg Json.skipBlanks heq
  rw [h.skipBlanks, (IsValueLike.bool read).skipBlanks] at hskip
  have hhead : ∀ c ∈ (value ++ rest).head?, c = 't' ∨ c = 'f' := hskip ▸ head?_boolText
  cases h with
  | bool value =>
      cases value <;> cases read
      · exact (List.append_cancel_left hskip).symm
      · cases hskip
      · cases hskip
      · exact (List.append_cancel_left hskip).symm
  | number isNumber =>
      obtain ⟨c, behind, rfl, hc⟩ := isNumber.exists_cons
      rcases hhead c rfl with rfl | rfl <;> simp at hc
  | other starts => rcases starts with rfl | rfl | rfl | rfl <;> exact absurd (hhead _ rfl) (by decide)

/-- What is read as a number is all of the value. -/
theorem rest_eq_of_readBinary64 {x : Binary64} (h : IsValueLike value) (hrest : EndsNumber rest)
    (hread : readBinary64 (blanks.text ++ (value ++ rest)) = .ok (x, rest')) : rest' = rest := by
  obtain ⟨blanks', number, heq, hnumber, -⟩ := exists_isNumber_of_readBinary64 hread
  have hskip := congrArg Json.skipBlanks heq
  rw [h.skipBlanks, hnumber.skipBlanks] at hskip
  obtain ⟨d, behind, rfl, hd⟩ := hnumber.exists_cons
  have hhead : ∀ c ∈ (value ++ rest).head?, c = '-' ∨ c.isDigit = true := by
    rintro c hc
    rw [hskip] at hc
    rwa [← Option.some.inj hc]
  cases h with
  | bool value => cases value <;> exact absurd (hhead _ rfl) (by decide)
  | number isNumber =>
      obtain ⟨n, hread, -⟩ := (isNumber.readBinary64_eq_ok_iff blanks).mp hread
      have hbehind := (reads_readNumber _ _ _ hread).1
      rw [behindNumber_append isNumber hrest] at hbehind
      exact (Option.some.inj hbehind).symm
  | other starts => rcases starts with rfl | rfl | rfl | rfl <;> exact absurd (hhead _ rfl) (by decide)

end Json
end FluidSizing
