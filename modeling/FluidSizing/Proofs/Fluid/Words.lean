import FluidSizing.Length
import FluidSizing.Number
import FluidSizing.Proofs.Token.Last
import Mathlib.Data.List.TakeDrop
import Mathlib.Data.List.TakeWhile

/-! The characters of words that are read as lengths or numbers. None of them is a bracket, a quote or a
backslash, so a word with one of these (`Text.Garbled`) is neither, whatever is added to it. -/

namespace FluidSizing

namespace Length

/-- The characters of a length with white space around it. -/
def isPart (c : Char) : Bool := isWhiteSpace c || isNumeric c || c.isAlpha

theorem isPart_of_mem_of_read {word : Text} {length : Length} (h : read word = .ok length) :
    ∀ c ∈ word, isPart c = true := by
  have hsuffix : ((Text.trim word).dropWhile isNumeric).all Char.isAlpha = true := by
    unfold read at h
    rw [List.span_eq_takeWhile_dropWhile] at h
    dsimp only at h
    split at h
    · cases h
    · split at h
      · cases h
      · rename_i hletters
        simp only [Bool.or_eq_true, Bool.not_eq_true', not_or, Bool.not_eq_false] at hletters
        exact hletters.2
  have htrim : ∀ c ∈ Text.trim word, isPart c = true := by
    intro c hc
    rw [← List.takeWhile_append_dropWhile (p := isNumeric) (l := Text.trim word)] at hc
    rcases List.mem_append.mp hc with hc | hc
    · simp [isPart, List.mem_takeWhile_imp hc]
    · simp [isPart, List.all_eq_true.mp hsuffix c hc]
  intro c hc
  rw [← Text.trim_eq word] at hc
  rcases List.mem_append.mp hc with hc | hc
  · rcases List.mem_append.mp hc with hc | hc
    · simp [isPart, List.mem_takeWhile_imp hc]
    · exact htrim c hc
  · have hspace := List.mem_takeWhile_imp (List.mem_reverse.mp hc)
    simp [isPart, hspace]

theorem ne_nil_of_read {word : Text} {length : Length} (h : read word = .ok length) :
    word ≠ [] := by
  rintro rfl
  have hnil : read [] = .error .notALength := rfl
  rw [hnil] at h
  cases h

end Length

namespace Number

/-- The characters of a plain number. -/
def isPart (c : Char) : Bool := c = '-' || c = '.' || c.isDigit

theorem isPart_of_isPlainWhole {text : Text} (h : isPlainWhole text = true) :
    ∀ c ∈ text, isPart c = true := by
  cases text with
  | nil => simp
  | cons first rest =>
      simp only [isPlainWhole] at h
      split at h
      · rename_i hzero
        rw [List.isEmpty_iff.mp h, hzero]
        exact List.all_eq_true.mp (by decide)
      · rw [Bool.and_eq_true, List.all_eq_true] at h
        refine List.forall_mem_cons.mpr ⟨?_, fun c hc => ?_⟩
        · simp [isPart, h.1]
        · simp [isPart, h.2 c hc]

theorem isPart_of_isPlainFraction {c : Char} {text : Text} (hc : isPart c = true)
    (h : isPlainFraction (c :: text) = true) : ∀ d ∈ c :: text, isPart d = true := by
  simp only [isPlainFraction, Bool.and_eq_true, List.all_eq_true] at h
  refine List.forall_mem_cons.mpr ⟨hc, fun d hd => ?_⟩
  simp [isPart, h.1.2 d hd]

theorem isPart_of_isPlain {text : Text} (h : isPlain text = true) : ∀ c ∈ text, isPart c = true := by
  have hmagnitude : ∀ c ∈ magnitudeText text, isPart c = true := by
    unfold isPlain at h
    rw [List.span_eq_takeWhile_dropWhile] at h
    simp only [Bool.and_eq_true] at h
    obtain ⟨⟨hwhole, hfraction⟩, -⟩ := h
    intro c hc
    rw [← List.takeWhile_append_dropWhile (p := (· != '.')) (l := magnitudeText text)] at hc
    rcases List.mem_append.mp hc with hc | hc
    · exact isPart_of_isPlainWhole hwhole c hc
    · cases hdrop : (magnitudeText text).dropWhile (· != '.') with
      | nil =>
          rw [hdrop] at hc
          cases hc
      | cons d rest =>
          rw [hdrop] at hc hfraction
          have hpoint : d = '.' := by
            have hhead := List.head?_dropWhile_not (· != '.') (magnitudeText text)
            rw [hdrop] at hhead
            simpa using hhead
          exact isPart_of_isPlainFraction (by rw [hpoint]; decide) hfraction c hc
  unfold magnitudeText at hmagnitude
  split at hmagnitude
  · exact List.forall_mem_cons.mpr ⟨by decide, hmagnitude⟩
  · exact hmagnitude

theorem isPlain_of_read {text : Text} {number : Binary64} (h : read text = .ok number) :
    isPlain text = true := by
  unfold read at h
  split at h
  · cases h
  · split at h
    · assumption
    · cases h

end Number

namespace Text

/-- A garbled text is no length. -/
theorem Garbled.length_read {text : Text} (h : text.Garbled) (length : Length) :
    Length.read text ≠ .ok length := by
  intro hread
  obtain ⟨c, hc, hcases⟩ := h
  have hpart := Length.isPart_of_mem_of_read hread c hc
  rcases hcases with rfl | rfl | rfl | rfl <;> exact absurd hpart (by decide)

/-- A garbled text is no number. -/
theorem Garbled.number_read {text : Text} (h : text.Garbled) (number : Binary64) :
    Number.read text ≠ .ok number := by
  intro hread
  obtain ⟨c, hc, hcases⟩ := h
  have hpart := Number.isPart_of_isPlain (Number.isPlain_of_read hread) c hc
  rcases hcases with rfl | rfl | rfl | rfl <;> exact absurd hpart (by decide)

end Text

end FluidSizing
