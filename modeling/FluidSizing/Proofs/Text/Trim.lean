import FluidSizing.Proofs.Sheet.LaidOut
import Mathlib.Data.List.TakeWhile
import Mathlib.Data.List.Infix

/-! Trimmed texts and the mark of important declarations. A text without white space at its ends is what
trimming leaves of it with white space around it (`Text.trim_append`), and what stands before the last
mark of a text does not depend on the mark and what follows (`Text.beforeLast?_append`). -/

namespace FluidSizing

theorem isWhiteSpace_of_isBlank {c : Char} (h : Token.isBlank c = true) : isWhiteSpace c = true := by
  simp only [Token.isBlank, Bool.or_eq_true, decide_eq_true_eq] at h
  rcases h with (((rfl | rfl) | rfl) | rfl) | rfl <;> decide

namespace Text

/-- A text that neither starts nor ends with white space. -/
structure Bare (text : Text) : Prop where
  head : ∀ c ∈ text.head?, isWhiteSpace c = false
  last : ∀ c ∈ text.getLast?, isWhiteSpace c = false

variable {text front back : Text}

theorem trimStart_of_head (h : ∀ c ∈ text.head?, isWhiteSpace c = false) : trimStart text = text := by
  cases text with
  | nil => rfl
  | cons c rest => exact List.dropWhile_cons_of_neg (by simp [h c rfl])

theorem trimEnd_of_last (h : ∀ c ∈ text.getLast?, isWhiteSpace c = false) : trimEnd text = text := by
  have hhead : trimStart text.reverse = text.reverse := trimStart_of_head (by simpa using h)
  rw [trimEnd, ← trimStart, hhead, List.reverse_reverse]

theorem trimStart_append (hfront : ∀ c ∈ front, isWhiteSpace c = true) (text : Text) :
    trimStart (front ++ text) = trimStart text := by
  induction front with
  | nil => rfl
  | cons c front ih =>
      obtain ⟨hc, hfront⟩ := List.forall_mem_cons.mp hfront
      rw [List.cons_append, trimStart, List.dropWhile_cons_of_pos hc]
      exact ih hfront

theorem trimEnd_append (hback : ∀ c ∈ back, isWhiteSpace c = true) (text : Text) :
    trimEnd (text ++ back) = trimEnd text := by
  have hreverse : ∀ c ∈ back.reverse, isWhiteSpace c = true := by simpa using hback
  have hstart := trimStart_append hreverse text.reverse
  rw [← List.reverse_append] at hstart
  rw [trimEnd, trimEnd, ← trimStart, hstart, trimStart]

/-- Trimming takes the white space around a text. -/
theorem trim_append (hfront : ∀ c ∈ front, isWhiteSpace c = true)
    (hback : ∀ c ∈ back, isWhiteSpace c = true) (h : text.Bare) :
    trim (front ++ text ++ back) = text := by
  rw [trim, List.append_assoc, trimStart_append hfront]
  cases text with
  | nil =>
      have hnil : trimStart back = [] := by
        have hdrop := trimStart_append hback []
        rwa [List.append_nil] at hdrop
      rw [List.nil_append, hnil]
      rfl
  | cons c rest =>
      have hstart : trimStart (c :: rest ++ back) = c :: rest ++ back := trimStart_of_head h.head
      rw [hstart, trimEnd_append hback, trimEnd_of_last h.last]

theorem isWhiteSpace_of_mem_leadingSpace : ∀ c ∈ leadingSpace text, isWhiteSpace c = true := fun _ hc =>
  List.mem_takeWhile_imp hc

theorem isWhiteSpace_of_mem_trailingSpace : ∀ c ∈ trailingSpace text, isWhiteSpace c = true :=
  fun _ hc => List.mem_takeWhile_imp (List.mem_reverse.mp hc)

theorem head?_trimStart (text : Text) : ∀ c ∈ (trimStart text).head?, isWhiteSpace c = false := by
  intro c hc
  have h := List.head?_dropWhile_not isWhiteSpace text
  rw [← trimStart, hc] at h
  simpa using h

theorem getLast?_trimEnd (text : Text) : ∀ c ∈ (trimEnd text).getLast?, isWhiteSpace c = false := by
  intro c hc
  rw [trimEnd, List.getLast?_reverse] at hc
  exact head?_trimStart text.reverse c hc

/-- Nothing is left to trim. -/
theorem bare_trim (text : Text) : (trim text).Bare := by
  refine ⟨?_, getLast?_trimEnd _⟩
  intro c hc
  refine head?_trimStart text c ?_
  rw [← trimEnd_append_trailingSpace (trimStart text)]
  rw [trim] at hc
  cases htrim : trimEnd (trimStart text) with
  | nil => rw [htrim] at hc; cases hc
  | cons d rest => rw [htrim] at hc; exact hc

theorem Bare.trim_eq (h : text.Bare) : trim text = text := by
  rw [trim, trimStart_of_head h.head, trimEnd_of_last h.last]

theorem Bare.leadingSpace_eq (h : text.Bare) : leadingSpace text = [] := by
  cases text with
  | nil => rfl
  | cons c rest => exact List.takeWhile_cons_of_neg (by simp [h.head c rfl])

theorem beforeLast?_append {part : Text} (h : beforeLast? part back = some []) (front : Text) :
    beforeLast? part (front ++ back) = some front := by
  induction front with
  | nil => exact h
  | cons c front ih => rw [List.cons_append, beforeLast?, ih]

/-- What stands behind the part before the last occurrence starts with that occurrence, which is the only
one there. -/
theorem exists_of_beforeLast? {part : Text} (h : beforeLast? part text = some front) :
    ∃ back, text = front ++ back ∧ beforeLast? part back = some [] := by
  induction text generalizing front with
  | nil =>
      simp only [beforeLast?] at h
      split at h
      · rename_i hpart
        cases h
        exact ⟨[], rfl, by simp [beforeLast?, hpart]⟩
      · cases h
  | cons c rest ih =>
      have hwhole := h
      simp only [beforeLast?] at h
      split at h
      · rename_i middle hmiddle
        cases h
        obtain ⟨back, rfl, hback⟩ := ih hmiddle
        exact ⟨back, rfl, hback⟩
      · split at h
        · cases h
          exact ⟨c :: rest, rfl, hwhole⟩
        · cases h

/-- Where nothing stands before the last occurrence, the text starts with it. -/
theorem prefix_of_beforeLast? {part : Text} (h : beforeLast? part text = some []) : part <+: text := by
  cases text with
  | nil =>
      simp only [beforeLast?] at h
      split at h
      · rename_i hpart
        simp [List.isEmpty_iff.mp hpart]
      · cases h
  | cons c rest =>
      simp only [beforeLast?] at h
      split at h
      · cases h
      · split at h
        · rename_i hpart
          exact List.isPrefixOf_iff_prefix.mp hpart
        · cases h

theorem beforeLast?_eq_none_iff {part : Text} (hpart : part ≠ []) :
    beforeLast? part text = none ↔ ¬ (part <:+: text) := by
  induction text with
  | nil =>
      rw [List.infix_nil]
      simp [beforeLast?, hpart]
  | cons c rest ih =>
      rw [List.infix_cons_iff, beforeLast?, not_or, ← ih]
      cases hrest : beforeLast? part rest with
      | some front => simp
      | none =>
          dsimp only
          rw [← List.isPrefixOf_iff_prefix]
          split <;> simp_all

end Text

namespace Declaration

variable {text front back : Text}

theorem cutImportant_of_not_infix (h : ¬ (importantMark <:+: text)) : cutImportant text = (text, false) := by
  rw [cutImportant, (Text.beforeLast?_eq_none_iff (by decide)).mpr h]

theorem cutImportant_append (h : Text.beforeLast? importantMark back = some []) (front : Text) :
    cutImportant (front ++ back) = (Text.trimEnd front, true) := by
  rw [cutImportant, Text.beforeLast?_append h]

/-- A value is not important and has no mark, or it is what stands before the last mark, trimmed. -/
theorem cutImportant_cases (text : Text) :
    cutImportant text = (text, false) ∧ ¬ (importantMark <:+: text) ∨
      ∃ front back, text = front ++ back ∧ Text.beforeLast? importantMark back = some [] ∧
        cutImportant text = (Text.trimEnd front, true) := by
  cases h : Text.beforeLast? importantMark text with
  | none =>
      left
      rw [cutImportant, h]
      exact ⟨rfl, (Text.beforeLast?_eq_none_iff (by decide)).mp h⟩
  | some front =>
      right
      obtain ⟨back, htext, hback⟩ := Text.exists_of_beforeLast? h
      exact ⟨front, back, htext, hback, by rw [cutImportant, h]⟩

end Declaration

end FluidSizing
