import FluidSizing.Proofs.Token.Fence
import FluidSizing.Sheet.Item
import Mathlib.Data.List.Infix

/-! Texts with some places replaced. Before each replaced part stands text that ends with white space or a
fence, the new part has no exclamation mark, and something stands behind it (`Text.Patched`). So both
ends of the text stay, and a mark with an exclamation mark at its start is in the new text only if it
was in the old one (`Patched.infix_of_infix`). -/

namespace FluidSizing
namespace Text

/-- A text, and one with some of its places replaced. -/
inductive Patched : Text → Text → Prop where
  | refl (text : Text) : Patched text text
  | patch (front : Text) {last : Char} {old new rest rest' : Text}
      (hlast : Token.isBlank last = true ∨ Token.isFence last = true) (hnew : '!' ∉ new)
      (ne_nil : rest ≠ []) (behind : Patched rest rest') :
      Patched (front ++ last :: (old ++ rest)) (front ++ last :: (new ++ rest'))

namespace Patched

variable {text text' other other' : Text}

theorem append_left (h : Patched text text') (front : Text) :
    Patched (front ++ text) (front ++ text') := by
  cases h with
  | refl => exact .refl _
  | patch middle hlast hnew ne_nil behind =>
      rw [← List.append_assoc, ← List.append_assoc]
      exact .patch _ hlast hnew ne_nil behind

theorem append (h : Patched text text') (hother : Patched other other') :
    Patched (text ++ other) (text' ++ other') := by
  induction h with
  | refl => exact hother.append_left _
  | patch front hlast hnew ne_nil _ ih =>
      simp only [List.append_assoc, List.cons_append]
      exact .patch front hlast hnew (List.append_ne_nil_of_left_ne_nil ne_nil _) ih

theorem head?_eq (h : Patched text text') : text'.head? = text.head? := by
  cases h with
  | refl => rfl
  | patch front => cases front <;> rfl

theorem getLast?_eq (h : Patched text text') : text'.getLast? = text.getLast? := by
  induction h with
  | refl => rfl
  | @patch front last old new rest rest' _ _ ne_nil _ ih =>
      have hne : rest' ≠ [] := by
        rintro rfl
        rw [List.getLast?_nil] at ih
        exact ne_nil (List.getLast?_eq_none_iff.mp ih.symm)
      have hback : ∀ middle rest : Text, rest ≠ [] →
          (front ++ last :: (middle ++ rest)).getLast? = rest.getLast? := by
        intro middle rest hrest
        have htext : front ++ last :: (middle ++ rest) = (front ++ last :: middle) ++ rest := by simp
        rw [htext, List.getLast?_append_of_ne_nil _ hrest]
      rw [hback new rest' hne, hback old rest ne_nil, ih]

end Patched

/-- A pattern does not reach over a character that it does not have. -/
theorem infix_or_infix {pattern front back : Text} {c : Char} (hc : c ∉ pattern)
    (h : pattern <:+: front ++ c :: back) : pattern <:+: front ∨ pattern <:+: back := by
  obtain ⟨before, after, htext⟩ := h
  rcases List.append_eq_append_iff.mp htext with ⟨more, hfront, -⟩ | ⟨more, hpattern, hback⟩
  · exact Or.inl ⟨before, more, hfront.symm⟩
  cases more with
  | nil =>
      rw [List.append_nil] at hpattern
      exact Or.inl ⟨before, [], by rw [List.append_nil, hpattern]⟩
  | cons d more =>
      obtain ⟨rfl, rfl⟩ := List.cons.inj hback
      rcases List.append_eq_append_iff.mp hpattern with ⟨others, -, hsplit⟩ | ⟨others, -, hmore⟩
      · exact absurd (hsplit ▸ by simp) hc
      · cases others with
        | nil =>
            rw [List.nil_append] at hmore
            exact absurd (hmore ▸ List.mem_cons_self) hc
        | cons e others =>
            obtain ⟨-, rfl⟩ := List.cons.inj hmore
            exact Or.inr ⟨others, after, rfl⟩

/-- Closing parentheses behind a text complete no pattern that has none. -/
theorem infix_of_infix_closers {pattern text : Text} (hclose : ')' ∉ pattern) (hne : pattern ≠ [])
    (count : Nat) (h : pattern <:+: text ++ List.replicate count ')') : pattern <:+: text := by
  cases count with
  | zero => simpa using h
  | succ count =>
      rw [List.replicate_succ] at h
      rcases infix_or_infix hclose h with htext | hclosers
      · exact htext
      · obtain ⟨c, hc⟩ := List.exists_mem_of_ne_nil _ hne
        have hcloser : c = ')' := List.eq_of_mem_replicate (hclosers.subset hc)
        exact absurd (hcloser ▸ hc) hclose

/-- A pattern does not reach into text without its first character. -/
theorem infix_of_infix_append {first : Char} {word front back : Text} (hfirst : first ∉ front)
    (h : first :: word <:+: front ++ back) : first :: word <:+: back := by
  obtain ⟨before, after, htext⟩ := h
  rw [List.append_assoc] at htext
  rcases List.append_eq_append_iff.mp htext with ⟨more, hfront, hmore⟩ | ⟨more, -, hback⟩
  · cases more with
    | nil => exact ⟨[], after, hmore⟩
    | cons d more =>
        obtain ⟨rfl, -⟩ := List.cons.inj hmore
        exact absurd (hfront ▸ by simp) hfirst
  · exact ⟨more, after, by rw [hback, List.append_assoc]⟩

/-- A pattern with an exclamation mark at its start and without white space, separators or closing
brackets is in the new text, with closing parentheses behind it, only if it is in the old one. -/
theorem Patched.infix_of_infix {text text' word : Text}
    (hword : ∀ c ∈ '!' :: word, Token.isBlank c = false ∧ Token.isFence c = false) (count : Nat)
    (h : Patched text text') (hmark : '!' :: word <:+: text' ++ List.replicate count ')') :
    '!' :: word <:+: text := by
  induction h with
  | refl text =>
      have hclose : ')' ∉ '!' :: word := fun hmem => absurd (hword _ hmem).2 (by decide)
      exact infix_of_infix_closers hclose (List.cons_ne_nil _ _) count hmark
  | @patch front last old new rest rest' hlast hnew _ _ ih =>
      have hnot : last ∉ '!' :: word := by
        intro hmem
        obtain ⟨hblank, hfence⟩ := hword _ hmem
        rw [hblank, hfence] at hlast
        simp at hlast
      rw [List.append_assoc, List.cons_append, List.append_assoc] at hmark
      rcases infix_or_infix hnot hmark with hfront | hbehind
      · exact hfront.trans ⟨[], _, rfl⟩
      · exact (ih (infix_of_infix_append hnew hbehind)).trans
          ⟨front ++ last :: old, [], by simp⟩

end Text
end FluidSizing
