import FluidSizing.Text.Position
import FluidSizing.Token.Name
import Mathlib.Data.List.Induction

/-! Lines and columns of places. The place behind a text is kept up character by character; what it comes to
depends on the line ends in the text and on its last line only (`Position.location_after`). Going on never
leads back (`Position.location_le_after`). -/

namespace FluidSizing

namespace Text

/-- The number of line ends: line feeds, form feeds and carriage returns, except that a carriage return
before a line feed belongs to the same line end. -/
def lineEnds : Text → Nat
  | [] => 0
  | c :: rest =>
    if Token.isNewline c && !(c = '\r' && rest.head? = some '\n') then lineEnds rest + 1
    else lineEnds rest

/-- What stands behind the last line end. -/
def lastLine (text : Text) : Text := (text.reverse.takeWhile fun c => !Token.isNewline c).reverse

def utf16Length : Text → Nat
  | [] => 0
  | c :: rest => Position.utf16Size c + utf16Length rest

variable {text : Text} {c : Char}

theorem lineEnds_cons (c : Char) (rest : Text) : lineEnds (c :: rest) =
    if Token.isNewline c && !(c = '\r' && rest.head? = some '\n') then lineEnds rest + 1
    else lineEnds rest := rfl

theorem utf16Length_append (text back : Text) :
    utf16Length (text ++ back) = utf16Length text + utf16Length back := by
  induction text with
  | nil => simp [utf16Length]
  | cons c rest ih => simp [utf16Length, ih, Nat.add_assoc]

theorem lastLine_concat_newline (hc : Token.isNewline c = true) (text : Text) :
    lastLine (text ++ [c]) = [] := by
  simp [lastLine, hc]

theorem lastLine_concat (hc : Token.isNewline c = false) (text : Text) :
    lastLine (text ++ [c]) = lastLine text ++ [c] := by
  simp [lastLine, hc]

theorem lastLine_of_getLast? (h : text.getLast? = some '\r') : lastLine text = [] := by
  induction text using List.reverseRecOn with
  | nil => rfl
  | append_singleton text c _ =>
      rw [List.getLast?_concat, Option.some.injEq] at h
      exact lastLine_concat_newline (by rw [h]; decide) text

/-- A character behind a text is a line end of its own, unless it is a line feed behind a carriage
return. -/
theorem lineEnds_concat (text : Text) (c : Char) : lineEnds (text ++ [c]) =
    if Token.isNewline c && !(c = '\n' && text.getLast? = some '\r') then lineEnds text + 1
    else lineEnds text := by
  induction text with
  | nil => simp [lineEnds]
  | cons d rest ih =>
      cases rest with
      | nil =>
          -- only here the last character of the text and the new one can be a pair
          by_cases hpair : d = '\r' ∧ c = '\n'
          · obtain ⟨rfl, rfl⟩ := hpair
            decide
          · have hbefore : ¬ (d = '\r' ∧ [c].head? = some '\n') := by simpa using hpair
            have hbehind : ¬ (c = '\n' ∧ [d].getLast? = some '\r') := by
              simpa [and_comm] using hpair
            simp only [List.nil_append, List.cons_append, lineEnds, ← Bool.decide_and, hbefore, hbehind]
            cases Token.isNewline c <;> cases Token.isNewline d <;> simp
      | cons e rest =>
          have hhead : (e :: rest ++ [c]).head? = (e :: rest).head? := rfl
          rw [List.cons_append, lineEnds_cons, ih, hhead, lineEnds_cons d (e :: rest),
            List.getLast?_cons_cons]
          split_ifs <;> rfl

end Text

namespace Location

/-- The order of places for readers: by line, and in a line by column. -/
instance : LE Location := ⟨fun l m => l.line < m.line ∨ l.line = m.line ∧ l.column ≤ m.column⟩

theorem le_iff {l m : Location} :
    l ≤ m ↔ l.line < m.line ∨ l.line = m.line ∧ l.column ≤ m.column := Iff.rfl

theorem le_refl (l : Location) : l ≤ l := Or.inr ⟨rfl, Nat.le_refl _⟩

theorem le_trans {l m n : Location} (h : l ≤ m) (h' : m ≤ n) : l ≤ n := by
  rw [le_iff] at *
  omega

end Location

namespace Position

theorem next_eq (place : Position) (c : Char) : place.next c =
    if c = '\n' && place.afterReturn then ⟨place.offset + c.utf8Size, place.location, false⟩
    else if Token.isNewline c then
      ⟨place.offset + c.utf8Size, ⟨place.location.line + 1, 1⟩, c = '\r'⟩
    else
      ⟨place.offset + c.utf8Size, ⟨place.location.line, place.location.column + utf16Size c⟩, false⟩ :=
  rfl

theorem location_le_next (place : Position) (c : Char) : place.location ≤ (place.next c).location := by
  rw [next_eq, Location.le_iff]
  split
  · simp
  · split <;> simp

/-- Behind a text is no place before it. -/
theorem location_le_after (place : Position) (text : Text) :
    place.location ≤ (place.after text).location := by
  induction text generalizing place with
  | nil => exact Location.le_refl _
  | cons c text ih => exact Location.le_trans (location_le_next place c) (ih _)

/-- Behind a text from the start, the line is one more than the number of line ends, and the column is one
more than the length of the last line. -/
theorem location_after (text : Text) :
    (start.after text).location =
        ⟨1 + Text.lineEnds text, 1 + Text.utf16Length (Text.lastLine text)⟩ ∧
      ((start.after text).afterReturn = true ↔ text.getLast? = some '\r') := by
  induction text using List.reverseRecOn with
  | nil => exact ⟨rfl, by decide⟩
  | append_singleton text c ih =>
      obtain ⟨hlocation, hreturn⟩ := ih
      rw [after_append, after_cons, after_nil, next_eq, Text.lineEnds_concat, List.getLast?_concat,
        hlocation, Option.some.injEq]
      cases hnewline : Token.isNewline c with
      | true =>
          rw [Text.lastLine_concat_newline hnewline]
          by_cases hpair : c = '\n' ∧ text.getLast? = some '\r'
          · have hlast : Text.lastLine text = [] := Text.lastLine_of_getLast? hpair.2
            simp [hpair, hreturn, hlast]
          · have hplace : (decide (c = '\n') && (start.after text).afterReturn) = false := by
              rw [← hreturn] at hpair
              simpa using hpair
            have htext : (decide (c = '\n') && decide (text.getLast? = some '\r')) = false := by
              simpa using hpair
            simp [hplace, htext, Text.utf16Length, Nat.add_assoc]
      | false =>
          have hreturn : c ≠ '\r' := by
            rintro rfl
            cases hnewline
          have hfeed : c ≠ '\n' := by
            rintro rfl
            cases hnewline
          rw [Text.lastLine_concat hnewline, Text.utf16Length_append]
          simp [hreturn, hfeed, Text.utf16Length, Nat.add_assoc]

end Position

end FluidSizing
