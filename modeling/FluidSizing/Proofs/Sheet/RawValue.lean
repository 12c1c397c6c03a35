import FluidSizing.Processing
import FluidSizing.Proofs.Fluid.Idempotence
import FluidSizing.Proofs.Text.Trim

/-! The raw value of a declaration: the text between the colon and the end of the declaration. It is white
space, the value, and what is cut off behind it. With the value resolved in place, what is cut off is the
same: the new value is cut out of the new text (`RawValue.value_resolved`), and a mark of importance
stays where it was. -/

namespace FluidSizing
namespace RawValue

def value (raw : Text) : Text := (Declaration.cutImportant (Text.trim raw)).1

def important (raw : Text) : Bool := (Declaration.cutImportant (Text.trim raw)).2

/-- The text behind the value: white space, or a mark with all that follows it. -/
def behind (raw : Text) : Text := (Text.trimStart raw).drop (value raw).length

def resolvedValue (settings : Settings) (raw : Text) : Text :=
  (resolve settings (value raw)).valueOr (value raw)

def resolved (settings : Settings) (raw : Text) : Text :=
  Text.leadingSpace raw ++ resolvedValue settings raw ++ behind raw

variable (settings : Settings) (raw : Text)

theorem eq_append : Text.leadingSpace raw ++ value raw ++ behind raw = raw := by
  obtain ⟨back, hback⟩ := Declaration.exists_eq_cutImportant_append (Text.trim raw)
  have htext : Text.trimStart raw = value raw ++ (back ++ Text.trailingSpace (Text.trimStart raw)) := by
    rw [← List.append_assoc, value, ← hback]
    exact (Text.trimEnd_append_trailingSpace _).symm
  rw [behind, htext, List.drop_left, List.append_assoc, ← htext]
  exact Text.leadingSpace_append_trimStart raw

/-- The parts of a raw value: not important and white space behind the value, or a mark with white space
before it and what follows it. -/
theorem cases : important raw = false ∧ ¬ (Declaration.importantMark <:+: value raw) ∧
      (∀ c ∈ behind raw, isWhiteSpace c = true) ∧ (value raw).Bare ∨
    important raw = true ∧ ∃ gap mark trail : Text, behind raw = gap ++ mark ++ trail ∧
      (∀ c ∈ gap, isWhiteSpace c = true) ∧ (∀ c ∈ trail, isWhiteSpace c = true) ∧
      Text.beforeLast? Declaration.importantMark mark = some [] ∧ (value raw ++ gap ++ mark).Bare ∧
      ∀ c ∈ (value raw).getLast?, isWhiteSpace c = false := by
  have htrail : Text.trimStart raw = Text.trim raw ++ Text.trailingSpace (Text.trimStart raw) :=
    (Text.trimEnd_append_trailingSpace _).symm
  have hwhite : ∀ c ∈ Text.trailingSpace (Text.trimStart raw), isWhiteSpace c = true :=
    Text.isWhiteSpace_of_mem_trailingSpace
  rcases Declaration.cutImportant_cases (Text.trim raw) with ⟨hcut, hmark⟩ |
    ⟨front, mark, htrim, hmark, hcut⟩
  · left
    have hvalue : value raw = Text.trim raw := by rw [value, hcut]
    have hbehind : behind raw = Text.trailingSpace (Text.trimStart raw) := by
      rw [behind, hvalue, htrail, List.drop_left, ← htrail]
    refine ⟨by rw [important, hcut], hvalue ▸ hmark, hbehind ▸ hwhite, hvalue ▸ Text.bare_trim raw⟩
  · right
    have hvalue : value raw = Text.trimEnd front := by rw [value, hcut]
    have hfront : front = value raw ++ Text.trailingSpace front := by
      rw [hvalue]
      exact (Text.trimEnd_append_trailingSpace front).symm
    have hbehind : behind raw =
        Text.trailingSpace front ++ mark ++ Text.trailingSpace (Text.trimStart raw) := by
      have hstart : Text.trimStart raw = value raw ++
          (Text.trailingSpace front ++ mark ++ Text.trailingSpace (Text.trimStart raw)) := by
        rw [← List.append_assoc, ← List.append_assoc, ← hfront, ← htrim]
        exact htrail
      rw [behind, hstart, List.drop_left, ← hstart]
    refine ⟨by rw [important, hcut], Text.trailingSpace front, mark, _, hbehind,
      Text.isWhiteSpace_of_mem_trailingSpace, hwhite, hmark, ?_, ?_⟩
    · rw [← hfront, ← htrim]
      exact Text.bare_trim raw
    · rw [hvalue]
      exact Text.getLast?_trimEnd front

/-- A raw value is important just if a mark stands in it. -/
theorem important_iff : important raw = true ↔ Declaration.importantMark <:+: Text.trim raw := by
  rcases Declaration.cutImportant_cases (Text.trim raw) with ⟨hcut, hmark⟩ |
    ⟨front, back, htrim, hback, hcut⟩
  · rw [important, hcut]
    simpa using hmark
  · rw [important, hcut, htrim]
    have hin : Declaration.importantMark <:+: back := by
      by_contra hnone
      rw [(Text.beforeLast?_eq_none_iff (by decide)).mpr hnone] at hback
      cases hback
    simpa using hin.trans (List.suffix_append front back).isInfix

/-- Resolving keeps the ends of a value, but for closing parentheses, and adds no mark. -/
theorem resolvedValue_ends (text : Text) :
    let new := (resolve settings text).valueOr text
    new.head? = text.head? ∧
      ((∀ c ∈ text.getLast?, isWhiteSpace c = false) → ∀ c ∈ new.getLast?, isWhiteSpace c = false) ∧
      (Declaration.importantMark <:+: new → Declaration.importantMark <:+: text) := by
  intro new
  rcases resolve_valueOr_cases settings text with hsame | ⟨cs, hstands, hchanged, hnew⟩
  · rw [show new = text from hsame]
    exact ⟨rfl, id, id⟩
  have hpatched := Component.patched_of_changed hchanged
  rw [Component.source_ofText] at hpatched
  rw [show new = _ from hnew]
  have hmark : ∀ c ∈ Declaration.importantMark, Token.isBlank c = false ∧ Token.isFence c = false := by
    have hall : Declaration.importantMark.all (fun c => !Token.isBlank c && !Token.isFence c) = true := by
      decide
    simpa using hall
  refine ⟨?_, fun hlast c hc => ?_, fun hin => hpatched.infix_of_infix hmark _ hin⟩
  · rw [← hpatched.head?_eq]
    cases hsources : Component.sources cs with
    | nil =>
        rw [hstands.eq_nil_of_sources hsources]
        rfl
    | cons c rest => rfl
  · cases hcount : Component.openCalls cs with
    | zero =>
        rw [hcount, List.replicate_zero, List.append_nil, hpatched.getLast?_eq] at hc
        exact hlast c hc
    | succ count =>
        rw [hcount, List.replicate_succ', ← List.append_assoc, List.getLast?_concat] at hc
        obtain rfl := Option.some.inj hc
        decide

/-- The value of a resolved raw value is the resolved value, and it is as important as before. -/
theorem cutImportant_resolved :
    Declaration.cutImportant (Text.trim (resolved settings raw)) =
      (resolvedValue settings raw, important raw) := by
  obtain ⟨hhead, hlast, hmark⟩ := resolvedValue_ends settings (value raw)
  have hlead : ∀ c ∈ Text.leadingSpace raw, isWhiteSpace c = true :=
    Text.isWhiteSpace_of_mem_leadingSpace
  rcases cases raw with ⟨himportant, hnone, hbehind, hbare⟩ |
    ⟨himportant, gap, mark, trail, hbehind, hgap, htrail, hback, hbare, hend⟩
  · have hnew : (resolvedValue settings raw).Bare :=
      ⟨by rw [resolvedValue, hhead]; exact hbare.head, hlast hbare.last⟩
    rw [resolved, Text.trim_append hlead hbehind hnew, himportant]
    exact Declaration.cutImportant_of_not_infix fun hin => hnone (hmark hin)
  · have hne : mark ≠ [] := by
      rintro rfl
      exact absurd hback (by decide)
    have hnew : (resolvedValue settings raw ++ gap ++ mark).Bare := by
      refine ⟨?_, ?_⟩
      · intro c hc
        refine hbare.head c ?_
        rw [List.append_assoc, List.head?_append] at hc ⊢
        rwa [resolvedValue, hhead] at hc
      · intro c hc
        refine hbare.last c ?_
        rw [List.getLast?_append_of_ne_nil _ hne] at hc ⊢
        exact hc
    have htext : resolved settings raw =
        Text.leadingSpace raw ++ (resolvedValue settings raw ++ gap ++ mark) ++ trail := by
      simp [resolved, hbehind]
    have hend : Text.trimEnd (resolvedValue settings raw) = resolvedValue settings raw :=
      Text.trimEnd_of_last (hlast hend)
    rw [htext, Text.trim_append hlead htrail hnew, himportant, Declaration.cutImportant_append hback,
      Text.trimEnd_append hgap, hend]

theorem value_resolved : value (resolved settings raw) = resolvedValue settings raw := by
  rw [value, cutImportant_resolved]

theorem important_resolved : important (resolved settings raw) = important raw := by
  rw [important, cutImportant_resolved]

/-- Resolving a resolved raw value changes nothing. -/
theorem resolved_resolved : resolved settings (resolved settings raw) = resolved settings raw := by
  have hsame : resolvedValue settings (resolved settings raw) = value (resolved settings raw) := by
    rw [resolvedValue, value_resolved, Resolution.valueOr, resolvedValue, resolve_valueOr_value]
    rfl
  rw [resolved, hsame, eq_append]

end RawValue

theorem Declaration.ofSource_eq (place : Position) (name between raw : Text) :
    ofSource place name between raw =
      { name := Text.toLowerAscii (Token.unescape name)
        value := RawValue.value raw
        important := RawValue.important raw
        start := place.offset + Text.byteSize (name ++ between ++ Text.leadingSpace raw)
        location := place.location } := rfl

end FluidSizing
