import FluidSizing.Fluid.Line
import FluidSizing.Proofs.Value.Words

/-! The text that replaces a call, read again. Written numbers, the infinite and undefined ones too, are
letters, digits, points and hyphens, so a size is plain text or a closed `calc` function with plain text
inside. Whatever plain text follows, the two are component values that stand before any fence, and no
fluid call is among them (`exists_stands_size`). -/

namespace FluidSizing

def isNumberPart (c : Char) : Bool := c.isAlphanum || c = '-' || c = '.'

theorem isNumberPart_of_isDigit {c : Char} (h : c.isDigit = true) : isNumberPart c = true := by
  simp [isNumberPart, Char.isAlphanum, h]

namespace Decimal

theorem isNumberPart_ofNat (n : Nat) : ∀ c ∈ Text.ofNat n, isNumberPart c = true := fun _ hc =>
  isNumberPart_of_isDigit (Nat.isDigit_of_mem_toDigits (by decide) (by decide) hc)

theorem isNumberPart_zeros (n : Nat) : ∀ c ∈ List.replicate n '0', isNumberPart c = true := by
  intro c hc
  rw [List.eq_of_mem_replicate hc]
  decide

theorem isNumberPart_withPoint {digits : Text} (h : ∀ c ∈ digits, isNumberPart c = true)
    (places : Nat) : ∀ c ∈ withPoint digits places, isNumberPart c = true := by
  have hpadded : ∀ c ∈ List.replicate (places + 1 - digits.length) '0' ++ digits,
      isNumberPart c = true := by
    intro c hc
    rcases List.mem_append.mp hc with hc | hc
    · exact isNumberPart_zeros _ c hc
    · exact h c hc
  intro c hc
  rcases List.mem_append.mp hc with hc | hc
  · exact hpadded c (List.mem_of_mem_take hc)
  · rcases List.mem_cons.mp hc with rfl | hc
    · decide
    · exact hpadded c (List.mem_of_mem_drop hc)

theorem isNumberPart_positional (number : Decimal) :
    ∀ c ∈ number.positional, isNumberPart c = true := by
  unfold positional
  split
  · intro c hc
    rcases List.mem_append.mp hc with hc | hc
    · exact isNumberPart_ofNat _ c hc
    · exact isNumberPart_zeros _ c hc
  · exact isNumberPart_withPoint (isNumberPart_ofNat _) _

end Decimal

theorem isNumberPart_renderMagnitude (units : Nat) :
    ∀ c ∈ Binary64.renderMagnitude units, isNumberPart c = true := by
  unfold Binary64.renderMagnitude
  split
  · exact List.all_eq_true.mp (by decide)
  · exact Decimal.isNumberPart_positional _

theorem isNumberPart_render (x : Binary64) : ∀ c ∈ x.render, isNumberPart c = true := by
  unfold Binary64.render
  split
  · exact List.all_eq_true.mp (by decide)
  · exact List.all_eq_true.mp (by decide)
  · exact List.all_eq_true.mp (by decide)
  · exact isNumberPart_renderMagnitude _
  · exact List.forall_mem_cons.mpr ⟨by decide, isNumberPart_renderMagnitude _⟩

/-- A written number is part of a word. -/
theorem isInner_formatNumber (x : Binary64) : ∀ c ∈ formatNumber x, Token.isInner c = true :=
  fun c hc => Token.isInner_of_class (p := isNumberPart) (by decide) (isNumberPart_render _ c hc)

theorem isPlain_formatNumber (x : Binary64) : ∀ c ∈ formatNumber x, Token.isPlain c = true :=
  fun c hc => Token.isPlain_of_isInner (isInner_formatNumber x c hc)

/-- The name of the function that a growing size is. -/
def calcName : Text := ['c', 'a', 'l', 'c']

/-- The inside of that function. -/
def Line.inside (line : Line) : Text :=
  formatNumber line.roundedIntercept ++ "px + ".toList ++ formatNumber line.slopePerHundredth ++
    "vw".toList

theorem Line.isPlain_inside (line : Line) : ∀ c ∈ line.inside, Token.isPlain c = true := by
  have hunits : ∀ c ∈ "px + ".toList, Token.isPlain c = true := List.all_eq_true.mp (by decide)
  have hunit : ∀ c ∈ "vw".toList, Token.isPlain c = true := List.all_eq_true.mp (by decide)
  intro c hc
  simp only [Line.inside, List.mem_append] at hc
  rcases hc with ((hc | hc) | hc) | hc
  · exact isPlain_formatNumber _ c hc
  · exact hunits c hc
  · exact isPlain_formatNumber _ c hc
  · exact hunit c hc

theorem FluidSize.render_growing (line : Line) :
    (FluidSize.growing line).render = calcName ++ '(' :: (line.inside ++ [')']) := by
  have hopen : "calc(".toList = calcName ++ ['('] := by decide
  have hclose : "vw)".toList = "vw".toList ++ [')'] := by decide
  show "calc(".toList ++ formatNumber line.roundedIntercept ++ "px + ".toList ++
    formatNumber line.slopePerHundredth ++ "vw)".toList = _
  rw [hopen, hclose, Line.inside]
  simp only [List.append_assoc, List.cons_append, List.nil_append]

theorem FluidSize.isPlain_render_fixed (x : Binary64) :
    ∀ c ∈ (FluidSize.fixed x).render, Token.isPlain c = true := by
  intro c hc
  have hunit : ∀ d ∈ "px".toList, Token.isPlain d = true := List.all_eq_true.mp (by decide)
  rcases List.mem_append.mp hc with hc | hc
  · exact isPlain_formatNumber _ c hc
  · exact hunit c hc

/-- A size has no exclamation mark. -/
theorem FluidSize.not_mem_render (size : FluidSize) : '!' ∉ size.render := by
  have hnumber : ∀ x : Binary64, '!' ∉ formatNumber x := fun x hmem =>
    absurd (isNumberPart_render _ '!' hmem) (by decide)
  cases size with
  | fixed x =>
      show '!' ∉ formatNumber x ++ "px".toList
      rw [List.mem_append, not_or]
      exact ⟨hnumber x, by decide⟩
  | growing line =>
      have hunits : '!' ∉ "px + ".toList ∧ '!' ∉ "vw".toList ∧ '!' ∉ calcName := by decide
      rw [FluidSize.render_growing, Line.inside]
      simp [hnumber, hunits]

open Component (Stands)

namespace Component

/-- Nothing that becomes a function, but for a closed `calc` function of tokens. -/
def IsCalm (c : Component) : Prop :=
  Value.isGroup c = false ∨
    ∃ tokens : List Token, c = block (.call calcName) (tokens.map Component.token) true

end Component

theorem Token.standsBefore_calc (rest : Text) : (Opening.call calcName).token.StandsBefore rest :=
  ⟨'c', ['a', 'l', 'c', '('], rfl, rfl⟩

/-- Plain text is tokens that stand before any fence. -/
theorem exists_stands_plain {text : Text} (htext : ∀ c ∈ text, Token.isPlain c = true)
    (enclosing : Option Bracket) :
    ∃ tokens : List Token, Component.sources (tokens.map Component.token) = text ∧
      ∀ post, Token.Fenced post → Stands enclosing post (tokens.map Component.token) := by
  have hclose : Token.Fenced [')'] := Token.fenced_close .round []
  obtain ⟨tokens, hsources, hstands⟩ := exists_stands_of_plain hclose htext enclosing
  refine ⟨tokens, hsources, ?_⟩
  intro post hpost
  rw [← List.nil_append [')']] at hstands
  exact hstands.fenced hclose hpost (by simp)

/-- A size with plain text behind it is component values that stand before any fence. -/
theorem exists_stands_size (size : FluidSize) {text : Text}
    (htext : ∀ c ∈ text, Token.isPlain c = true) :
    ∃ cs : List Component, Component.sources cs = size.render ++ text ∧ (∀ c ∈ cs, c.IsCalm) ∧
      ∀ post, Token.Fenced post → Stands (some .round) post cs := by
  have hcalm : ∀ tokens : List Token, ∀ c ∈ tokens.map Component.token, c.IsCalm := by
    intro tokens c hc
    obtain ⟨t, -, rfl⟩ := List.mem_map.mp hc
    exact Or.inl rfl
  cases size with
  | fixed x =>
      have hplain : ∀ c ∈ (FluidSize.fixed x).render ++ text, Token.isPlain c = true := by
        intro c hc
        rcases List.mem_append.mp hc with hc | hc
        · exact FluidSize.isPlain_render_fixed x c hc
        · exact htext c hc
      obtain ⟨tokens, hsources, hstands⟩ := exists_stands_plain hplain (some .round)
      exact ⟨tokens.map Component.token, hsources, hcalm tokens, hstands⟩
  | growing line =>
      obtain ⟨inner, hinner, hstandsInner⟩ := exists_stands_plain line.isPlain_inside (some .round)
      obtain ⟨tokens, hsources, hstands⟩ := exists_stands_plain htext (some .round)
      refine ⟨.block (.call calcName) (inner.map Component.token) true ::
        tokens.map Component.token, ?_, ?_, ?_⟩
      · rw [FluidSize.render_growing, Component.sources_cons, Component.source, hinner, hsources]
        simp [Opening.text, Opening.brackets, Bracket.opener, Bracket.close]
      · exact List.forall_mem_cons.mpr ⟨Or.inr ⟨inner, rfl⟩, hcalm tokens⟩
      · intro post hpost
        exact .closed (Token.standsBefore_calc _)
          (hstandsInner _ (Token.fenced_close .round _)) (hstands post hpost)

end FluidSizing
