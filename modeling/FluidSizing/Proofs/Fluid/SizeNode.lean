import FluidSizing.Proofs.Fluid.SizeText

/-! The node that a size is read as: a word, or a `calc` function of words with spaces between. Before
plain text a size is read as this node, with what is read of the text behind it (`Value.pushAll_size`);
a fixed size is one word with a word directly behind it. -/

namespace FluidSizing

open Component (Stands)
open Token (Apart)

def FluidSize.node : FluidSize → Node
  | fixed x => .word (fixed x).render
  | growing line =>
    .function calcName []
      [.word (formatNumber line.roundedIntercept ++ ['p', 'x']), .space [' '], .word ['+'],
        .space [' '], .word (formatNumber line.slopePerHundredth ++ ['v', 'w'])] []

theorem isInner_units {number unit : Text} (hnumber : ∀ c ∈ number, Token.isInner c = true)
    (hunit : ∀ c ∈ unit, Token.isInner c = true) : ∀ c ∈ number ++ unit, Token.isInner c = true := by
  intro c hc
  rcases List.mem_append.mp hc with hc | hc
  · exact hnumber c hc
  · exact hunit c hc

theorem FluidSize.isInner_render_fixed (x : Binary64) :
    ∀ c ∈ (FluidSize.fixed x).render, Token.isInner c = true :=
  isInner_units (isInner_formatNumber x) (List.all_eq_true.mp (by decide))

/-- Plain text is tokens, which stand before any fence. -/
theorem Component.plain_ofText {text : Text} (htext : ∀ c ∈ text, Token.isPlain c = true) :
    ∃ tokens : List Token, ofText text = tokens.map token ∧
      ∀ enclosing post, Token.Fenced post → Stands enclosing post (ofText text) := by
  have hread : ∀ enclosing, ∃ tokens : List Token, ofText text = tokens.map token ∧
      ∀ post, Token.Fenced post → Stands enclosing post (tokens.map token) := by
    intro enclosing
    obtain ⟨tokens, hsources, hstands⟩ := exists_stands_plain htext enclosing
    have hall := (hstands [] Token.fenced_nil).unenclosed
    exact ⟨tokens, by rw [← hsources, ofText_sources hall], hstands⟩
  obtain ⟨tokens, htokens, -⟩ := hread none
  refine ⟨tokens, htokens, fun enclosing post hpost => ?_⟩
  obtain ⟨tokens, htokens, hstands⟩ := hread enclosing
  rw [htokens]
  exact hstands post hpost

/-- Component values of plain text before a fence are those of the text. -/
theorem Component.Stands.eq_ofText {enclosing : Option Bracket} {post : Text} {cs : List Component}
    (h : Stands enclosing post cs) (hpost : Token.Fenced post)
    (hplain : ∀ c ∈ Component.sources cs, Token.isPlain c = true) :
    cs = Component.ofText (Component.sources cs) := by
  obtain ⟨-, -, hstands⟩ := Component.plain_ofText hplain
  have hread := h.unenclosed.ofText_append
  have hread' := (hstands none post hpost).ofText_append
  rw [Component.source_ofText, hread] at hread'
  exact List.append_cancel_right hread'

/-- Plain text falls into the rest of a word and what is apart from it. -/
theorem exists_word_apart {text : Text} (htext : ∀ c ∈ text, Token.isPlain c = true) :
    ∃ word behind, text = word ++ behind ∧ (∀ c ∈ word, Token.isInner c = true) ∧ Apart behind := by
  refine ⟨text.takeWhile Token.isInner, text.dropWhile Token.isInner,
    (List.takeWhile_append_dropWhile ..).symm, fun c hc => List.mem_takeWhile_imp hc, ?_⟩
  cases hbehind : text.dropWhile Token.isInner with
  | nil => exact Token.apart_nil
  | cons c rest =>
      have hmem : c ∈ text.dropWhile Token.isInner := by rw [hbehind]; exact List.mem_cons_self
      have hinner : Token.isInner c = false := by
        have hhead := List.head?_dropWhile_not Token.isInner text
        simpa [hbehind] using hhead
      exact Token.apart_of_isPlain (htext c ((List.dropWhile_sublist _).subset hmem)) hinner rest

/-- The text of a word with text apart from it behind. -/
theorem Component.ofText_word_append {word behind : Text} (hword : ∀ c ∈ word, Token.isInner c = true)
    (hbehind : Apart behind) : ofText (word ++ behind) = ofText word ++ ofText behind := by
  have hread := ((words_ofText hword).2 none behind hbehind).ofText_append
  rwa [source_ofText] at hread

/-- A space before text that starts with no white space. -/
theorem Component.ofText_space {behind : Text} (h : ∀ c ∈ behind.head?, Token.isBlank c = false) :
    ofText (' ' :: behind) = blanks [' '] ++ ofText behind := by
  have hspace : ∀ c ∈ [' '], Token.isBlank c = true := List.all_eq_true.mp (by decide)
  have hstands : Stands none behind (blanks [' ']) := stands_blanks hspace h
  have hread := hstands.ofText_append
  rwa [sources_blanks] at hread

namespace Value

variable {nodes : List Node}

/-- A word with a space behind it. -/
theorem pushAll_word_space {word behind : Text} (hword : ∀ c ∈ word, Token.isInner c = true)
    (hne : word ≠ []) (hbehind : ∀ c ∈ behind.head?, Token.isBlank c = false)
    (h : lastWord nodes = none) :
    pushAll nodes (Component.ofText (word ++ ' ' :: behind)) =
      pushAll (.space [' '] :: .word word :: nodes) (Component.ofText behind) := by
  rw [Component.ofText_word_append hword (Token.apart_of_isBlank (by decide) _), pushAll_append,
    pushAll_ofText hword hne h, Component.ofText_space hbehind, pushAll_append]
  simp [Component.blanks, pushAll, push, pushToken, pushSpace]

theorem callOf_inside (line : Line) :
    callOf calcName (pushAll [] (Component.ofText line.inside)) = (FluidSize.growing line).node := by
  have hpixels : ∀ c ∈ ['p', 'x'], Token.isInner c = true := List.all_eq_true.mp (by decide)
  have hplus : ∀ c ∈ ['+'], Token.isInner c = true := List.all_eq_true.mp (by decide)
  have hwidth : ∀ c ∈ ['v', 'w'], Token.isInner c = true := List.all_eq_true.mp (by decide)
  have hintercept := isInner_units (isInner_formatNumber line.roundedIntercept) hpixels
  have hslope := isInner_units (isInner_formatNumber line.slopePerHundredth) hwidth
  have hinside : line.inside = formatNumber line.roundedIntercept ++ ['p', 'x'] ++
      ' ' :: (['+'] ++ ' ' :: (formatNumber line.slopePerHundredth ++ ['v', 'w'])) := by
    have hunits : "px + ".toList = ['p', 'x', ' ', '+', ' '] ∧ "vw".toList = ['v', 'w'] := by decide
    simp [Line.inside, hunits]
  have hhead : ∀ c ∈ (formatNumber line.slopePerHundredth ++ ['v', 'w']).head?,
      Token.isBlank c = false := fun c hc =>
    Token.isBlank_of_isInner (hslope c (List.mem_of_mem_head? hc))
  rw [hinside, pushAll_word_space hintercept (by simp) (by rintro c ⟨⟩; decide) rfl,
    pushAll_word_space hplus (by simp) hhead rfl, pushAll_ofText hslope (by simp) rfl]
  rfl

/-- Before plain text a size is read as its node, with what is read of the text behind it. -/
theorem pushAll_size (size : FluidSize) {text : Text} (htext : ∀ c ∈ text, Token.isPlain c = true)
    (h : lastWord nodes = none) :
    pushAll nodes (Component.ofText (size.render ++ text)) =
      pushAll (size.node :: nodes) (Component.ofText text) := by
  cases size with
  | fixed x =>
      obtain ⟨word, behind, rfl, hword, hbehind⟩ := exists_word_apart htext
      have hsize := FluidSize.isInner_render_fixed x
      have hunit : (FluidSize.fixed x).render ≠ [] :=
        List.append_ne_nil_of_right_ne_nil (formatNumber x) (by decide)
      have hne := List.append_ne_nil_of_left_ne_nil hunit word
      rw [← List.append_assoc, Component.ofText_word_append (isInner_units hsize hword) hbehind,
        Component.ofText_word_append hword hbehind, pushAll_append, pushAll_append,
        pushAll_ofText (isInner_units hsize hword) hne h, FluidSize.node,
        pushAll_word (Component.words_ofText hword).1, Component.source_ofText]
  | growing line =>
      obtain ⟨tokens, htokens, hstands⟩ := Component.plain_ofText htext
      obtain ⟨-, -, hinside⟩ := Component.plain_ofText line.isPlain_inside
      have hall : Stands none [] (.block (.call calcName) (Component.ofText line.inside) true ::
          Component.ofText text) :=
        .closed (Token.standsBefore_calc _) (hinside _ _ (Token.fenced_close .round _))
          (hstands none [] Token.fenced_nil)
      have hread := Component.ofText_sources hall
      have hsource : Component.sources (.block (.call calcName) (Component.ofText line.inside) true ::
          Component.ofText text) = (FluidSize.growing line).render ++ text := by
        rw [FluidSize.render_growing, Component.sources_cons, Component.source,
          Component.source_ofText, Component.source_ofText]
        simp [Opening.text, Opening.brackets, Bracket.opener, Bracket.close]
      rw [← hsource, hread, pushAll, push, callOf_inside]

/-- A size alone is read as its node. -/
theorem ofText_size (size : FluidSize) : ofText size.render = [size.node] := by
  have hnil : ∀ c ∈ ([] : Text), Token.isPlain c = true := by simp
  have hnone : lastWord [] = none := rfl
  have hread := pushAll_size size hnil hnone
  have hempty : Component.ofText [] = [] := Component.ofText_sources (.nil none [])
  rw [List.append_nil, hempty, pushAll] at hread
  rw [ofText, ofComponents, hread]
  rfl

end Value

end FluidSizing
