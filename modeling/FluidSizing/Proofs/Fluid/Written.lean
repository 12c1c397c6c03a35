import FluidSizing.Proofs.Fluid.Frame
import FluidSizing.Proofs.Fluid.Pattern
import FluidSizing.Proofs.Value.Arguments

/-! The intended form of a value: a `clamp` function of a fluid call between two fixed lengths, with white
space wherever it may stand (`WrittenClamp`). It is read as the function of these arguments
(`WrittenClamp.ofText_text`), so whatever its layout is the call is replaced by the size that the lengths,
the numbers and the settings give (`resolve_writtenClamp`). -/

namespace FluidSizing

open Component (Stands)
open Value (Argument)

structure Blank where
  text : Text
  isBlank : ∀ c ∈ text, Token.isBlank c = true

/-- A fixed length written without white space. -/
structure WrittenLength where
  text : Text
  length : Length
  read : Length.read text = .ok length
  bare : ∀ c ∈ text, isWhiteSpace c = false

/-- The number of pixels of a length, sixteen for every `em` and `rem`. -/
inductive Length.InPixels : Length → Binary64 → Prop
  | pixels (value : Binary64) : InPixels ⟨value, .pixels⟩ value
  | ems (value : Binary64) : InPixels ⟨value, .ems⟩ (value.mul (Binary64.ofNat 16))
  | rootEms (value : Binary64) : InPixels ⟨value, .rootEms⟩ (value.mul (Binary64.ofNat 16))

theorem Length.inPixels_iff {length : Length} {size : Binary64} :
    length.InPixels size ↔ size = length.pixels := by
  constructor
  · rintro (_ | _ | _) <;> rfl
  · rintro rfl
    obtain ⟨value, unit⟩ := length
    cases unit with
    | pixels => exact .pixels value
    | ems => exact .ems value
    | rootEms => exact .rootEms value

/-- A canonical number with white space around it. -/
structure WrittenNumber where
  before : Blank
  text : Text
  after : Blank
  number : Binary64
  read : Number.read text = .ok number

def WrittenNumber.source (n : WrittenNumber) : Text := n.before.text ++ (n.text ++ n.after.text)

/-- A fluid call of no, two or three numbers between two fixed lengths, with white space beside every
argument; `leading` is white space at the start of the call, which may stand there without arguments
too. -/
structure WrittenClamp where
  beforeLow : Blank
  low : WrittenLength
  afterLow : Blank
  beforeCall : Blank
  leading : Blank
  numbers : List WrittenNumber
  count : numbers.length = 0 ∨ numbers.length = 2 ∨ numbers.length = 3
  afterCall : Blank
  beforeHigh : Blank
  high : WrittenLength
  afterHigh : Blank

namespace WrittenClamp

def call (w : WrittenClamp) : Text :=
  fluidName ++ '(' :: (w.leading.text ++ [','].intercalate (w.numbers.map WrittenNumber.source) ++ [')'])

/-- The text of the `clamp` function, with the call or what replaces it in the middle. -/
def text (w : WrittenClamp) (middle : Text) : Text :=
  clampName ++ '(' :: [','].intercalate
    [w.beforeLow.text ++ (w.low.text ++ w.afterLow.text),
      w.beforeCall.text ++ (middle ++ w.afterCall.text),
      w.beforeHigh.text ++ (w.high.text ++ w.afterHigh.text)] ++ [')']

/-- The range of the call: the settings, overridden by the numbers at their places. -/
def range (w : WrittenClamp) (settings : Settings) : FluidRange where
  minWidth := (w.numbers.map WrittenNumber.number)[0]?.getD settings.minWidth
  maxWidth := (w.numbers.map WrittenNumber.number)[1]?.getD settings.maxWidth
  baseFontSize := (w.numbers.map WrittenNumber.number)[2]?.getD settings.baseFontSize

theorem range_eq (w : WrittenClamp) (settings : Settings) :
    w.range settings = FluidCall.range settings (w.numbers.map WrittenNumber.number) := by
  have hcount := w.count
  rw [range]
  match w.numbers, hcount with
  | [], _ => rfl
  | [_, _], _ => rfl
  | [_, _, _], _ => rfl
  | [_], h => simp at h
  | _ :: _ :: _ :: _ :: _, h => simp at h

end WrittenClamp

/-- A length is a word. -/
theorem WrittenLength.isWordChar (l : WrittenLength) : ∀ c ∈ l.text, Token.isWordChar c = true := by
  intro c hc
  have hpart := Length.isPart_of_mem_of_read l.read c hc
  rw [Length.isPart, l.bare c hc, Length.isNumeric] at hpart
  simp only [Bool.false_or, Bool.or_eq_true, decide_eq_true_eq] at hpart
  rcases hpart with (hdigit | hpoint) | halpha
  · simp [Token.isWordChar, hdigit]
  · simp [Token.isWordChar, hpoint]
  · simp [Token.isWordChar, halpha]

def WrittenLength.argument (l : WrittenLength) (before after : Blank) : Argument :=
  .word before.text l.text after.text before.isBlank after.isBlank (Length.ne_nil_of_read l.read)
    l.isWordChar

namespace WrittenNumber

variable (n : WrittenNumber)

theorem isWordChar : ∀ c ∈ n.text, Token.isWordChar c = true := by
  intro c hc
  have hpart := Number.isPart_of_isPlain (Number.isPlain_of_read n.read) c hc
  simp only [Number.isPart, Bool.or_eq_true, decide_eq_true_eq] at hpart
  rcases hpart with (hminus | hpoint) | hdigit
  · simp [Token.isWordChar, hminus]
  · simp [Token.isWordChar, hpoint]
  · simp [Token.isWordChar, hdigit]

theorem text_ne_nil : n.text ≠ [] := by
  intro hnil
  have hread := n.read
  rw [hnil] at hread
  cases hread

/-- A number as an argument, behind more white space. -/
def argument (leading : Blank) : Argument :=
  .word (leading.text ++ n.before.text) n.text n.after.text
    (fun c hc => (List.mem_append.mp hc).elim (leading.isBlank c) (n.before.isBlank c))
    n.after.isBlank n.text_ne_nil n.isWordChar

end WrittenNumber

namespace FluidCall

variable {inside : List Component} (hinside : ∀ post, Stands (some .round) (')' :: post) inside)
include hinside

/-- A fluid call stands before any text. -/
theorem stands_written {enclosing : Option Bracket} (post : Text) :
    Stands enclosing post (components inside) := by
  refine .token ⟨'@', ['f', 'l', 'u', 'i', 'd'], rfl, ?_⟩ rfl
    (.closed ⟨'(', [], rfl, rfl⟩ (hinside _) (.nil _ _))
  simpa [Component.source, Opening.text, Bracket.opener] using Token.scan_fluidName _

theorem ofText_components :
    Component.ofText (fluidName ++ '(' :: (Component.sources inside ++ [')'])) = components inside := by
  have hread := Component.ofText_sources (stands_written hinside [])
  simpa [components, Component.source, Opening.text, Opening.brackets, Bracket.opener, Bracket.close]
    using hread

end FluidCall

/-- Numbers with commas between them, as they stand in a call: their texts are the words of the call. -/
theorem exists_inside (leading : Blank) (numbers : List WrittenNumber) :
    ∃ inside : List Component,
      Component.sources inside =
        leading.text ++ [','].intercalate (numbers.map WrittenNumber.source) ∧
      (∀ post, Stands (some .round) (')' :: post) inside) ∧
      ∃ before children after,
        Value.callOf fluidName (Value.pushAll [] inside) = .function fluidName before children after ∧
          Value.words children = numbers.map WrittenNumber.text := by
  cases numbers with
  | nil =>
      refine ⟨Component.blanks leading.text, by simp [List.intercalate], fun post => ?_, leading.text, [],
        [], ?_, rfl⟩
      · apply Component.stands_blanks leading.isBlank
        rintro c ⟨⟩
        decide
      · rw [Argument.pushAll_leading]
        cases leading.text <;> rfl
  | cons n rest =>
      let nothing : Blank := ⟨[], by simp⟩
      let first := n.argument leading
      let others := rest.map fun m => m.argument nothing
      have hothers : others.map Argument.source = rest.map WrittenNumber.source := by
        rw [List.map_map]
        rfl
      have htexts : (first :: others).map Argument.text = (n :: rest).map WrittenNumber.text := by
        rw [List.map_cons, List.map_map]
        rfl
      refine ⟨Component.blanks first.before ++ first.body others, ?_, first.stands_listed others, ?_⟩
      · have hfirst : first.source = leading.text ++ n.source := by
          simp [first, WrittenNumber.argument, Argument.word, Argument.source, WrittenNumber.source]
        rw [Component.sources_append, Component.sources_blanks, first.sources_body,
          first.listed_eq_intercalate, List.map_cons, List.map_cons, hothers, hfirst]
        cases rest <;> simp [List.intercalate]
      · refine ⟨_, _, _, first.callOf_listed fluidName others, ?_⟩
        rw [first.words_children others, htexts]
        intro b hb
        rcases List.mem_cons.mp hb with rfl | hb
        · rfl
        · obtain ⟨m, -, rfl⟩ := List.mem_map.mp hb
          rfl

/-- A fluid call as an argument: the keyword and a block in parentheses are read as one function. -/
def fluidArgument (before after : Blank) (inside : List Component)
    (hinside : ∀ post, Stands (some .round) (')' :: post) inside) : Argument where
  before := before.text
  text := fluidName ++ '(' :: (Component.sources inside ++ [')'])
  after := after.text
  node := Value.callOf fluidName (Value.pushAll [] inside)
  isBlank_before := before.isBlank
  isBlank_after := after.isBlank
  exists_head := ⟨'@', _, rfl, by decide⟩
  stands := by
    intro post _
    rw [FluidCall.ofText_components hinside]
    exact FluidCall.stands_written hinside post
  pushAll_eq := by
    intro nodes h
    rw [FluidCall.ofText_components hinside]
    simp only [FluidCall.components, Value.pushAll, Value.push, Value.pushToken,
      Value.pushWord_of_lastWord h]
    rfl
  isArgument := by
    obtain ⟨_, _, _, hcall, -⟩ := Value.callOf_eq fluidName (Value.pushAll [] inside)
    rw [hcall]
    exact Or.inr rfl

/-- The written form is read as one function of three arguments. -/
theorem WrittenClamp.ofText_text (w : WrittenClamp) : ∃ before children after,
    Value.words children = w.numbers.map WrittenNumber.text ∧
      Value.ofText (w.text w.call) = [.function clampName w.beforeLow.text
        [.word w.low.text, .divider ',' w.afterLow.text w.beforeCall.text,
          .function fluidName before children after, .divider ',' w.afterCall.text w.beforeHigh.text,
          .word w.high.text] w.afterHigh.text] := by
  obtain ⟨inside, hsources, hinside, before, children, after, hcall, hwords⟩ :=
    exists_inside w.leading w.numbers
  let low := w.low.argument w.beforeLow w.afterLow
  let call := fluidArgument w.beforeCall w.afterCall inside hinside
  let high := w.high.argument w.beforeHigh w.afterHigh
  let arguments := Component.blanks low.before ++ low.body [call, high]
  have hstands : Stands none [] [.block (.call clampName) arguments true] :=
    .closed ⟨'c', ['l', 'a', 'm', 'p', '('], rfl, rfl⟩ (low.stands_listed [call, high] _) (.nil _ _)
  have htext : Component.sources [.block (.call clampName) arguments true] = w.text w.call := by
    have hlisted : Component.sources arguments = low.listed [call, high] := by
      rw [Component.sources_append, Component.sources_blanks, low.sources_body]
    have hcalltext : call.text = w.call := by
      show fluidName ++ '(' :: (Component.sources inside ++ [')']) = w.call
      rw [hsources]
      rfl
    have hsource : call.source = w.beforeCall.text ++ (w.call ++ w.afterCall.text) := by
      rw [← hcalltext]
      rfl
    rw [Component.sources_cons, Component.source, Component.sources_nil, List.append_nil, hlisted,
      low.listed_eq_intercalate, List.map_cons, List.map_cons, hsource]
    simp only [WrittenClamp.text, Opening.text, Opening.brackets, if_true, List.append_assoc,
      List.cons_append]
    rfl
  have hread : Component.ofText (w.text w.call) = [.block (.call clampName) arguments true] := by
    rw [← htext, Component.ofText_sources hstands]
  refine ⟨before, children, after, hwords, ?_⟩
  rw [Value.ofText, Value.ofComponents, hread]
  simp only [Value.pushAll, Value.push, List.reverse_singleton]
  rw [low.callOf_listed clampName [call, high]]
  show [Node.function clampName w.beforeLow.text [.word w.low.text,
    .divider ',' w.afterLow.text w.beforeCall.text, Value.callOf fluidName (Value.pushAll [] inside),
    .divider ',' w.afterCall.text w.beforeHigh.text, .word w.high.text] w.afterHigh.text] = _
  rw [hcall]

theorem FluidCall.arguments_of_written {numbers : List WrittenNumber}
    (count : numbers.length = 0 ∨ numbers.length = 2 ∨ numbers.length = 3) :
    FluidCall.arguments (numbers.map WrittenNumber.text) = .ok (numbers.map WrittenNumber.number) := by
  have hfaults : faults (numbers.map WrittenNumber.text) = [] := by
    apply faults_eq_nil_iff.mpr
    intro word hword
    obtain ⟨n, -, rfl⟩ := List.mem_map.mp hword
    exact ⟨n.number, n.read⟩
  have hnumbers : FluidCall.numbers (numbers.map WrittenNumber.text) =
      numbers.map WrittenNumber.number := by
    have hread : ∀ n : WrittenNumber, (Number.read n.text).toOption = some n.number := by
      intro n
      rw [n.read]
      rfl
    rw [FluidCall.numbers, List.filterMap_map, ← List.filterMap_eq_map]
    congr 1
    funext n
    exact hread n
  simp only [FluidCall.arguments, hfaults, hnumbers, List.isEmpty_nil, Bool.not_true,
    Bool.false_eq_true, if_false, List.length_map]
  exact if_pos (by simpa [or_assoc] using count)

/-- The outcome for the function that a written form is read as. -/
theorem WrittenClamp.outcome_eq (w : WrittenClamp) (settings : Settings) (before after : Text)
    {children : List Node} (hwords : Value.words children = w.numbers.map WrittenNumber.text)
    (leading trailing leading' trailing' : Text) :
    Clamp.outcome settings [.word w.low.text, .divider ',' leading trailing,
        .function fluidName before children after, .divider ',' leading' trailing', .word w.high.text] =
      .rewritten 2 (FluidCall.size w.low.length.pixels w.high.length.pixels (w.range settings)).1
        (FluidCall.size w.low.length.pixels w.high.length.pixels (w.range settings)).2 := by
  have harguments := FluidCall.arguments_of_written w.count
  rw [← hwords] at harguments
  rw [w.range_eq]
  simp [Clamp.outcome, Value.argumentIndices, Node.isDivider, Clamp.call?, Clamp.bound, Node.word?,
    harguments, w.low.read, w.high.read]

/-- The intended form is always rewritten, whatever its layout: the call is replaced by the line between
the two lengths in pixels over the range of the call, and nothing else is changed. Only if the widths of
the range are equal there is no line; then the base size stands there, and this is what is reported. -/
theorem resolve_writtenClamp (settings : Settings) (w : WrittenClamp) :
    ∃ minSize maxSize, w.low.length.InPixels minSize ∧ w.high.length.InPixels maxSize ∧
      resolve settings (w.text w.call) =
        match Line.between minSize maxSize (w.range settings) with
        | some line => ⟨some (w.text (FluidSize.growing line).render), []⟩
        | none => ⟨some (w.text (FluidSize.fixed (w.range settings).baseFontSize).render),
            if settings.warnings then
              [.equalWidths (w.range settings).minWidth (w.range settings).maxWidth
                (w.range settings).baseFontSize]
            else []⟩ := by
  refine ⟨_, _, Length.inPixels_iff.mpr rfl, Length.inPixels_iff.mpr rfl, ?_⟩
  obtain ⟨before, children, after, hwords, hvalue⟩ := w.ofText_text
  have houtcome := w.outcome_eq settings before after hwords w.afterLow.text
    w.beforeCall.text w.afterCall.text w.beforeHigh.text
  have hresolve : resolve settings (w.text w.call) =
      ⟨some (w.text (FluidCall.size w.low.length.pixels w.high.length.pixels
          (w.range settings)).1.render),
        if settings.warnings then (FluidCall.size w.low.length.pixels w.high.length.pixels
          (w.range settings)).2.toList else []⟩ := by
    generalize FluidCall.size w.low.length.pixels w.high.length.pixels (w.range settings) = result
      at houtcome
    obtain ⟨size, diagnostic⟩ := result
    have hreport : [ClampOutcome.rewritten 2 size diagnostic].filterMap ClampOutcome.diagnostic? =
        diagnostic.toList := by
      cases diagnostic <;> rfl
    rw [resolve, hvalue]
    simp [Value.outcomes, Node.outcomes, houtcome, ClampOutcome.isRewrite, hreport, Value.resolve,
      Node.resolve, Node.render, WrittenClamp.text, List.intercalate]
  rw [hresolve, FluidCall.size]
  cases Line.between w.low.length.pixels w.high.length.pixels (w.range settings) with
  | some line => simp
  | none => simp

theorem bare_of_all {text : Text} (h : text.all (fun c => !isWhiteSpace c) = true) :
    ∀ c ∈ text, isWhiteSpace c = false := by
  simpa using h

/-- A bound in `rem` and two numbers with white space around them. -/
theorem resolve_writtenClamp_rootEms :
    resolve .reporting "clamp(1.5rem ,@fluid( 320,\t1280 ), 2px)".toList =
      ⟨some "clamp(1.5rem ,calc(31.33333px + -2.29167vw), 2px)".toList, []⟩ := by
  let nothing : Blank := ⟨[], by simp⟩
  let one : Blank := ⟨" ".toList, List.all_eq_true.mp (by decide)⟩
  let tab : Blank := ⟨"\t".toList, List.all_eq_true.mp (by decide)⟩
  let low : Length := ⟨(Binary64.ofNat 3).div (Binary64.ofNat 2), .rootEms⟩
  let w : WrittenClamp := {
    beforeLow := nothing
    low := ⟨"1.5rem".toList, low, by decide +kernel, bare_of_all (by decide)⟩
    afterLow := one
    beforeCall := nothing
    leading := nothing
    numbers := [⟨one, "320".toList, nothing, Binary64.ofNat 320, by decide +kernel⟩,
      ⟨tab, "1280".toList, one, Binary64.ofNat 1280, by decide +kernel⟩]
    count := Or.inr (Or.inl rfl)
    afterCall := nothing
    beforeHigh := one
    high := ⟨"2px".toList, ⟨Binary64.ofNat 2, .pixels⟩, by decide +kernel, bare_of_all (by decide)⟩
    afterHigh := nothing }
  obtain ⟨minSize, maxSize, hlow, hhigh, hresolve⟩ := resolve_writtenClamp .reporting w
  rw [Length.inPixels_iff.mp hlow, Length.inPixels_iff.mp hhigh] at hresolve
  exact hresolve.trans (by decide +kernel)

end FluidSizing
