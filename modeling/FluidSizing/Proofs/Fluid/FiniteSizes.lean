import FluidSizing.Proofs.Fluid.Decimals
import FluidSizing.Proofs.Fluid.Pattern
import FluidSizing.Proofs.Fluid.Reread

/-! Which sizes are written as numbers. The numbers of a call and of finite settings are finite, but a bound
may have any number of digits and the widths of a call may be as close as numbers are, so the line between
two bounds may be beyond the range. Rounding scales the line first: a size is written with numbers just if
the scaled line is finite (`FluidSize.isSize_render_iff`), which it is for all bounds and widths that are not
extreme (`FluidCall.isScalable_size`). -/

namespace FluidSizing

namespace Text

/-- Digits, at least one, and perhaps a point with digits behind it. -/
inductive IsUnsigned : Text → Prop
  | whole {whole : Text} (h : IsDigits whole) (hne : whole ≠ []) : IsUnsigned whole
  | point {whole fraction : Text} (h : IsDigits whole) (hne : whole ≠ []) (h' : IsDigits fraction)
      (hne' : fraction ≠ []) : IsUnsigned (whole ++ '.' :: fraction)

/-- The same, perhaps behind a minus. -/
inductive IsNumber : Text → Prop
  | unsigned {text : Text} (h : IsUnsigned text) : IsNumber text
  | minus {text : Text} (h : IsUnsigned text) : IsNumber ('-' :: text)

/-- A size with numbers: pixels, or a line of pixels and hundredths of the viewport width. -/
inductive IsSize : Text → Prop
  | fixed {number : Text} (h : IsNumber number) : IsSize (number ++ "px".toList)
  | growing {intercept slope : Text} (h : IsNumber intercept) (h' : IsNumber slope) :
      IsSize ("calc(".toList ++ intercept ++ "px + ".toList ++ slope ++ "vw)".toList)

variable {text : Text}

theorem IsNumber.isNumberPart (h : IsNumber text) : ∀ c ∈ text, c.isDigit = true ∨ c = '.' ∨ c = '-' := by
  have hunsigned : ∀ {text}, IsUnsigned text → ∀ c ∈ text, c.isDigit = true ∨ c = '.' ∨ c = '-' := by
    intro text h c hc
    cases h with
    | whole h => exact Or.inl (h c hc)
    | point h _ h' =>
        rcases List.mem_append.mp hc with hc | hc
        · exact Or.inl (h c hc)
        · rcases List.mem_cons.mp hc with rfl | hc
          · exact Or.inr (Or.inl rfl)
          · exact Or.inl (h' c hc)
  cases h with
  | unsigned h => exact hunsigned h
  | minus h => exact List.forall_mem_cons.mpr ⟨Or.inr (Or.inr rfl), hunsigned h⟩

/-- The letters of names of numbers are not in a size. -/
theorem IsSize.not_mem (h : IsSize text) : 'f' ∉ text ∧ 'N' ∉ text := by
  have hnumber : ∀ {number}, IsNumber number → 'f' ∉ number ∧ 'N' ∉ number := fun h =>
    ⟨fun hmem => by simpa using h.isNumberPart _ hmem, fun hmem => by simpa using h.isNumberPart _ hmem⟩
  cases h with
  | fixed h =>
      obtain ⟨hf, hN⟩ := hnumber h
      simp [hf, hN]
  | growing h h' =>
      obtain ⟨hf, hN⟩ := hnumber h
      obtain ⟨hf', hN'⟩ := hnumber h'
      simp [hf, hN, hf', hN']

end Text

open Text (IsNumber IsSize)

theorem Number.Plain.isNumber {text : Text} (h : Number.Plain text) : IsNumber text := by
  have hmagnitude : ∀ {text}, PlainMagnitude text → Text.IsUnsigned text := by
    rintro _ ⟨hwhole, hfraction⟩
    have hne : ∀ {whole}, PlainWhole whole → whole ≠ [] := by
      rintro _ (_ | _) <;> exact List.cons_ne_nil _ _
    cases hfraction with
    | none =>
        rw [List.append_nil]
        exact .whole hwhole.isDigits (hne hwhole)
    | digits h hlast _ =>
        exact .point hwhole.isDigits (hne hwhole) (h.append (List.forall_mem_singleton.mpr hlast))
          (List.concat_ne_nil _ _)
  cases h with
  | positive h => exact .unsigned (hmagnitude h)
  | negative h => exact .minus (hmagnitude h)

namespace Binary64

variable {x : Binary64}

theorem isNumber_formatNumber (hx : x.isFinite = true) : IsNumber (formatNumber x) :=
  (plain_render (add_zero_spec hx false).1).isNumber

/-- What is not finite is written as a name. -/
theorem mem_formatNumber (hx : x.isFinite = false) : 'f' ∈ formatNumber x ∨ 'N' ∈ formatNumber x := by
  cases x with
  | nan => exact Or.inr (by decide)
  | infinity negative =>
      left
      cases negative <;> decide
  | finite => cases hx

end Binary64

open Binary64

namespace FluidSize

def numbers : FluidSize → List Binary64
  | fixed size => [size]
  | growing line => [line.roundedIntercept, line.slopePerHundredth]

/-- Whether the numbers of a size are finite when they are scaled to be rounded. -/
def isScalable : FluidSize → Bool
  | fixed size => size.isFinite
  | growing line =>
    (line.intercept.mul roundingScale).isFinite &&
      ((line.slope.mul (Binary64.ofNat 100)).mul roundingScale).isFinite

theorem isScalable_iff (size : FluidSize) :
    size.isScalable = true ↔ ∀ x ∈ size.numbers, x.isFinite = true := by
  cases size with
  | fixed x => rw [isScalable, numbers, List.forall_mem_singleton]
  | growing line =>
      rw [isScalable, numbers, Bool.and_eq_true, ← isFinite_round5, ← isFinite_round5,
        List.forall_mem_cons, List.forall_mem_singleton]
      rfl

theorem mem_render {size : FluidSize} {x : Binary64} (hx : x ∈ size.numbers) {c : Char}
    (hc : c ∈ formatNumber x) : c ∈ size.render := by
  cases size with
  | fixed size =>
      obtain rfl := List.mem_singleton.mp hx
      exact List.mem_append_left _ hc
  | growing line =>
      rw [render_growing, Line.inside]
      rw [numbers, List.mem_pair] at hx
      rcases hx with rfl | rfl <;> simp [hc]

/-- A size is written with numbers just if it can be scaled. -/
theorem isSize_render_iff (size : FluidSize) : IsSize size.render ↔ size.isScalable = true := by
  rw [isScalable_iff]
  constructor
  · intro h x hx
    obtain ⟨hf, hN⟩ := h.not_mem
    by_contra hfinite
    rcases mem_formatNumber (Bool.eq_false_iff.mpr hfinite) with hletter | hletter
    · exact hf (mem_render hx hletter)
    · exact hN (mem_render hx hletter)
  · intro h
    cases size with
    | fixed x => exact .fixed (isNumber_formatNumber (h x (by simp [numbers])))
    | growing line =>
        exact .growing (isNumber_formatNumber (h _ (by simp [numbers])))
          (isNumber_formatNumber (h _ (by simp [numbers])))

end FluidSize

structure FluidRange.IsFinite (range : FluidRange) : Prop where
  minWidth : range.minWidth.isFinite = true
  maxWidth : range.maxWidth.isFinite = true
  baseFontSize : range.baseFontSize.isFinite = true

def Settings.isFinite (settings : Settings) : Bool :=
  settings.minWidth.isFinite && settings.maxWidth.isFinite && settings.baseFontSize.isFinite

namespace FluidCall

/-- The power of two that bounds and widths may reach. -/
def reach : Nat := 300

/-- Finite bounds and widths that are not extreme; widths that differ are not extremely close. -/
structure InReach (minSize maxSize : Binary64) (range : FluidRange) : Prop where
  minSize : minSize.UpTo reach
  maxSize : maxSize.UpTo reach
  minWidth : range.minWidth.UpTo reach
  maxWidth : range.maxWidth.UpTo reach
  apart : range.minWidth.value = range.maxWidth.value ∨
    1 / 2 ^ reach ≤ |range.maxWidth.value - range.minWidth.value|

variable {minSize maxSize : Binary64} {range : FluidRange}

theorem InReach.le_abs_widths (h : InReach minSize maxSize range)
    (hdiffer : (range.maxWidth.sub range.minWidth).isEqual (zero false) = false) :
    1 / 2 ^ reach ≤ |(range.maxWidth.sub range.minWidth).value| := by
  have hreach : reach = 300 := rfl
  have hfinite := (h.maxWidth.sub h.minWidth (by omega)).finite
  have hrounded := roundedTo_sub h.maxWidth.finite h.minWidth.finite
  rcases h.apart with hsame | hapart
  · rw [hsame, sub_self] at hrounded
    have hzero := (RoundedTo.exact_int (n := 0) (by exact_mod_cast hrounded) (by decide)).2
    rw [isEqual_zero hfinite, hzero] at hdiffer
    cases hdiffer
  · exact hrounded.le_abs hfinite (by omega) hapart

/-- The size between bounds that are not extreme can be scaled. -/
theorem isScalable_size (hrange : range.IsFinite) (h : InReach minSize maxSize range) :
    (FluidCall.size minSize maxSize range).1.isScalable = true := by
  have hreach : reach = 300 := rfl
  have hscale : roundingScale.UpTo 17 := UpTo.ofNat (by decide) (by decide)
  have hhundred : (Binary64.ofNat 100).UpTo 7 := UpTo.ofNat (by decide) (by decide)
  have hwidths := h.maxWidth.sub h.minWidth (by omega)
  have hsizes := h.maxSize.sub h.minSize (by omega)
  rw [FluidCall.size, Line.between]
  cases hdiffer : (range.maxWidth.sub range.minWidth).isEqual (zero false) with
  | true => exact hrange.baseFontSize
  | false =>
      have hslope := hsizes.div hwidths.finite (h.le_abs_widths hdiffer) (by omega)
      have hintercept := hslope.mulAdd h.minWidth.neg (h.minSize.mono (by omega)) (by omega)
      have hfinite := (hintercept.mul hscale (by omega)).finite
      have hfinite' := ((hslope.mul hhundred (by omega)).mul hscale (by omega)).finite
      simp only [Bool.false_eq_true, if_false, FluidSize.isScalable, hfinite, hfinite', Bool.and_self]

/-- The numbers of a call are finite. -/
theorem isFinite_range {settings : Settings} (hsettings : settings.isFinite = true) {words : List Text}
    {numbers : List Binary64} (h : FluidCall.arguments words = .ok numbers) :
    (FluidCall.range settings numbers).IsFinite := by
  simp only [Settings.isFinite, Bool.and_eq_true] at hsettings
  obtain ⟨⟨hminWidth, hmaxWidth⟩, hbaseFontSize⟩ := hsettings
  have hnumbers : ∀ x ∈ numbers, x.isFinite = true := by
    intro x hx
    rw [numbers_of_arguments h] at hx
    obtain ⟨word, -, hread⟩ := List.mem_filterMap.mp hx
    cases hword : Number.read word with
    | error error => rw [hword] at hread; cases hread
    | ok number =>
        rw [hword] at hread
        obtain rfl := Option.some.inj hread
        exact (Number.read_eq_ok_iff.mp hword).1
  unfold FluidCall.range
  split
  · exact ⟨hnumbers _ (by simp), hnumbers _ (by simp), hbaseFontSize⟩
  · exact ⟨hnumbers _ (by simp), hnumbers _ (by simp), hnumbers _ (by simp)⟩
  · exact ⟨hminWidth, hmaxWidth, hbaseFontSize⟩

end FluidCall

/-- The bounds and the range that a replaced call is between: the lengths of the first and the last
argument, and the range of the call. -/
structure Replacement.IsBetween (settings : Settings) (r : Replacement) (low high : Length)
    (range : FluidRange) : Prop where
  arguments : ∃ first call last numbers, Value.arguments r.nodes = [first, call, last] ∧
    first.length? = some low ∧ last.length? = some high ∧ call.callArguments? = some (.ok numbers) ∧
    range = FluidCall.range settings numbers
  size : r.size = (FluidCall.size low.pixels high.pixels range).1

namespace Replacement

variable {settings : Settings} {r : Replacement} {diagnostic : Option Diagnostic}

theorem exists_isBetween
    (h : Clamp.outcome settings r.nodes = .rewritten r.place r.size diagnostic) :
    ∃ low high range, r.IsBetween settings low high range := by
  obtain ⟨front, back, inside, before, after, low, high, lowLength, highLength, numbers, hnodes, -,
    hfront, hback, hlow, hhigh, hnumbers, hsize⟩ := Clamp.outcome_eq_rewritten h
  refine ⟨lowLength, highLength, FluidCall.range settings numbers, ?_, (congrArg Prod.fst hsize).symm⟩
  refine ⟨.word low, .function fluidName before inside after, .word high, numbers, ?_, ?_, ?_, ?_, rfl⟩
  · rw [hnodes, Value.arguments_append, Value.arguments_cons_function, hfront, hback]
    rfl
  · simp [Node.length?, Node.word?, hlow, Except.toOption]
  · simp [Node.length?, Node.word?, hhigh, Except.toOption]
  · simp [Node.callArguments?, hnumbers]

theorem IsBetween.isFinite_range (hsettings : settings.isFinite = true) {low high : Length}
    {range : FluidRange} (h : r.IsBetween settings low high range) : range.IsFinite := by
  obtain ⟨first, call, last, numbers, -, -, -, hcall, rfl⟩ := h.arguments
  cases call with
  | function name before inside after =>
      simp only [Node.callArguments?] at hcall
      split at hcall
      · exact FluidCall.isFinite_range hsettings (Option.some.inj hcall)
      · cases hcall
  | _ => cases hcall

theorem IsBetween.isScalable_fixed (hsettings : settings.isFinite = true) {low high : Length}
    {range : FluidRange} (h : r.IsBetween settings low high range) {x : Binary64}
    (hsize : r.size = .fixed x) : r.size.isScalable = true := by
  have hfinite := (h.isFinite_range hsettings).baseFontSize
  have hbetween := h.size
  rw [hsize, FluidCall.size] at hbetween
  split at hbetween
  · cases hbetween
  · obtain rfl := FluidSize.fixed.inj hbetween
    rw [hsize]
    exact hfinite

end Replacement

/-- With finite settings a call is replaced by a size with numbers just if its line can be scaled: always
where equal widths leave a fixed size, and whenever the bounds and the widths are not extreme. -/
theorem resolve_sizes {settings : Settings} (hsettings : settings.isFinite = true) (text : Text) :
    ∀ r ∈ (Value.ofText text).replacements settings,
      (IsSize r.size.render ↔ r.size.isScalable = true) ∧
      (∀ x, r.size = .fixed x → IsSize r.size.render) ∧
      ∃ low high range, r.IsBetween settings low high range ∧
        (FluidCall.InReach low.pixels high.pixels range → IsSize r.size.render) := by
  intro r hr
  obtain ⟨diagnostic, hout⟩ := Value.outcome_of_mem_replacements settings _ r hr
  obtain ⟨low, high, range, hbetween⟩ := Replacement.exists_isBetween hout
  simp only [FluidSize.isSize_render_iff, true_and, iff_self]
  refine ⟨fun x hsize => hbetween.isScalable_fixed hsettings hsize, low, high, range, hbetween, ?_⟩
  intro hreach
  rw [hbetween.size]
  exact FluidCall.isScalable_size (hbetween.isFinite_range hsettings) hreach

/-- A size that shrinks, one for equal widths and one that is out of reach but can be scaled. -/
theorem resolve_sizes_reach :
    let text := ("clamp(2rem,@fluid(),16px) clamp(1px,@fluid(5,5,0.5),2px) clamp(1px,@fluid(0,1),1".toList ++
      List.replicate 100 '0') ++ "px)".toList
    Settings.default.isFinite = true ∧
      FluidCall.InReach (Binary64.ofNat 32) (Binary64.ofNat 16)
        ⟨Binary64.ofNat 768, Binary64.ofNat 1536, Binary64.ofNat 16⟩ ∧
      ((Value.ofText text).replacements .default).length = 3 ∧
      ∀ r ∈ (Value.ofText text).replacements .default, IsSize r.size.render := by
  intro text
  have hsettings : Settings.default.isFinite = true := by decide +kernel
  have hscalable : ∀ r ∈ (Value.ofText text).replacements .default, r.size.isScalable = true := by
    decide +kernel
  have hupTo : ∀ n ≤ 2 ^ 20, (Binary64.ofNat n).UpTo FluidCall.reach := fun n hn =>
    (UpTo.ofNat hn (by decide)).mono (by decide)
  have hminWidth := (ofNat_spec (by decide : 768 ≤ 2 ^ 53)).2
  have hmaxWidth := (ofNat_spec (by decide : 1536 ≤ 2 ^ 53)).2
  have hapart : 1 / 2 ^ FluidCall.reach ≤ |(Binary64.ofNat 1536).value - (Binary64.ofNat 768).value| := by
    have hsmall : (1 : ℚ) / 2 ^ FluidCall.reach ≤ 1 := by
      rw [div_le_one (by positivity)]
      exact one_le_pow₀ (by norm_num)
    rw [hminWidth, hmaxWidth]
    exact hsmall.trans (by norm_num)
  refine ⟨hsettings, ⟨hupTo 32 (by decide), hupTo 16 (by decide), ?_, ?_, ?_⟩, by decide +kernel,
    fun r hr => (resolve_sizes hsettings text r hr).1.mpr (hscalable r hr)⟩ <;> dsimp only
  · exact hupTo 768 (by decide)
  · exact hupTo 1536 (by decide)
  · exact Or.inr hapart

/-- A bound that is a one with 304 zeros is in range, but not when it is scaled. -/
theorem resolve_sizes_ne :
    let bound := '1' :: List.replicate 304 '0' ++ "px".toList
    let text := "clamp(".toList ++ bound ++ ",@fluid(0,1),".toList ++ bound ++ ")".toList
    Settings.default.isFinite = true ∧
      (resolve .default text).value =
        some ("clamp(".toList ++ bound ++ ",calc(infpx + 0vw),".toList ++ bound ++ ")".toList) ∧
      ∃ r ∈ (Value.ofText text).replacements .default, ¬ IsSize r.size.render := by
  intro bound text
  have hsizes : ((Value.ofText text).replacements .default).map (fun r => r.size.render) =
      ["calc(infpx + 0vw)".toList] := by decide +kernel
  obtain ⟨r, hr, hrender⟩ := List.mem_map.mp (hsizes ▸ List.mem_singleton_self _)
  refine ⟨by decide +kernel, by decide +kernel, r, hr, fun hsize => ?_⟩
  rw [hrender] at hsize
  exact hsize.not_mem.1 (by decide)

end FluidSizing
