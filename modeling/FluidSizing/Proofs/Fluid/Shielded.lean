import FluidSizing.Proofs.Fluid.Pattern

/-! What a call names is not looked up in the settings. A call of two words leaves the base size to them
and a call of three words nothing (`FluidCall.range_congr`), so a value the calls of which all have that
many words is resolved alike under settings that differ in the rest, whatever else the calls say and
wherever they stand (`resolve_shielded`). -/

namespace FluidSizing

namespace Node

/-- The words directly inside a function. -/
def words : Node → List Text
  | function _ _ nodes _ => Value.words nodes
  | _ => []

end Node

namespace Value

/-- Every fluid call anywhere in a value has at least so many words. -/
def CallsName (count : Nat) (value : Value) : Prop :=
  ∀ n ∈ value.preorder, n.isNamed fluidName = true → count ≤ n.words.length

instance (count : Nat) (value : Value) : Decidable (value.CallsName count) :=
  inferInstanceAs
    (Decidable (∀ n ∈ value.preorder, n.isNamed fluidName = true → count ≤ n.words.length))

end Value

theorem Node.mem_preorder_self (n : Node) : n ∈ n.preorder := by
  cases n <;> simp [Node.preorder]

theorem Value.mem_preorder {nodes : List Node} {n : Node} (h : n ∈ nodes) :
    n ∈ Value.preorder nodes := by
  induction nodes with
  | nil => cases h
  | cons m rest ih =>
      rw [Value.preorder]
      rcases List.mem_cons.mp h with rfl | h
      · exact List.mem_append_left _ n.mem_preorder_self
      · exact List.mem_append_right _ (ih h)

section

variable {name before after : Text} {nodes : List Node} {n : Node}

mutual

theorem Node.mem_preorder_of_child (hn : n ∈ nodes) : (m : Node) →
    .function name before nodes after ∈ m.preorder → n ∈ m.preorder
  | .word _, h | .space _, h | .divider .., h | .quoted _, h | .comment _, h => by
      simp [Node.preorder] at h
  | .function _ _ inside _, h => by
      rw [Node.preorder] at h ⊢
      rcases List.mem_cons.mp h with heq | h
      · obtain ⟨-, -, rfl, -⟩ := Node.function.inj heq
        exact List.mem_cons_of_mem _ (Value.mem_preorder hn)
      · exact List.mem_cons_of_mem _ (Value.mem_preorder_of_child hn inside h)

/-- The children of a function of a value are nodes of the value. -/
theorem Value.mem_preorder_of_child (hn : n ∈ nodes) : (value : Value) →
    .function name before nodes after ∈ value.preorder → n ∈ value.preorder
  | [], h => by simp [Value.preorder] at h
  | m :: rest, h => by
      rw [Value.preorder] at h ⊢
      rcases List.mem_append.mp h with h | h
      · exact List.mem_append_left _ (Node.mem_preorder_of_child hn m h)
      · exact List.mem_append_right _ (Value.mem_preorder_of_child hn rest h)

end

end

/-- Settings that are the same to every call of at least `count` words. -/
structure Settings.SameFor (count : Nat) (settings settings' : Settings) : Prop where
  two_le : 2 ≤ count
  base : count < 3 → settings.baseFontSize = settings'.baseFontSize

variable {count : Nat} {settings settings' : Settings}

namespace FluidCall

theorem range_congr (same : settings.SameFor count settings') {words : List Text}
    (hwords : count ≤ words.length) {numbers : List Binary64}
    (h : FluidCall.arguments words = .ok numbers) :
    range settings numbers = range settings' numbers := by
  obtain ⟨hread, hcount⟩ := exists_arguments_iff.mp ⟨numbers, h⟩
  have hlength : numbers.length = words.length := by
    rw [numbers_of_arguments h, length_numbers hread]
  have htwo := same.two_le
  rcases (by omega : numbers.length = 2 ∨ numbers.length = 3) with hlen | hlen
  · obtain ⟨minWidth, maxWidth, rfl⟩ := List.length_eq_two.mp hlen
    simp only [range, same.base (by omega)]
  · obtain ⟨minWidth, maxWidth, baseFontSize, rfl⟩ := List.length_eq_three.mp hlen
    rfl

end FluidCall

theorem Clamp.outcome_congr_settings (same : settings.SameFor count settings') {nodes : List Node}
    (hcalls : ∀ n ∈ nodes, n.isNamed fluidName = true → count ≤ n.words.length) :
    outcome settings nodes = outcome settings' nodes := by
  unfold outcome
  split
  · split
    · rfl
    · rename_i place words hcall
      obtain ⟨before, inside, after, hplace, rfl⟩ := exists_function_of_call? hcall
      have hwords : count ≤ (Value.words inside).length :=
        hcalls _ (List.mem_of_getElem? hplace) (by simp [Node.isNamed])
      split
      · rfl
      · rename_i numbers hnumbers
        rw [FluidCall.range_congr same hwords hnumbers]
  · rfl

theorem resolve_congr_of_callsName (same : settings.SameFor count settings')
    (warnings : settings.warnings = settings'.warnings) {text : Text}
    (hcalls : (Value.ofText text).CallsName count) :
    resolve settings text = resolve settings' text := by
  obtain ⟨hresolve, houtcomes⟩ := Value.resolve_congr_preorder (Value.ofText text)
    fun _ nodes _ hclamp => Clamp.outcome_congr_settings same fun n hn =>
      hcalls n (Value.mem_preorder_of_child hn _ hclamp)
  rw [resolve, resolve, hresolve, houtcomes, warnings]

/-- If every fluid call in a value has three words, the settings have no part in its new text and in
what is reported, but for whether anything is; if every one has two words, only the base size has. -/
theorem resolve_shielded (warnings : settings.warnings = settings'.warnings) (text : Text) :
    ((Value.ofText text).CallsName 3 → resolve settings text = resolve settings' text) ∧
    ((Value.ofText text).CallsName 2 → settings.baseFontSize = settings'.baseFontSize →
      resolve settings text = resolve settings' text) := by
  constructor
  · intro hcalls
    exact resolve_congr_of_callsName ⟨by decide, fun h => absurd h (by decide)⟩ warnings hcalls
  · intro hcalls hbase
    exact resolve_congr_of_callsName ⟨by decide, fun _ => hbase⟩ warnings hcalls

/-- A nested call, one of equal widths, one with too many words and one that names no number are
shielded, also from settings that are no numbers; calls of two words are not shielded from the base
size. -/
theorem resolve_shielded_nested :
    let text := ("clamp(1px,@fluid(7 7 9),3px) clamp(4px,clamp(1px,@fluid(0 100 1),2px)," ++
      "@fluid(1 2 3 4)) f(clamp(1px,@fluid(x 1 2),2px))").toList
    let pair := "clamp(1px,@fluid(7 7),3px) clamp(1px,@fluid(0 100),2px)".toList
    let wide : Settings := { Settings.reporting with minWidth := .nan, maxWidth := .infinity true }
    let odd : Settings := { wide with baseFontSize := .nan }
    odd.warnings = Settings.reporting.warnings ∧ (Value.ofText text).CallsName 3 ∧
      resolve odd text = resolve .reporting text ∧
      (resolve odd text).diagnostics =
        [.equalWidths (.ofNat 7) (.ofNat 7) (.ofNat 9), .wrongArgumentCount 4, .invalidArguments] ∧
      wide.warnings = Settings.reporting.warnings ∧ (Value.ofText pair).CallsName 2 ∧
      wide.baseFontSize = Settings.reporting.baseFontSize ∧
      resolve wide pair = resolve .reporting pair ∧ resolve odd pair ≠ resolve .reporting pair := by
  intro text pair wide odd
  have htext : (Value.ofText text).CallsName 3 := by decide +kernel
  have hpair : (Value.ofText pair).CallsName 2 := by decide +kernel
  have hodd : odd.warnings = Settings.reporting.warnings := rfl
  have hwide : wide.warnings = Settings.reporting.warnings := rfl
  have hbase : wide.baseFontSize = Settings.reporting.baseFontSize := by decide +kernel
  exact ⟨hodd, htext, (resolve_shielded hodd text).1 htext, by decide +kernel, hwide, hpair, hbase,
    (resolve_shielded hwide pair).2 hpair hbase, by decide +kernel⟩

end FluidSizing
