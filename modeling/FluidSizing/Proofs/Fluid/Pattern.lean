import FluidSizing.Proofs.Fluid.Report
import FluidSizing.Value.Walk

/-! Which values are changed. There is one pattern (`Node.IsFluidClamp`): a `clamp` function of three
arguments, a fluid call between two fixed lengths. `Clamp.isRewrite_outcome_iff` says that a `clamp`
function is rewritten if and only if it is of that pattern, and an induction over the tree that a value is
changed if and only if the pattern stands somewhere in it. The settings have no part in either. -/

namespace FluidSizing

namespace Node

/-- A word that spells a fixed length. -/
inductive IsLength : Node → Prop where
  | word {text : Text} {length : Length} (read : Length.read text = .ok length) :
      IsLength (.word text)

/-- A call of `@fluid`, the words of which are no, two or three canonical numbers. -/
inductive IsFluidCall : Node → Prop where
  | call {before after : Text} {inside : List Node}
      (numbers : ∀ word ∈ Value.words inside, ∃ number, Number.read word = .ok number)
      (count : (Value.words inside).length = 0 ∨ (Value.words inside).length = 2 ∨
        (Value.words inside).length = 3) :
      IsFluidCall (.function fluidName before inside after)

/-- A `clamp` function of three arguments: a fluid call between two fixed lengths. -/
inductive IsFluidClamp : Node → Prop where
  | clamp {before after : Text} {nodes : List Node} {low middle high : Node}
      (arguments : Value.arguments nodes = [low, middle, high]) (low : low.IsLength)
      (middle : middle.IsFluidCall) (high : high.IsLength) :
      IsFluidClamp (.function clampName before nodes after)

end Node

namespace FluidCall

variable {words : List Text}

theorem faults_eq_nil_iff :
    faults words = [] ↔ ∀ word ∈ words, ∃ number, Number.read word = .ok number := by
  rw [faults, List.filterMap_eq_nil_iff]
  refine forall₂_congr fun word _ => ?_
  cases hread : Number.read word with
  | ok number => simp
  | error error => simp

theorem length_numbers (h : ∀ word ∈ words, ∃ number, Number.read word = .ok number) :
    (numbers words).length = words.length := by
  induction words with
  | nil => rfl
  | cons word rest ih =>
      obtain ⟨hword, hrest⟩ := List.forall_mem_cons.mp h
      obtain ⟨number, hread⟩ := hword
      have hcons : numbers (word :: rest) = number :: numbers rest := by
        simp [numbers, hread, Except.toOption]
      rw [hcons, List.length_cons, List.length_cons, ih hrest]

theorem numbers_of_arguments {arguments : List Binary64}
    (h : FluidCall.arguments words = .ok arguments) : arguments = numbers words := by
  unfold FluidCall.arguments at h
  split at h
  · cases h
  · dsimp only at h
    split at h
    · exact (Except.ok.inj h).symm
    · cases h

/-- The words of a call are accepted if they are numbers and there are none, two or three of them. -/
theorem exists_arguments_iff :
    (∃ arguments, FluidCall.arguments words = .ok arguments) ↔
      (∀ word ∈ words, ∃ number, Number.read word = .ok number) ∧
        (words.length = 0 ∨ words.length = 2 ∨ words.length = 3) := by
  by_cases hnumbers : ∀ word ∈ words, ∃ number, Number.read word = .ok number
  · have hnil := faults_eq_nil_iff.mpr hnumbers
    simp only [FluidCall.arguments, hnil, List.isEmpty_nil, Bool.not_true, Bool.false_eq_true,
      if_false, length_numbers hnumbers, Bool.or_eq_true, decide_eq_true_eq, or_assoc]
    split <;> simp_all
  · have hfaults : faults words ≠ [] := fun hnil => hnumbers (faults_eq_nil_iff.mp hnil)
    have hempty : (faults words).isEmpty = false := by
      rwa [Bool.eq_false_iff, ne_eq, List.isEmpty_iff]
    simp [FluidCall.arguments, hempty, hnumbers]

end FluidCall

theorem Node.isFluidCall_iff {before after : Text} {inside : List Node} :
    (Node.function fluidName before inside after).IsFluidCall ↔
      ∃ arguments, FluidCall.arguments (Value.words inside) = .ok arguments := by
  rw [FluidCall.exists_arguments_iff]
  constructor
  · rintro ⟨hnumbers, hcount⟩
    exact ⟨hnumbers, hcount⟩
  · rintro ⟨hnumbers, hcount⟩
    exact .call hnumbers hcount

namespace Clamp

variable {settings : Settings} {nodes : List Node}

theorem exists_argumentIndices {low middle high : Node}
    (h : Value.arguments nodes = [low, middle, high]) :
    ∃ first second third, Value.argumentIndices nodes = [first, second, third] ∧
      nodes[first]? = some low ∧ nodes[second]? = some middle ∧ nodes[third]? = some high := by
  have hlength : (Value.argumentIndices nodes).length = 3 := by
    rw [Value.length_argumentIndices, h]
    rfl
  obtain ⟨first, second, third, hindices⟩ := List.length_eq_three.mp hlength
  obtain ⟨x, y, z, harguments, hx, hy, hz⟩ := Value.arguments_of_argumentIndices hindices
  rw [h] at harguments
  obtain ⟨rfl, rfl, rfl⟩ : low = x ∧ middle = y ∧ high = z := by simpa using harguments
  exact ⟨first, second, third, hindices, hx, hy, hz⟩

theorem bound_of_isLength {place : Nat} {n : Node} (hplace : nodes[place]? = some n)
    (h : n.IsLength) : ∃ pixels, bound nodes place = .ok pixels := by
  obtain ⟨hread⟩ := h
  rename_i text length
  exact ⟨length.pixels, by simp [bound, hplace, Node.word?, hread]⟩

/-- A `clamp` function is rewritten if and only if it has three arguments, a fluid call between two
fixed lengths. -/
theorem isRewrite_outcome_iff (settings : Settings) (nodes : List Node) :
    (outcome settings nodes).isRewrite = true ↔
      ∃ low middle high, Value.arguments nodes = [low, middle, high] ∧ low.IsLength ∧
        middle.IsFluidCall ∧ high.IsLength := by
  constructor
  · intro h
    cases hout : outcome settings nodes with
    | rewritten place size diagnostic =>
        obtain ⟨front, back, inside, before, after, low, high, lowLength, highLength, numbers,
          rfl, -, hfront, hback, hlow, hhigh, hnumbers, -⟩ := outcome_eq_rewritten hout
        refine ⟨.word low, .function fluidName before inside after, .word high, ?_, .word hlow,
          Node.isFluidCall_iff.mpr ⟨numbers, hnumbers⟩, .word hhigh⟩
        rw [Value.arguments_append, Value.arguments_cons_function, hfront, hback]
        rfl
    | _ =>
        rw [hout] at h
        cases h
  · rintro ⟨low, middle, high, harguments, hlow, hmiddle, hhigh⟩
    obtain ⟨first, second, third, hindices, hfirst, hsecond, hthird⟩ :=
      exists_argumentIndices harguments
    obtain ⟨minSize, hmin⟩ := bound_of_isLength hfirst hlow
    obtain ⟨maxSize, hmax⟩ := bound_of_isLength hthird hhigh
    obtain ⟨hread⟩ := hlow
    obtain ⟨hnumbers, hcount⟩ := hmiddle
    obtain ⟨numbers, hok⟩ := FluidCall.exists_arguments_iff.mpr ⟨hnumbers, hcount⟩
    -- the first argument is a word, so the call that is found is the second one
    simp [outcome, hindices, call?, hfirst, hsecond, hok, hmin, hmax, ClampOutcome.isRewrite]

end Clamp

theorem Node.any_isRewrite_ownOutcomes (settings : Settings) (name before : Text)
    (nodes : List Node) (after : Text) :
    (ownOutcomes settings name nodes).any ClampOutcome.isRewrite = true ↔
      (Node.function name before nodes after).IsFluidClamp := by
  constructor
  · intro h
    unfold ownOutcomes at h
    split at h
    · rename_i hname
      rw [List.any_cons, List.any_nil, Bool.or_false, Clamp.isRewrite_outcome_iff] at h
      obtain ⟨low, middle, high, harguments, hlow, hmiddle, hhigh⟩ := h
      rw [hname]
      exact .clamp harguments hlow hmiddle hhigh
    · cases h
  · rintro ⟨harguments, hlow, hmiddle, hhigh⟩
    rw [ownOutcomes, if_pos rfl, List.any_cons, List.any_nil, Bool.or_false,
      Clamp.isRewrite_outcome_iff]
    exact ⟨_, _, _, harguments, hlow, hmiddle, hhigh⟩

mutual

theorem Node.any_isRewrite_outcomes (settings : Settings) : (n : Node) →
    ((n.outcomes settings).any ClampOutcome.isRewrite = true ↔ ∃ m ∈ n.preorder, m.IsFluidClamp)
  | .word _ | .space _ | .divider .. | .quoted _ | .comment _ => by
      simp only [Node.outcomes, Node.preorder, List.any_nil, Bool.false_eq_true, false_iff]
      rintro ⟨m, hm, hclamp⟩
      rw [List.mem_singleton.mp hm] at hclamp
      cases hclamp
  | .function name before nodes after => by
      have hown := Node.any_isRewrite_ownOutcomes settings name before nodes after
      have hinside := Value.any_isRewrite_outcomes settings nodes
      rw [Node.outcomes_function, Node.preorder, List.exists_mem_cons_iff, ← hown, ← hinside,
        List.any_append, Bool.or_eq_true]
      -- inside of a rewritten function nothing is decided, and nothing more has to be found
      by_cases hrewrite : (Node.ownOutcomes settings name nodes).any ClampOutcome.isRewrite = true
      · simp only [hrewrite, true_or]
      · rw [if_neg hrewrite]

/-- In a value a call is replaced if and only if the pattern stands somewhere in it. -/
theorem Value.any_isRewrite_outcomes (settings : Settings) : (value : Value) →
    ((value.outcomes settings).any ClampOutcome.isRewrite = true ↔
      ∃ n ∈ value.preorder, n.IsFluidClamp)
  | [] => by simp [Value.outcomes, Value.preorder]
  | n :: rest => by
      have hn := Node.any_isRewrite_outcomes settings n
      have hrest := Value.any_isRewrite_outcomes settings rest
      rw [Value.outcomes, Value.preorder, List.any_append, Bool.or_eq_true, hn, hrest]
      simp only [List.mem_append, or_and_right, exists_or]

end

/-! The settings with or without diagnostics. -/

theorem Clamp.outcome_warnings (settings : Settings) (warnings : Bool) :
    Clamp.outcome { settings with warnings := warnings } = Clamp.outcome settings := by
  funext nodes
  have hrange : FluidCall.range { settings with warnings := warnings } =
      FluidCall.range settings := by
    funext numbers
    unfold FluidCall.range
    split <;> rfl
  unfold Clamp.outcome
  rw [hrange]

mutual

theorem Node.resolve_congr_preorder {settings settings' : Settings} : (n : Node) →
    (∀ before nodes after, .function clampName before nodes after ∈ n.preorder →
      Clamp.outcome settings nodes = Clamp.outcome settings' nodes) →
    n.resolve settings = n.resolve settings' ∧ n.outcomes settings = n.outcomes settings'
  | .word _, _ | .space _, _ | .divider .., _ | .quoted _, _ | .comment _, _ => by
      simp [Node.resolve, Node.outcomes]
  | .function name before nodes after, h => by
      rw [Node.preorder] at h
      obtain ⟨hresolve, houtcomes⟩ := Value.resolve_congr_preorder nodes
        fun before' nodes' after' hmem => h before' nodes' after' (List.mem_cons_of_mem _ hmem)
      by_cases hname : name = clampName
      · have hown := h before nodes after (by rw [hname]; exact List.mem_cons_self)
        constructor
        · rw [Node.resolve, Node.resolve, hown, hresolve]
        · rw [Node.outcomes_function, Node.outcomes_function, houtcomes, Node.ownOutcomes,
            Node.ownOutcomes, hown]
      · simp [Node.resolve, Node.outcomes, hname, hresolve, houtcomes]

/-- The settings count only as far as they decide about the `clamp` functions of a value. -/
theorem Value.resolve_congr_preorder {settings settings' : Settings} : (value : Value) →
    (∀ before nodes after, .function clampName before nodes after ∈ value.preorder →
      Clamp.outcome settings nodes = Clamp.outcome settings' nodes) →
    value.resolve settings = value.resolve settings' ∧
      value.outcomes settings = value.outcomes settings'
  | [], _ => by simp [Value.resolve, Value.outcomes]
  | n :: rest, h => by
      rw [Value.preorder] at h
      obtain ⟨hn, hnoutcomes⟩ := Node.resolve_congr_preorder n
        fun before nodes after hmem => h before nodes after (List.mem_append_left _ hmem)
      obtain ⟨hrest, hrestoutcomes⟩ := Value.resolve_congr_preorder rest
        fun before nodes after hmem => h before nodes after (List.mem_append_right _ hmem)
      rw [Value.resolve, Value.resolve, Value.outcomes, Value.outcomes, hn, hrest, hnoutcomes,
        hrestoutcomes]
      exact ⟨rfl, rfl⟩

end

theorem Value.resolve_congr {settings settings' : Settings}
    (h : Clamp.outcome settings = Clamp.outcome settings') (value : Value) :
    value.resolve settings = value.resolve settings' ∧
      value.outcomes settings = value.outcomes settings' :=
  Value.resolve_congr_preorder value fun _ nodes _ _ => congrFun h nodes

/-- A value is changed if and only if a `clamp` function of a fluid call between two fixed lengths stands
somewhere in it, so it is changed under all settings or under none; whether diagnostics are reported has
no part in the new text, and there are none unless they are asked for. -/
theorem resolve_pattern (settings : Settings) (text : Text) :
    ((resolve settings text).value.isSome = true ↔
      ∃ n ∈ (Value.ofText text).preorder, n.IsFluidClamp) ∧
    (∀ other, (resolve other text).value.isSome = (resolve settings text).value.isSome) ∧
    (∀ warnings, (resolve { settings with warnings := warnings } text).value =
      (resolve settings text).value) ∧
    (resolve { settings with warnings := false } text).diagnostics = [] := by
  have hchanged : ∀ settings, (resolve settings text).value.isSome = true ↔
      ∃ n ∈ (Value.ofText text).preorder, n.IsFluidClamp := by
    intro settings
    rw [resolve_value, ← Value.any_isRewrite_outcomes settings]
    split <;> simp_all
  refine ⟨hchanged settings, ?_, ?_, rfl⟩
  · intro other
    rw [Bool.eq_iff_iff, hchanged, hchanged]
  · intro warnings
    obtain ⟨hresolve, houtcomes⟩ :=
      Value.resolve_congr (Clamp.outcome_warnings settings warnings) (Value.ofText text)
    rw [resolve_value, resolve_value, hresolve, houtcomes]

end FluidSizing
