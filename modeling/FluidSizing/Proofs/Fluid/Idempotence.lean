import FluidSizing.Proofs.Fluid.Report
import FluidSizing.Proofs.Value.Closers

/-! Resolving a resolved value. The new text of a value is the written form of a value whose calls have
been replaced (`Resolved`), and reading a written form changes at most the last node of each list, by
closing parentheses at the end of a string, a comment or garbled text. A `clamp` function sees nothing of
that (`Extended.alike`), so nothing more is replaced and everything that was not replaced is reported
again (`resolve_idempotent`). In terms of component values the new text is that of changed ones with
closing parentheses for the calls they leave open (`resolve_rewritten`). -/

namespace FluidSizing

/-- A call with garbled text among its words is rejected. -/
theorem FluidCall.arguments_of_garbled {words : List Text} {text : Text} (htext : text.Garbled)
    (hmem : text ∈ words) : FluidCall.arguments words = .error .invalidArguments := by
  have hfaults : (faults words).isEmpty = false := by
    rw [Bool.eq_false_iff, ne_eq, List.isEmpty_iff]
    intro hnil
    have hnone := List.filterMap_eq_nil_iff.mp hnil text hmem
    split at hnone
    · rename_i number hread
      exact Text.Garbled.number_read htext number hread
    · cases hnone
  rw [FluidCall.arguments, hfaults]
  rfl

namespace Node.Extended

variable {n m : Node}

/-- The arguments of a call do not depend on how its last child is extended. -/
theorem arguments_eq (h : n.Extended m) (front : List Node) :
    FluidCall.arguments (Value.words (front ++ [n])) =
      FluidCall.arguments (Value.words (front ++ [m])) := by
  cases h with
  | word htext htext' =>
      rw [FluidCall.arguments_of_garbled htext (by simp [Value.words, Node.word?]),
        FluidCall.arguments_of_garbled htext' (by simp [Value.words, Node.word?])]
  | _ =>
      unfold Value.words
      rw [List.filterMap_append, List.filterMap_append]
      rfl

theorem length?_of_garbled {text : Text} (h : text.Garbled) : (Node.word text).length? = none := by
  show (Length.read text).toOption = none
  cases hread : Length.read text with
  | ok length => exact absurd hread (h.length_read length)
  | error => rfl

/-- To a `clamp` function around it a node is the same when it is extended. -/
theorem alike (h : n.Extended m) : n.Alike m := by
  cases h with
  | quoted => exact ⟨rfl, rfl, rfl⟩
  | comment => exact ⟨rfl, rfl, rfl⟩
  | word htext htext' =>
      exact ⟨rfl, by rw [length?_of_garbled htext, length?_of_garbled htext'], rfl⟩
  | function name before front last =>
      refine ⟨rfl, rfl, ?_⟩
      rw [callArguments?, callArguments?, last.arguments_eq front]

theorem alike_append (h : n.Extended m) (front : List Node) :
    List.Forall₂ Node.Alike (front ++ [n]) (front ++ [m]) := by
  induction front with
  | nil => exact .cons h.alike .nil
  | cons k front ih => exact .cons (.refl k) ih

/-- What is reported about a node stays when it is extended. -/
theorem report_outcomes (settings : Settings) (h : n.Extended m) :
    (n.outcomes settings).map ClampOutcome.report =
      (m.outcomes settings).map ClampOutcome.report := by
  induction h with
  | function name before front last ih =>
      have hown := Node.report_ownOutcomes_congr settings name (last.alike_append front)
      rw [Node.outcomes_function, Node.outcomes_function, ClampOutcome.any_isRewrite_congr hown,
        List.map_append, List.map_append, hown]
      split
      · rfl
      · simp [Value.outcomes_append, Value.outcomes, ih]
  | _ => simp [Node.outcomes]

end Node.Extended

namespace Value

theorem Reprinted.report_outcomes (settings : Settings) {nodes nodes' : List Node}
    (h : Reprinted nodes nodes') :
    (outcomes settings nodes.reverse).map ClampOutcome.report =
      (outcomes settings nodes'.reverse).map ClampOutcome.report := by
  cases h with
  | refl => rfl
  | last hlast rest => simp [outcomes_append, outcomes, hlast.report_outcomes settings]

/-- What is reported about a value is reported about its written form. -/
theorem report_outcomes_render (settings : Settings) (text : Text) :
    ((ofText (ofText text).render).outcomes settings).map ClampOutcome.report =
      ((ofText text).outcomes settings).map ClampOutcome.report := by
  have hreport := (reprinted_ofText text).report_outcomes settings
  rw [List.reverse_reverse, List.reverse_reverse] at hreport
  exact hreport.symm

end Value

/-- Resolving a resolved value replaces nothing and reports again what was reported before, in the same
order, but for the calls of equal widths, which have been replaced. -/
theorem resolve_idempotent (settings : Settings) (text : Text) :
    (resolve settings ((resolve settings text).valueOr text)).value = none ∧
      (resolve settings ((resolve settings text).valueOr text)).diagnostics =
        (resolve settings text).diagnostics.filter fun d => !d.isEqualWidths := by
  cases hany : ((Value.ofText text).outcomes settings).any ClampOutcome.isRewrite with
  | false =>
      have hnone : (resolve settings text).value = none := by
        simp [resolve, hany]
      have hout : (resolve settings text).valueOr text = text := by
        rw [Resolution.valueOr, hnone]
        rfl
      have houtcomes : ∀ outcome ∈ (Value.ofText text).outcomes settings,
          ∃ nodes, outcome = Clamp.outcome settings nodes := by
        intro outcome hmem
        obtain ⟨_, nodes, _, -, houtcome⟩ := Value.mem_outcomes _ hmem
        exact ⟨nodes, houtcome⟩
      have hsame := ClampOutcome.filter_diagnostics houtcomes hany
      refine ⟨by rw [hout, hnone], ?_⟩
      rw [hout]
      simp only [resolve]
      split
      · exact hsame.symm
      · rfl
  | true =>
      obtain ⟨other, hsettled⟩ := Value.exists_settled_ofText settings text
      obtain ⟨hrender, hunchanged, hdiagnostics⟩ := Settled.resolved_all hsettled
      have hout : (resolve settings text).valueOr text = (Value.ofText other).render := by
        rw [← hrender]
        simp [Resolution.valueOr, resolve, hany]
      have hreport := Value.report_outcomes_render settings other
      have hnone := ClampOutcome.any_isRewrite_congr hreport
      rw [hunchanged] at hnone
      have hagain := ClampOutcome.filterMap_diagnostic?_congr hreport
      rw [hout]
      refine ⟨by simp [resolve, hnone], ?_⟩
      simp only [resolve]
      split
      · exact hagain.trans hdiagnostics
      · rfl

open Component (Stands Changed sources)

/-- A value with a new text: its component values, changed inside their calls, and the parentheses that
close what these leave open. There is nothing more to replace in it. -/
theorem resolve_rewritten (settings : Settings) (text : Text)
    (h : (resolve settings text).value ≠ none) :
    ∃ cs : List Component, Stands none [] cs ∧ List.Forall₂ Changed (Component.ofText text) cs ∧
      (resolve settings text).value =
        some (sources cs ++ List.replicate (Component.openCalls cs) ')') ∧
      (resolve settings (sources cs ++ List.replicate (Component.openCalls cs) ')')).value = none := by
  obtain ⟨cs, hstands, hchanged, hsettled⟩ := Component.exists_settled_ofText settings text
  obtain ⟨hrender, hunchanged, -⟩ := Settled.resolved_all hsettled
  have hwritten : (Value.ofText (sources cs)).render =
      sources cs ++ List.replicate (Component.openCalls cs) ')' := by
    rw [Value.render_ofText, ← Component.openCalls_ofText, Component.ofText_sources hstands]
  have hany : ((Value.ofText text).outcomes settings).any ClampOutcome.isRewrite = true := by
    by_contra hany
    exact h (by simp [resolve, hany])
  have hnone :=
    ClampOutcome.any_isRewrite_congr (Value.report_outcomes_render settings (sources cs))
  rw [hunchanged, hwritten] at hnone
  refine ⟨cs, hstands, hchanged, ?_, by simp [resolve, hnone]⟩
  rw [← hwritten, ← hrender]
  simp [resolve, hany]

/-- What a value resolves to resolves to itself. -/
theorem resolve_valueOr_value (settings : Settings) (text : Text) :
    (resolve settings ((resolve settings text).valueOr text)).value = none := by
  cases hvalue : (resolve settings text).value with
  | none =>
      rw [Resolution.valueOr, hvalue]
      exact hvalue
  | some new =>
      obtain ⟨cs, -, -, hnew, hagain⟩ := resolve_rewritten settings text (by rw [hvalue]; simp)
      rw [Resolution.valueOr, hnew]
      exact hagain

/-- What a value resolves to: itself, or the text of its changed component values with closing
parentheses behind it. -/
theorem resolve_valueOr_cases (settings : Settings) (text : Text) :
    (resolve settings text).valueOr text = text ∨
      ∃ cs : List Component, Stands none [] cs ∧ List.Forall₂ Changed (Component.ofText text) cs ∧
        (resolve settings text).valueOr text =
          sources cs ++ List.replicate (Component.openCalls cs) ')' := by
  by_cases hvalue : (resolve settings text).value = none
  · left
    rw [Resolution.valueOr, hvalue]
    rfl
  · right
    obtain ⟨cs, hstands, hchanged, hnew, -⟩ := resolve_rewritten settings text hvalue
    refine ⟨cs, hstands, hchanged, ?_⟩
    rw [Resolution.valueOr, hnew]
    rfl

end FluidSizing
