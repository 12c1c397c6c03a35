import FluidSizing.Processing
import FluidSizing.Proofs.Fluid.Report
import FluidSizing.Proofs.Sheet.LaidOut
import FluidSizing.Proofs.Text.Patched

/-! What is left alone. A node of a value is spelled in the text of the value, so a function that is read
stands in the text by its name and a parenthesis (`Value.infix_of_render_infix`); only parentheses are
added at the end of it. Every decision is about a `clamp` function with a call of `@fluid` in it, so
where a text lacks either of them nothing is changed and nothing reported (`process_untouched`). -/

namespace FluidSizing

namespace Value

theorem render_infix_of_mem {n : Node} {value : Value} (h : n ∈ value) :
    n.render <:+: value.render := by
  obtain ⟨front, back, rfl⟩ := List.append_of_mem h
  exact ⟨render front, render back, by simp⟩

end Value

theorem Node.render_nodes_infix (name before : Text) (nodes : List Node) (after : Text) :
    Value.render nodes <:+: (Node.function name before nodes after).render :=
  ⟨name ++ '(' :: before, after ++ [')'], by simp [Node.render]⟩

mutual

theorem Node.render_infix_of_mem_preorder {m : Node} :
    (n : Node) → m ∈ n.preorder → m.render <:+: n.render
  | .word _, h | .space _, h | .divider .., h | .quoted _, h | .comment _, h => by
      rw [Node.preorder] at h
      · rw [List.mem_singleton.mp h]
      all_goals exact nofun
  | .function name before nodes after, h => by
      rw [Node.preorder] at h
      rcases List.mem_cons.mp h with rfl | h
      · exact List.infix_rfl
      · exact (Value.render_infix_of_mem_preorder nodes h).trans
          (Node.render_nodes_infix name before nodes after)

/-- Every node of a value is spelled in it. -/
theorem Value.render_infix_of_mem_preorder {m : Node} :
    (value : Value) → m ∈ value.preorder → m.render <:+: value.render
  | [], h => by simp [Value.preorder] at h
  | n :: rest, h => by
      rw [Value.preorder] at h
      rw [Value.render_cons]
      rcases List.mem_append.mp h with h | h
      · exact (Node.render_infix_of_mem_preorder n h).trans (List.prefix_append _ _).isInfix
      · exact (Value.render_infix_of_mem_preorder rest h).trans (List.suffix_append _ _).isInfix

end

namespace Value

/-- A function that is spelled in the value of a text stands in the text. -/
theorem infix_of_render_infix {name before after : Text} {nodes : List Node} {text : Text}
    (hname : ')' ∉ name)
    (h : (Node.function name before nodes after).render <:+: (ofText text).render) :
    name ++ ['('] <:+: text := by
  have hhead : name ++ ['('] <:+: (ofText text).render :=
    List.IsInfix.trans ⟨[], before ++ render nodes ++ after ++ [')'], by simp [Node.render]⟩ h
  rw [render_ofText] at hhead
  have hclose : ')' ∉ name ++ ['('] := by simpa using hname
  exact Text.infix_of_infix_closers hclose (by simp) _ hhead

end Value

/-- Where a text lacks a call of `@fluid` or a `clamp` function nothing is decided but to leave it. -/
theorem Value.quiet_of_mem_outcomes {settings : Settings} {text : Text}
    (h : ¬ fluidName ++ ['('] <:+: text ∨ ¬ clampName ++ ['('] <:+: text) {outcome : ClampOutcome}
    (hmem : outcome ∈ (Value.ofText text).outcomes settings) :
    outcome.isRewrite = false ∧ outcome.diagnostic? = none := by
  obtain ⟨before, nodes, after, hclamp, rfl⟩ := Value.mem_outcomes _ hmem
  have hspelled := Value.render_infix_of_mem_preorder _ hclamp
  apply Clamp.outcome_of_no_call
  intro n hn
  cases n with
  | function name _ inside _ =>
      apply decide_eq_false
      rintro rfl
      rcases h with hfluid | hlacks
      · have hcall := (Value.render_infix_of_mem hn).trans
          ((Node.render_nodes_infix clampName before nodes after).trans hspelled)
        exact hfluid (Value.infix_of_render_infix (by decide) hcall)
      · exact hlacks (Value.infix_of_render_infix (by decide) hspelled)
  | _ => rfl

theorem resolve_untouched (settings : Settings) {text : Text}
    (h : ¬ fluidName ++ ['('] <:+: text ∨ ¬ clampName ++ ['('] <:+: text) :
    resolve settings text = .unchanged := by
  have hquiet : ∀ outcome ∈ (Value.ofText text).outcomes settings,
      outcome.isRewrite = false ∧ outcome.diagnostic? = none := fun _ hmem =>
    Value.quiet_of_mem_outcomes h hmem
  have hrewrite : ((Value.ofText text).outcomes settings).any ClampOutcome.isRewrite = false :=
    List.any_eq_false.mpr fun outcome hmem => by simp [(hquiet outcome hmem).1]
  have hdiagnostics :
      ((Value.ofText text).outcomes settings).filterMap ClampOutcome.diagnostic? = [] :=
    List.filterMap_eq_nil_iff.mpr fun outcome hmem => (hquiet outcome hmem).2
  simp [resolve, hrewrite, hdiagnostics, Resolution.unchanged]

theorem Stylesheet.value_infix {css : Text} {d : Declaration}
    (hd : d ∈ (Stylesheet.ofText css).declarations) : d.value <:+: css := by
  have hslice := (laidOut_declarations css).slice?_eq (List.nil_append css).symm rfl d hd
  obtain ⟨front, back, htext, -, -⟩ := Text.slice?_eq_some_iff.mp hslice
  exact ⟨front, back, htext.symm⟩

/-- A text without a call of `@fluid` or without a `clamp` function is left alone, as a sheet and as a
value: nothing is changed and nothing reported. -/
theorem process_untouched (settings : Settings) {text : Text}
    (h : ¬ "@fluid(".toList <:+: text ∨ ¬ "clamp(".toList <:+: text) :
    process settings text = ⟨text, []⟩ ∧ resolve settings text = .unchanged := by
  refine ⟨?_, resolve_untouched settings h⟩
  have hresolution : ∀ d ∈ (Stylesheet.ofText text).declarations,
      d.resolution settings = .unchanged := by
    intro d hd
    have hvalue := Stylesheet.value_infix hd
    exact resolve_untouched settings
      (h.imp (fun hlacks hcall => hlacks (hcall.trans hvalue))
        fun hlacks hclamp => hlacks (hclamp.trans hvalue))
  have hedits : (Stylesheet.ofText text).declarations.filterMap (Declaration.edit? settings) = [] := by
    refine List.filterMap_eq_nil_iff.mpr fun d hd => ?_
    rw [Declaration.edit?, hresolution d hd]
    rfl
  have hwarnings :
      (Stylesheet.ofText text).declarations.flatMap (Declaration.warnings settings) = [] := by
    refine List.flatMap_eq_nil_iff.mpr fun d hd => ?_
    rw [Declaration.warnings, hresolution d hd]
    rfl
  rw [process, hedits, hwarnings, Text.splice_nil]

/-- An escaped name and a `clamp` that a comment keeps from its parenthesis do not count. -/
theorem process_untouched_escaped :
    let css := "a\x7bx:cl\\61 mp(1px,@fluid(1,1),2px) clamp/**/(1px,@fluid(,2px)\x7d".toList
    ¬ "clamp(".toList <:+: css ∧ "@fluid(".toList <:+: css ∧
      process .reporting css = ⟨css, []⟩ ∧ resolve .reporting css = .unchanged := by
  intro css
  have hclamp : ¬ "clamp(".toList <:+: css := by decide
  exact ⟨hclamp, by decide, process_untouched .reporting (Or.inr hclamp)⟩

end FluidSizing
