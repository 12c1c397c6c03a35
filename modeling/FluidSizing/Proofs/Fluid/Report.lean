import FluidSizing.Proofs.Fluid.Settled
import FluidSizing.Value.Walk

/-! What is reported about a settled value. It is spelled like the resolved value, none of its calls is
replaced, and what is reported is what was reported before, without the calls of equal widths, which are
replaced all the same (`Settled.resolved`). To a `clamp` function around them settled nodes are alike, so
its own outcome is the one it had. -/

namespace FluidSizing

/-- Whether a diagnostic is about a call that is replaced. -/
def Diagnostic.isEqualWidths : Diagnostic → Bool
  | equalWidths .. => true
  | _ => false

def Value.diagnostics (settings : Settings) (value : Value) : List Diagnostic :=
  (value.outcomes settings).filterMap ClampOutcome.diagnostic?

namespace FluidCall

theorem isEqualWidths_of_size {minSize maxSize : Binary64} {range : FluidRange} {size : FluidSize}
    {diagnostic : Option Diagnostic} (h : FluidCall.size minSize maxSize range = (size, diagnostic))
    (d : Diagnostic) (hd : diagnostic = some d) : d.isEqualWidths = true := by
  unfold FluidCall.size at h
  split at h
  · obtain ⟨-, hnone⟩ := Prod.mk.inj h
    rw [hd] at hnone
    cases hnone
  · obtain ⟨-, hsome⟩ := Prod.mk.inj h
    rw [hd] at hsome
    rw [← Option.some.inj hsome]
    rfl

theorem isEqualWidths_of_arguments {words : List Text} {d : Diagnostic}
    (h : FluidCall.arguments words = .error d) : d.isEqualWidths = false := by
  unfold FluidCall.arguments at h
  split at h
  · cases h
    rfl
  · dsimp only at h
    split at h
    · cases h
    · cases h
      rfl

end FluidCall

namespace Clamp

variable {settings : Settings} {nodes : List Node}

theorem exists_words_of_rejected {faults : List (Text × NumberError)} {d : Diagnostic}
    (h : outcome settings nodes = .rejected faults d) :
    ∃ words, FluidCall.arguments words = .error d := by
  unfold outcome at h
  split at h
  · split at h
    · cases h
    · split at h
      · rename_i harguments
        obtain ⟨-, rfl⟩ := ClampOutcome.rejected.inj h
        exact ⟨_, harguments⟩
      · split at h <;> cases h
  · cases h

/-- Only about a call that is replaced is it reported that its widths are equal. -/
theorem isEqualWidths_eq_isRewrite {d : Diagnostic}
    (h : (outcome settings nodes).diagnostic? = some d) :
    d.isEqualWidths = (outcome settings nodes).isRewrite := by
  cases hout : outcome settings nodes with
  | rejected faults diagnostic =>
      rw [hout] at h
      obtain rfl := Option.some.inj h
      obtain ⟨words, hwords⟩ := exists_words_of_rejected hout
      exact FluidCall.isEqualWidths_of_arguments hwords
  | rewritten place size diagnostic =>
      rw [hout] at h
      obtain ⟨_, _, _, _, _, _, _, _, _, _, -, -, -, -, -, -, -, hsize⟩ := outcome_eq_rewritten hout
      exact FluidCall.isEqualWidths_of_size hsize d h
  | _ =>
      rw [hout] at h
      cases h

end Clamp

theorem Node.mem_ownOutcomes {settings : Settings} {name : Text} {nodes : List Node}
    {outcome : ClampOutcome} (h : outcome ∈ ownOutcomes settings name nodes) :
    name = clampName ∧ outcome = Clamp.outcome settings nodes := by
  unfold ownOutcomes at h
  split at h
  · exact ⟨‹_›, List.mem_singleton.mp h⟩
  · cases h

mutual

theorem Node.mem_outcomes {settings : Settings} {outcome : ClampOutcome} :
    (n : Node) → outcome ∈ n.outcomes settings → ∃ before nodes after,
      .function clampName before nodes after ∈ n.preorder ∧ outcome = Clamp.outcome settings nodes
  | .word _, h | .space _, h | .divider .., h | .quoted _, h | .comment _, h => by
      simp [Node.outcomes] at h
  | .function name before nodes after, h => by
      rw [Node.outcomes_function] at h
      rw [Node.preorder]
      rcases List.mem_append.mp h with h | h
      · obtain ⟨rfl, rfl⟩ := Node.mem_ownOutcomes h
        exact ⟨before, nodes, after, List.mem_cons_self, rfl⟩
      · split at h
        · cases h
        · obtain ⟨before', nodes', after', hmem, rfl⟩ := Value.mem_outcomes nodes h
          exact ⟨before', nodes', after', List.mem_cons_of_mem _ hmem, rfl⟩

/-- Every outcome of a value is that of a `clamp` function in it. -/
theorem Value.mem_outcomes {settings : Settings} {outcome : ClampOutcome} :
    (value : Value) → outcome ∈ value.outcomes settings → ∃ before nodes after,
      .function clampName before nodes after ∈ value.preorder ∧ outcome = Clamp.outcome settings nodes
  | [], h => by simp [Value.outcomes] at h
  | n :: rest, h => by
      rw [Value.outcomes] at h
      rw [Value.preorder]
      rcases List.mem_append.mp h with h | h
      · obtain ⟨before, nodes, after, hmem, rfl⟩ := Node.mem_outcomes n h
        exact ⟨before, nodes, after, List.mem_append_left _ hmem, rfl⟩
      · obtain ⟨before, nodes, after, hmem, rfl⟩ := Value.mem_outcomes rest h
        exact ⟨before, nodes, after, List.mem_append_right _ hmem, rfl⟩

end

/-- Where no call is replaced no widths are reported to be equal. -/
theorem ClampOutcome.filter_diagnostics {settings : Settings} {outcomes : List ClampOutcome}
    (houtcomes : ∀ outcome ∈ outcomes, ∃ nodes, outcome = Clamp.outcome settings nodes)
    (hnone : outcomes.any isRewrite = false) :
    (outcomes.filterMap diagnostic?).filter (fun d => !d.isEqualWidths) =
      outcomes.filterMap diagnostic? := by
  apply List.filter_eq_self.mpr
  intro d hd
  obtain ⟨outcome, hmem, hd⟩ := List.mem_filterMap.mp hd
  have hrewrite := List.any_eq_false.mp hnone outcome hmem
  obtain ⟨nodes, rfl⟩ := houtcomes outcome hmem
  simpa [Clamp.isEqualWidths_eq_isRewrite hd] using hrewrite

namespace Settled

variable {settings : Settings}

theorem word?_eq {n m : Node} (h : Settled settings n m) : n.word? = m.word? := by
  cases h <;> rfl

theorem words_eq {nodes nodes' : List Node} (h : List.Forall₂ (Settled settings) nodes nodes') :
    Value.words nodes = Value.words nodes' := by
  induction h with
  | nil => rfl
  | cons hn _ ih =>
      have hword := hn.word?_eq
      unfold Value.words at ih ⊢
      rw [List.filterMap_cons, List.filterMap_cons, hword, ih]

/-- Settled nodes are the same to a function around them. -/
theorem alike {n m : Node} (h : Settled settings n m) : n.Alike m := by
  have hlength : n.length? = m.length? := by
    rw [Node.length?, Node.length?, h.word?_eq]
  cases h with
  | leaf => exact .refl n
  | @function name before after nodes nodes' _ inside =>
      refine ⟨rfl, hlength, ?_⟩
      rw [Node.callArguments?, Node.callArguments?, words_eq inside]
  | clamp =>
      refine ⟨rfl, hlength, ?_⟩
      rw [Node.callArguments?, Node.callArguments?, if_neg (by decide), if_neg (by decide)]

end Settled

/-- A value whose calls have been replaced in another: it is spelled like the resolved value, nothing in
it is replaced, and what is not about a replaced call is reported again. -/
structure Resolved (settings : Settings) (value other : Value) : Prop where
  render_eq : (value.resolve settings).render = other.render
  unchanged : (other.outcomes settings).any ClampOutcome.isRewrite = false
  diagnostics_eq : other.diagnostics settings =
    (value.diagnostics settings).filter fun d => !d.isEqualWidths

namespace Resolved

variable {settings : Settings}

theorem nil : Resolved settings [] [] where
  render_eq := by simp [Value.resolve]
  unchanged := by simp [Value.outcomes]
  diagnostics_eq := by simp [Value.diagnostics, Value.outcomes]

theorem cons {n m : Node} {rest rest' : List Node} (hn : Resolved settings [n] [m])
    (hrest : Resolved settings rest rest') : Resolved settings (n :: rest) (m :: rest') where
  render_eq := by
    have hhead := hn.render_eq
    simp only [Value.resolve, Value.render_cons, Value.render_nil, List.append_nil] at hhead
    rw [Value.resolve, Value.render_cons, Value.render_cons, hhead, hrest.render_eq]
  unchanged := by
    have hhead := hn.unchanged
    simp only [Value.outcomes, List.append_nil] at hhead
    rw [Value.outcomes, List.any_append, hhead, hrest.unchanged, Bool.or_false]
  diagnostics_eq := by
    have hhead := hn.diagnostics_eq
    have htail := hrest.diagnostics_eq
    simp only [Value.diagnostics, Value.outcomes, List.append_nil, List.filterMap_append,
      List.filter_append] at hhead htail ⊢
    rw [hhead, htail]

theorem leaf {n : Node} (hn : n.isFunction = false) : Resolved settings [n] [n] where
  render_eq := by simp [Value.resolve, Node.resolve_of_not_isFunction hn]
  unchanged := by simp [Value.outcomes, Node.outcomes_of_not_isFunction hn]
  diagnostics_eq := by
    simp [Value.diagnostics, Value.outcomes, Node.outcomes_of_not_isFunction hn]

/-- A function that is kept reports what it did, and what is reported about its children follows. -/
theorem function {name before after : Text} {nodes nodes' : List Node}
    (own : (Node.ownOutcomes settings name nodes).any ClampOutcome.isRewrite = false)
    (halike : List.Forall₂ Node.Alike nodes nodes') (hinside : Resolved settings nodes nodes') :
    Resolved settings [.function name before nodes after] [.function name before nodes' after] := by
  have hreport := Node.report_ownOutcomes_congr settings name halike
  have own' := own
  rw [ClampOutcome.any_isRewrite_congr hreport] at own'
  obtain ⟨hresolve, houtcomes⟩ := Node.resolve_kept own before after
  obtain ⟨-, houtcomes'⟩ := Node.resolve_kept own' before after
  have hown := ClampOutcome.filter_diagnostics
    (fun outcome hmem => ⟨nodes, (Node.mem_ownOutcomes hmem).2⟩) own
  refine ⟨?_, ?_, ?_⟩
  · simp [Value.resolve, hresolve, Node.render, hinside.render_eq]
  · rw [Value.outcomes, houtcomes', Value.outcomes, List.append_nil, List.any_append, own',
      hinside.unchanged, Bool.or_false]
  · have hdiagnostics := hinside.diagnostics_eq
    simp only [Value.diagnostics, Value.outcomes, houtcomes, houtcomes', List.append_nil,
      List.filterMap_append, List.filter_append] at hdiagnostics ⊢
    rw [hdiagnostics, ← ClampOutcome.filterMap_diagnostic?_congr hreport, hown]

theorem clamp {before after : Text} {nodes : List Node} {place : Nat} {size : FluidSize}
    {diagnostic : Option Diagnostic}
    (hout : Clamp.outcome settings nodes = .rewritten place size diagnostic)
    (hquiet : (Node.function clampName before (Replacement.joined ⟨nodes, place, size⟩) after).Quiet
      settings) :
    Resolved settings [.function clampName before nodes after]
      [.function clampName before (Replacement.joined ⟨nodes, place, size⟩) after] := by
  have hresolve : Node.resolve settings (.function clampName before nodes after) =
      .function clampName before (nodes.set place (.word size.render)) after := by
    simp [Node.resolve, hout]
  have houtcomes : Node.outcomes settings (.function clampName before nodes after) =
      [.rewritten place size diagnostic] := by
    simp [Node.outcomes, hout, ClampOutcome.isRewrite]
  have hrender := Value.render_joined (r := ⟨nodes, place, size⟩) (Clamp.place_lt_of_outcome hout)
  generalize hn : Node.function clampName before (Replacement.joined ⟨nodes, place, size⟩) after = n
    at hquiet
  have hnone : (n.outcomes settings).filterMap ClampOutcome.diagnostic? = [] :=
    List.filterMap_eq_nil_iff.mpr fun outcome hmem => congrArg Prod.snd (hquiet outcome hmem)
  refine ⟨?_, ?_, ?_⟩
  · simp only [Value.resolve, hresolve, Value.render_cons, ← hn, Node.render, hrender]
  · rw [Value.outcomes, Value.outcomes, List.append_nil, List.any_eq_false]
    intro outcome hmem hrewrite
    have hfalse := congrArg Prod.fst (hquiet outcome hmem)
    rw [ClampOutcome.report, hrewrite] at hfalse
    cases hfalse
  · simp only [Value.diagnostics, Value.outcomes, List.append_nil, houtcomes, hnone]
    cases hd : diagnostic with
    | none => rfl
    | some d =>
        have hequal := Clamp.isEqualWidths_eq_isRewrite (d := d) (by rw [hout, hd]; rfl)
        rw [hout] at hequal
        simp [ClampOutcome.diagnostic?, hequal, ClampOutcome.isRewrite]

end Resolved

mutual

theorem Settled.resolved {settings : Settings} {n m : Node} (h : Settled settings n m) :
    Resolved settings [n] [m] := by
  cases h with
  | leaf hn => exact .leaf hn
  | function own inside =>
      exact .function own (inside.imp fun _ _ => Settled.alike) (Settled.resolved_all inside)
  | clamp hout hquiet => exact .clamp hout hquiet

/-- Settled nodes are those of a value whose calls have been replaced in another. -/
theorem Settled.resolved_all {settings : Settings} {nodes nodes' : List Node}
    (h : List.Forall₂ (Settled settings) nodes nodes') : Resolved settings nodes nodes' := by
  cases h with
  | nil => exact .nil
  | cons hn hrest => exact hn.resolved.cons (Settled.resolved_all hrest)

end

end FluidSizing
