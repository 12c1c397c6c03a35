import FluidSizing.Proofs.Fluid.Report

/-! A resolved value, read again. The replacements in a value are listed as they are made
(`Value.replacements`), and `Value.resolveWith` says what becomes of the value when the children around
each of them are replaced in some way. The new text is read as the value in which every size is joined to
the children around it, so it is read as the value with a node for each size just if no fixed size stands
directly before a word (`resolve_reread`). -/

namespace FluidSizing

mutual

/-- The node with the children around every fluid call replaced in the way given. -/
def Node.resolveWith (put : Replacement → List Node) (settings : Settings) : Node → Node
  | .function name before nodes after =>
    if name = clampName then
      match Clamp.outcome settings nodes with
      | .rewritten place size _ => .function name before (put ⟨nodes, place, size⟩) after
      | _ => .function name before (Value.resolveWith put settings nodes) after
    else .function name before (Value.resolveWith put settings nodes) after
  | node => node

def Value.resolveWith (put : Replacement → List Node) (settings : Settings) : Value → Value
  | [] => []
  | node :: rest => Node.resolveWith put settings node :: Value.resolveWith put settings rest

end

mutual

def Node.replacements (settings : Settings) : Node → List Replacement
  | .function name _ nodes _ =>
    if name = clampName then
      match Clamp.outcome settings nodes with
      | .rewritten place size _ => [⟨nodes, place, size⟩]
      | _ => Value.replacements settings nodes
    else Value.replacements settings nodes
  | _ => []

def Value.replacements (settings : Settings) : Value → List Replacement
  | [] => []
  | node :: rest => Node.replacements settings node ++ Value.replacements settings rest

end

/-- A function is a `clamp` function whose call is replaced, or its children are resolved. -/
theorem Node.resolveWith_function (settings : Settings) (name before : Text) (nodes : List Node)
    (after : Text) :
    (∃ place size diagnostic, name = clampName ∧
      Clamp.outcome settings nodes = .rewritten place size diagnostic ∧
      (∀ put, Node.resolveWith put settings (.function name before nodes after) =
        .function name before (put ⟨nodes, place, size⟩) after) ∧
      Node.replacements settings (.function name before nodes after) = [⟨nodes, place, size⟩]) ∨
    ((∀ put, Node.resolveWith put settings (.function name before nodes after) =
        .function name before (Value.resolveWith put settings nodes) after) ∧
      Node.replacements settings (.function name before nodes after) =
        Value.replacements settings nodes) := by
  by_cases hname : name = clampName
  · cases hout : Clamp.outcome settings nodes with
    | rewritten place size diagnostic =>
        left
        refine ⟨place, size, diagnostic, hname, rfl, ?_, ?_⟩
        · simp [Node.resolveWith, hname, hout]
        · simp [Node.replacements, hname, hout]
    | _ =>
        right
        simp [Node.resolveWith, Node.replacements, hname, hout]
  · right
    simp [Node.resolveWith, Node.replacements, hname]

theorem Node.resolveWith_of_not_isFunction {n : Node} (hn : n.isFunction = false) (settings : Settings) :
    (∀ put, n.resolveWith put settings = n) ∧ n.replacements settings = [] := by
  cases n with
  | function => cases hn
  | _ => simp [Node.resolveWith, Node.replacements]

mutual

theorem Node.resolve_eq_resolveWith (settings : Settings) : (n : Node) → n.resolve settings =
    n.resolveWith (fun r => r.nodes.set r.place (.word r.size.render)) settings
  | .word _ | .space _ | .divider .. | .quoted _ | .comment _ => by
      simp [Node.resolve, Node.resolveWith]
  | .function name before nodes after => by
      have hinside := Value.resolve_eq_resolveWith settings nodes
      by_cases hname : name = clampName
      · cases hout : Clamp.outcome settings nodes <;>
          simp [Node.resolve, Node.resolveWith, hname, hout, hinside]
      · simp [Node.resolve, Node.resolveWith, hname, hinside]

/-- A value is resolved with every call replaced by a word of the text of the size. -/
theorem Value.resolve_eq_resolveWith (settings : Settings) : (value : Value) → value.resolve settings =
    value.resolveWith (fun r => r.nodes.set r.place (.word r.size.render)) settings
  | [] => by simp [Value.resolve, Value.resolveWith]
  | n :: rest => by
      rw [Value.resolve, Value.resolveWith, Node.resolve_eq_resolveWith settings n,
        Value.resolve_eq_resolveWith settings rest]

end

mutual

theorem Node.resolveWith_eq_iff (settings : Settings) (put put' : Replacement → List Node) : (n : Node) →
    (n.resolveWith put settings = n.resolveWith put' settings ↔
      ∀ r ∈ n.replacements settings, put r = put' r)
  | .word _ | .space _ | .divider .. | .quoted _ | .comment _ => by
      simp [Node.resolveWith, Node.replacements]
  | .function name before nodes after => by
      rcases Node.resolveWith_function settings name before nodes after with
        ⟨place, size, diagnostic, -, -, hput, hreplaced⟩ | ⟨hput, hreplaced⟩
      · simp [hput, hreplaced]
      · simp [hput, hreplaced, Value.resolveWith_eq_iff settings put put' nodes]

/-- Two ways to replace give the same just if they are the same for every replacement in the value. -/
theorem Value.resolveWith_eq_iff (settings : Settings) (put put' : Replacement → List Node) :
    (value : Value) → (value.resolveWith put settings = value.resolveWith put' settings ↔
      ∀ r ∈ value.replacements settings, put r = put' r)
  | [] => by simp [Value.resolveWith, Value.replacements]
  | n :: rest => by
      rw [Value.resolveWith, Value.resolveWith, Value.replacements, List.cons.injEq,
        List.forall_mem_append, Node.resolveWith_eq_iff settings put put' n,
        Value.resolveWith_eq_iff settings put put' rest]

end

mutual

theorem Node.outcome_of_mem_replacements (settings : Settings) : (n : Node) →
    ∀ r ∈ n.replacements settings,
      ∃ diagnostic, Clamp.outcome settings r.nodes = .rewritten r.place r.size diagnostic
  | .word _ | .space _ | .divider .. | .quoted _ | .comment _ => by simp [Node.replacements]
  | .function name before nodes after => by
      rcases Node.resolveWith_function settings name before nodes after with
        ⟨place, size, diagnostic, -, hout, -, hreplaced⟩ | ⟨-, hreplaced⟩
      · rw [hreplaced, List.forall_mem_singleton]
        exact ⟨diagnostic, hout⟩
      · rw [hreplaced]
        exact Value.outcome_of_mem_replacements settings nodes

/-- The replacements in a value are those of `clamp` functions that are rewritten. -/
theorem Value.outcome_of_mem_replacements (settings : Settings) : (value : Value) →
    ∀ r ∈ value.replacements settings,
      ∃ diagnostic, Clamp.outcome settings r.nodes = .rewritten r.place r.size diagnostic
  | [] => by simp [Value.replacements]
  | n :: rest => by
      rw [Value.replacements, List.forall_mem_append]
      exact ⟨Node.outcome_of_mem_replacements settings n, Value.outcome_of_mem_replacements settings rest⟩

end

namespace Replacement

open Value (arguments)

/-- The children around a call that is replaced: those before and behind it, with one argument each. -/
theorem exists_around {settings : Settings} {r : Replacement} {diagnostic : Option Diagnostic}
    (h : Clamp.outcome settings r.nodes = .rewritten r.place r.size diagnostic) :
    ∃ (front back : List Node) (call : Node) (low high : Text),
      r.nodes = front ++ call :: back ∧ r.place = front.length ∧ call.isDivider = false ∧
        arguments front = [.word low] ∧ arguments back = [.word high] ∧
        r.substituted = front ++ r.size.node :: back ∧
        r.joined = front ++ Value.prepend r.size.node back ∧
        (r.IsApart ↔ ∀ x word, r.size = .fixed x → back.head? ≠ some (.word word)) := by
  obtain ⟨nodes, place, size⟩ := r
  obtain ⟨front, back, inside, before, after, low, high, -, -, -, rfl, rfl, hfront, hback, -⟩ :=
    Clamp.outcome_eq_rewritten h
  refine ⟨front, back, _, low, high, rfl, rfl, rfl, hfront, hback, ?_, ?_, ?_⟩
  · simp [substituted]
  · simp [joined]
  · simp [IsApart, List.getElem?_append_right, List.head?_eq_getElem?]

variable {settings : Settings} {r : Replacement} {diagnostic : Option Diagnostic}

/-- Only a fixed size directly before a word is no node of its own. -/
theorem joined_eq_substituted_iff
    (h : Clamp.outcome settings r.nodes = .rewritten r.place r.size diagnostic) :
    r.joined = r.substituted ↔ r.IsApart := by
  obtain ⟨front, back, -, -, -, -, -, -, -, -, hsubstituted, hjoined, hapart⟩ := exists_around h
  rw [hsubstituted, hjoined, hapart, List.append_cancel_left_eq]
  cases hsize : r.size with
  | growing line => simp [FluidSize.node, Value.prepend]
  | fixed x =>
      cases back with
      | nil => simp
      | cons n rest =>
          cases n with
          | word text =>
              have hne : Value.prepend (FluidSize.fixed x).node (.word text :: rest) ≠
                  (FluidSize.fixed x).node :: .word text :: rest := by
                intro heq
                have hlength := congrArg List.length heq
                simp [FluidSize.node, Value.prepend] at hlength
              simp [hne]
          | _ => simp [FluidSize.node, Value.prepend]

theorem arguments_middle {n : Node} (hn : n.isDivider = false) (front back : List Node) :
    arguments (front ++ n :: back) = arguments front ++ n :: arguments back := by
  rw [Value.arguments_append]
  simp [arguments, hn]

/-- A rewritten `clamp` function keeps its first and third argument and has the size between them; a fixed
size directly before the third argument is the start of that argument instead. -/
theorem exists_arguments (h : Clamp.outcome settings r.nodes = .rewritten r.place r.size diagnostic) :
    ∃ low call high, arguments r.nodes = [.word low, call, .word high] ∧
      arguments r.substituted = [.word low, r.size.node, .word high] ∧
      (¬ r.IsApart → arguments r.joined = [.word low, .word (r.size.render ++ high)]) := by
  obtain ⟨front, back, call, low, high, hnodes, -, hcall, hfront, hback, hsubstituted, hjoined,
    hapart⟩ := exists_around h
  have hnode : r.size.node.isDivider = false := by cases r.size <;> rfl
  refine ⟨low, call, high, ?_, ?_, ?_⟩
  · rw [hnodes, arguments_middle hcall, hfront, hback]
    rfl
  · rw [hsubstituted, arguments_middle hnode, hfront, hback]
    rfl
  · intro hnot
    simp only [hapart, not_forall, not_not] at hnot
    obtain ⟨x, word, hsize, hhead⟩ := hnot
    obtain ⟨rest, rfl⟩ : ∃ rest, back = .word word :: rest := by
      cases back with
      | nil => cases hhead
      | cons n rest => exact ⟨rest, by rw [Option.some.inj hhead]⟩
    have hcons : ∀ text, arguments (.word text :: rest) = .word text :: arguments rest := fun _ => rfl
    rw [hcons] at hback
    obtain ⟨hword, hrest⟩ := List.cons.inj hback
    obtain rfl := Node.word.inj hword
    rw [hjoined, hsize, FluidSize.node, Value.prepend, Value.arguments_append, hfront, hcons, hrest]
    rfl

end Replacement

mutual

theorem Settled.eq_joined {settings : Settings} {n m : Node} (h : Settled settings n m) :
    m = n.resolveWith Replacement.joined settings := by
  cases h with
  | leaf hn => exact ((Node.resolveWith_of_not_isFunction hn settings).1 _).symm
  | @function name before after nodes nodes' own inside =>
      rcases Node.resolveWith_function settings name before nodes after with
        ⟨place, size, diagnostic, rfl, hout, -⟩ | ⟨hkept, -⟩
      · rw [Node.ownOutcomes, if_pos rfl, hout] at own
        cases own
      · rw [hkept, ← Settled.all_eq_joined inside]
  | clamp hout => simp [Node.resolveWith, hout]

/-- Settled nodes are the resolved ones with every size joined to the children around it. -/
theorem Settled.all_eq_joined {settings : Settings} {nodes nodes' : List Node}
    (h : List.Forall₂ (Settled settings) nodes nodes') :
    nodes' = Value.resolveWith Replacement.joined settings nodes := by
  cases h with
  | nil => simp [Value.resolveWith]
  | cons hn hrest => rw [Value.resolveWith, ← hn.eq_joined, ← Settled.all_eq_joined hrest]

end

open Value (ofText arguments)

/-- The new text of a value that leaves no call open, read again: it is read as the resolved value with
every call replaced by the node that the size is read as, just if no fixed size stands directly before a
word. Where one does, the two are one word, and the `clamp` function around them has two arguments. All
the others keep their three, of which the first and the third are what they were. -/
theorem resolve_reread (settings : Settings) {text new : Text} (hopen : Token.openCalls text = 0)
    (hnew : (resolve settings text).value = some new) :
    (ofText new = (ofText text).resolveWith Replacement.substituted settings ↔
      ∀ r ∈ (ofText text).replacements settings, r.IsApart) ∧
    ofText new = (ofText text).resolveWith Replacement.joined settings ∧
    new = ((ofText text).resolveWith (fun r => r.nodes.set r.place (.word r.size.render)) settings).render ∧
    ∀ r ∈ (ofText text).replacements settings,
      ofText r.size.render = [r.size.node] ∧
      ∃ low call high, arguments r.nodes = [.word low, call, .word high] ∧
        (r.IsApart → arguments r.joined = [.word low, r.size.node, .word high]) ∧
        (¬ r.IsApart → arguments r.joined = [.word low, .word (r.size.render ++ high)]) := by
  obtain ⟨cs, hstands, hchanged, hsettled⟩ := Component.exists_settled_ofText settings text
  have hresolved : new = ((ofText text).resolve settings).render := by
    rw [resolve_value] at hnew
    split at hnew
    · exact (Option.some.inj hnew).symm
    · cases hnew
  have hclosed : Token.openCalls (Component.sources cs) = 0 := by
    rw [← Component.openCalls_ofText] at hopen ⊢
    rw [Component.ofText_sources hstands]
    exact Component.openCalls_of_changed (Component.stands_ofText text) hstands hchanged hopen
  obtain rfl : new = Component.sources cs := by
    rw [hresolved, (Settled.resolved_all hsettled).render_eq, Value.render_ofText, hclosed]
    simp
  have hjoined := Settled.all_eq_joined hsettled
  refine ⟨?_, hjoined, by rw [hresolved, Value.resolve_eq_resolveWith], ?_⟩
  · rw [hjoined, Value.resolveWith_eq_iff]
    refine forall₂_congr fun r hr => ?_
    obtain ⟨diagnostic, hout⟩ := Value.outcome_of_mem_replacements settings _ r hr
    exact Replacement.joined_eq_substituted_iff hout
  · intro r hr
    obtain ⟨diagnostic, hout⟩ := Value.outcome_of_mem_replacements settings _ r hr
    obtain ⟨low, call, high, harguments, hsubstituted, hone⟩ := Replacement.exists_arguments hout
    refine ⟨Value.ofText_size r.size, low, call, high, harguments, fun hapart => ?_, hone⟩
    rw [(Replacement.joined_eq_substituted_iff hout).mpr hapart, hsubstituted]

/-- Behind a comma a fixed size is a word, and directly before a word the other kind is a function. -/
theorem resolve_reread_apart :
    let text := "clamp(1px,@fluid(5,5,16),2px) clamp(1px,@fluid()2px)".toList
    let new := "clamp(1px,16px,2px) clamp(1px,calc(0px + 0.13021vw)2px)".toList
    Token.openCalls text = 0 ∧ (resolve .default text).value = some new ∧
      ofText new = (ofText text).resolveWith Replacement.substituted .default := by
  intro text new
  have hopen : Token.openCalls text = 0 := by decide +kernel
  have hnew : (resolve .default text).value = some new := by decide +kernel
  have happlied : ∀ r ∈ (ofText text).replacements .default, r.IsApart := by decide +kernel
  exact ⟨hopen, hnew, (resolve_reread .default hopen hnew).1.mpr happlied⟩

/-- Directly before a word it is one word with it. -/
theorem resolve_reread_ne :
    let text := "clamp(1px,@fluid(5,5,16)2px)".toList
    let new := "clamp(1px,16px2px)".toList
    Token.openCalls text = 0 ∧ (resolve .default text).value = some new ∧
      ofText new ≠ (ofText text).resolveWith Replacement.substituted .default := by
  refine ⟨by decide +kernel, by decide +kernel, fun heq => ?_⟩
  have hcount := congrArg (fun value => (Value.preorder value).length) heq
  revert hcount
  decide +kernel

end FluidSizing
