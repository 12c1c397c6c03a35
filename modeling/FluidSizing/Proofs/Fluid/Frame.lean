import FluidSizing.Proofs.Fluid.Call
import FluidSizing.Proofs.Value.Lossless

/-! What resolving a value changes. The text of a value falls into parts: text that stays, and calls that
are replaced, each the second of three arguments of a `clamp` function and closed by a parenthesis of its
own (`ReplacedCall`). The new text has the same parts with a size for every call, and the parentheses
behind them that close what the text leaves open (`resolve_frame`). -/

namespace FluidSizing

/-- A part of a value: text that stays, or a call and the size that replaces it. -/
inductive Part where
  | kept (text : Text)
  | replaced (call : Text) (size : FluidSize)

namespace Part

def old : Part → Text
  | kept text => text
  | replaced call _ => call

def new : Part → Text
  | kept text => text
  | replaced _ size => size.render

def isReplaced : Part → Bool
  | kept _ => false
  | replaced .. => true

end Part

/-- A call stands in a value behind a text and is replaced by a size. -/
def ReplacedAt (settings : Settings) (value : Value) (front call : Text) (size : FluidSize) : Prop :=
  ∃ place before nodes after index diagnostic n,
    value.HasAt place (.function clampName before nodes after) ∧
    Clamp.outcome settings nodes = .rewritten index size diagnostic ∧ nodes[index]? = some n ∧
    front = place ++ clampName ++ '(' :: (before ++ Value.render (nodes.take index)) ∧
    call = n.render

/-- The parts of the written form of a value. -/
structure Decomposed (settings : Settings) (value : Value) (parts : List Part) : Prop where
  old_eq : parts.flatMap Part.old = value.render
  new_eq : parts.flatMap Part.new = (value.resolve settings).render
  any_eq : parts.any Part.isReplaced = (value.outcomes settings).any ClampOutcome.isRewrite
  located : ∀ front call size back, parts = front ++ .replaced call size :: back →
    ReplacedAt settings value (front.flatMap Part.old) call size

/-- An element of two lists in a row is one of the first or of the second. -/
theorem append_eq_append_cons {α : Type} {xs ys front back : List α} {x : α}
    (h : xs ++ ys = front ++ x :: back) :
    (∃ behind, xs = front ++ x :: behind) ∨ ∃ more, front = xs ++ more ∧ ys = more ++ x :: back := by
  rcases List.append_eq_append_iff.mp h with ⟨more, hfront, hys⟩ | ⟨more, hxs, hback⟩
  · exact Or.inr ⟨more, hfront, hys⟩
  · cases more with
    | nil => exact Or.inr ⟨[], by simpa using hxs.symm, by simpa using hback.symm⟩
    | cons y behind =>
        obtain ⟨rfl, -⟩ := List.cons.inj hback
        exact Or.inl ⟨behind, hxs⟩

namespace Decomposed

variable {settings : Settings}

theorem nil : Decomposed settings [] [] where
  old_eq := by simp
  new_eq := by simp [Value.resolve]
  any_eq := by simp [Value.outcomes]
  located := by simp

theorem cons {n : Node} {rest : List Node} {ps qs : List Part} (hn : Decomposed settings [n] ps)
    (hrest : Decomposed settings rest qs) : Decomposed settings (n :: rest) (ps ++ qs) where
  old_eq := by
    have hold := hn.old_eq
    simp only [Value.render_cons, Value.render_nil, List.append_nil] at hold
    rw [List.flatMap_append, hold, hrest.old_eq, Value.render_cons]
  new_eq := by
    have hnew := hn.new_eq
    simp only [Value.resolve, Value.render_cons, Value.render_nil, List.append_nil] at hnew
    rw [List.flatMap_append, hnew, hrest.new_eq, Value.resolve, Value.render_cons]
  any_eq := by
    have hany := hn.any_eq
    simp only [Value.outcomes, List.append_nil] at hany
    rw [List.any_append, hany, hrest.any_eq, Value.outcomes, List.any_append]
  located := by
    intro front call size back heq
    rcases append_eq_append_cons heq with ⟨behind, hps⟩ | ⟨more, rfl, hqs⟩
    · obtain ⟨place, before, nodes, after, index, diagnostic, m, hat, hrest⟩ :=
        hn.located front call size behind hps
      refine ⟨place, before, nodes, after, index, diagnostic, m, ?_, hrest⟩
      cases hat with
      | here => exact .here _ _
      | behind _ later => cases later
      | inside name before after _ deeper => exact .inside name before after rest deeper
    · obtain ⟨place, before, nodes, after, index, diagnostic, m, hat, hout, hget, hfront, hcall⟩ :=
        hrest.located more call size back hqs
      refine ⟨n.render ++ place, before, nodes, after, index, diagnostic, m, .behind n hat, hout, hget,
        ?_, hcall⟩
      have hold := hn.old_eq
      simp only [Value.render_cons, Value.render_nil, List.append_nil] at hold
      rw [List.flatMap_append, hold, hfront]
      simp

theorem leaf {n : Node} (hn : n.isFunction = false) : Decomposed settings [n] [.kept n.render] where
  old_eq := by simp [Part.old]
  new_eq := by simp [Part.new, Value.resolve, Node.resolve_of_not_isFunction hn]
  any_eq := by simp [Part.isReplaced, Value.outcomes, Node.outcomes_of_not_isFunction hn]
  located := by
    intro front call size back heq
    cases front with
    | nil => cases heq
    | cons part front =>
        have hnil := (List.cons.inj heq).2
        simp at hnil

/-- A function that is kept keeps the parts of its children. -/
theorem function {name before after : Text} {nodes : List Node} {ps : List Part}
    (h : Decomposed settings nodes ps)
    (hresolve : Node.resolve settings (.function name before nodes after) =
      .function name before (Value.resolve settings nodes) after)
    (houtcomes : (Node.outcomes settings (.function name before nodes after)).any
      ClampOutcome.isRewrite = (Value.outcomes settings nodes).any ClampOutcome.isRewrite) :
    Decomposed settings [.function name before nodes after]
      (.kept (name ++ '(' :: before) :: (ps ++ [.kept (after ++ [')'])])) where
  old_eq := by
    simp only [List.flatMap_cons, List.flatMap_append, h.old_eq]
    simp [Part.old, Node.render]
  new_eq := by
    simp only [List.flatMap_cons, List.flatMap_append, h.new_eq, Value.resolve, hresolve]
    simp [Part.new, Node.render]
  any_eq := by
    rw [Value.outcomes, Value.outcomes, List.append_nil, houtcomes, ← h.any_eq]
    simp [Part.isReplaced]
  located := by
    intro front call size back heq
    cases front with
    | nil => cases heq
    | cons part front =>
        obtain ⟨rfl, htail⟩ := List.cons.inj heq
        rcases append_eq_append_cons htail with ⟨behind, hps⟩ | ⟨more, rfl, hkept⟩
        · obtain ⟨place, before', nodes', after', index, diagnostic, m, hat, hout, hget, hfront,
            hcall⟩ := h.located front call size behind hps
          refine ⟨_, before', nodes', after', index, diagnostic, m, .inside name before after [] hat,
            hout, hget, ?_, hcall⟩
          rw [List.flatMap_cons, hfront]
          simp [Part.old]
        · cases more with
          | nil => cases hkept
          | cons part more =>
              have hnil := (List.cons.inj hkept).2
              simp at hnil

/-- A `clamp` function whose call is replaced is the call and the text around it. -/
theorem clamp {before after : Text} {nodes : List Node} {index : Nat} {size : FluidSize}
    {diagnostic : Option Diagnostic}
    (hout : Clamp.outcome settings nodes = .rewritten index size diagnostic)
    (hresolve : Node.resolve settings (.function clampName before nodes after) =
      .function clampName before (nodes.set index (.word size.render)) after)
    (houtcomes : Node.outcomes settings (.function clampName before nodes after) =
      [.rewritten index size diagnostic]) :
    ∃ ps, Decomposed settings [.function clampName before nodes after] ps := by
  obtain ⟨left, right, words, callBefore, callAfter, _, _, _, _, _, hnodes, hindex, -⟩ :=
    Clamp.outcome_eq_rewritten hout
  generalize hcall : Node.function fluidName callBefore words callAfter = call at hnodes
  have hget : nodes[index]? = some call := by simp [hnodes, hindex]
  have htake : nodes.take index = left := by rw [hnodes, hindex, List.take_left]
  have hset : nodes.set index (.word size.render) = left ++ .word size.render :: right := by
    simp [hnodes, hindex]
  refine ⟨[.kept (clampName ++ '(' :: (before ++ Value.render left)), .replaced call.render size,
    .kept (Value.render right ++ after ++ [')'])], ?_, ?_, ?_, ?_⟩
  · simp [Part.old, Node.render, hnodes]
  · simp [Part.new, Node.render, Value.resolve, hresolve, hset]
  · simp [Part.isReplaced, Value.outcomes, houtcomes, ClampOutcome.isRewrite]
  · intro front text size' back heq
    cases front with
    | nil => cases heq
    | cons first front =>
        cases front with
        | nil =>
            simp only [List.cons_append, List.nil_append, List.cons.injEq, Part.replaced.injEq] at heq
            obtain ⟨rfl, ⟨rfl, rfl⟩, -⟩ := heq
            refine ⟨[], before, nodes, after, index, diagnostic, call, .here _ _, hout, hget, ?_, rfl⟩
            simp [Part.old, htake]
        | cons second more =>
            simp only [List.cons_append, List.cons.injEq] at heq
            obtain ⟨-, -, hkept⟩ := heq
            cases more with
            | nil => cases hkept
            | cons _ more =>
                have hnil := (List.cons.inj hkept).2
                simp at hnil

end Decomposed

mutual

theorem Node.exists_decomposed (settings : Settings) :
    (n : Node) → ∃ ps, Decomposed settings [n] ps
  | .word text => ⟨_, .leaf rfl⟩
  | .space text => ⟨_, .leaf rfl⟩
  | .divider separator before after => ⟨_, .leaf rfl⟩
  | .quoted text => ⟨_, .leaf rfl⟩
  | .comment text => ⟨_, .leaf rfl⟩
  | .function name before nodes after => by
      rcases Node.resolve_function settings name before nodes after with
        ⟨index, size, diagnostic, rfl, hout, hresolve, houtcomes⟩ | ⟨hown, hresolve, houtcomes⟩
      · exact Decomposed.clamp hout hresolve houtcomes
      · obtain ⟨ps, hps⟩ := Value.exists_decomposed settings nodes
        refine ⟨_, hps.function hresolve ?_⟩
        rw [houtcomes, List.any_append, hown, Bool.false_or]

/-- Every value has parts. -/
theorem Value.exists_decomposed (settings : Settings) :
    (value : Value) → ∃ ps, Decomposed settings value ps
  | [] => ⟨[], .nil⟩
  | n :: rest => by
      obtain ⟨ps, hps⟩ := Node.exists_decomposed settings n
      obtain ⟨qs, hqs⟩ := Value.exists_decomposed settings rest
      exact ⟨ps ++ qs, hps.cons hqs⟩

end

open Component (Stands)

/-- A closed call stands alone if it stands anywhere. -/
theorem FluidCall.stands_components {enclosing : Option Bracket} {post : Text}
    {inside : List Component} (h : Stands enclosing post (components inside)) :
    Stands none [] (components inside) := by
  cases h with
  | token stands _ behind =>
      cases behind with
      | closed hopen hinside _ =>
          have hclose := Token.fenced_close .round post
          have hend := Token.fenced_close .round []
          have htext : ∀ post, Component.sources [.block (.bracket .round) inside true] ++ post =
              ('(' :: Component.sources inside) ++ Bracket.round.close :: post := by
            intro post
            simp [Component.source, Opening.text, Opening.brackets, Bracket.opener]
          refine .token ?_ rfl (.closed ?_ ?_ (.nil _ _))
          · rw [htext] at stands ⊢
            exact stands.fenced hclose hend (by simp)
          · exact hopen.fenced hclose hend (by simp)
          · rw [← List.nil_append (Bracket.close _ :: _)] at hinside
            exact hinside.fenced hclose hend (by simp)

theorem FluidCall.render_callOf {enclosing : Option Bracket} {post : Text}
    {inside : List Component} (h : Stands enclosing post (components inside)) :
    (Value.callOf fluidName (Value.pushAll [] inside)).render =
      Component.sources (components inside) := by
  cases h with
  | token _ _ behind =>
      cases behind with
      | closed _ hinside _ =>
          have hopen := hinside.openCalls_eq_zero (List.cons_ne_nil _ _)
          rw [Value.render_callOf, Value.render_pushAll hinside, hopen]
          simp [components, Component.source, Opening.text, Opening.brackets, Bracket.opener,
            Bracket.close]

/-- A call in the value of a text that is replaced: the `clamp` function around it with the text before
that function, the words of its two other arguments, which are fixed lengths, and the numbers that are
the words of the call. Read alone, the call is the keyword and a closed block in parentheses. -/
structure ReplacedCall (settings : Settings) (text : Text) where
  place : Text
  before : Text
  left : List Node
  callBefore : Text
  words : List Node
  callAfter : Text
  right : List Node
  after : Text
  low : Text
  high : Text
  lowLength : Length
  highLength : Length
  numbers : List Binary64
  inside : List Component
  hasAt : (Value.ofText text).HasAt place (.function clampName before
    (left ++ .function fluidName callBefore words callAfter :: right) after)
  arguments_left : Value.arguments left = [.word low]
  arguments_right : Value.arguments right = [.word high]
  read_low : Length.read low = .ok lowLength
  read_high : Length.read high = .ok highLength
  arguments_words : FluidCall.arguments (Value.words words) = .ok numbers
  ofText_call : Component.ofText (Node.function fluidName callBefore words callAfter).render =
    FluidCall.components inside

namespace ReplacedCall

variable {settings : Settings} {text : Text}

def front (call : ReplacedCall settings text) : Text :=
  call.place ++ clampName ++ '(' :: (call.before ++ Value.render call.left)

def source (call : ReplacedCall settings text) : Text :=
  (Node.function fluidName call.callBefore call.words call.callAfter).render

def size (call : ReplacedCall settings text) : FluidSize :=
  (FluidCall.size call.lowLength.pixels call.highLength.pixels
    (FluidCall.range settings call.numbers)).1

end ReplacedCall

theorem ReplacedAt.exists_replacedCall {settings : Settings} {text front call : Text}
    {size : FluidSize} (h : ReplacedAt settings (Value.ofText text) front call size) :
    ∃ c : ReplacedCall settings text, c.front = front ∧ c.source = call ∧ c.size = size := by
  obtain ⟨place, before, nodes, after, index, diagnostic, n, hat, hout, hget, rfl, rfl⟩ := h
  obtain ⟨name, post, body, hbody, hnode⟩ := hat.fromBlock_ofText rfl
  obtain ⟨site, rfl, -, hcall, -, -⟩ := exists_callSite hbody hnode.symm hout
  obtain ⟨left, right, words, callBefore, callAfter, low, high, lowLength, highLength, numbers, hnodes,
    rfl, hleft, hright, hlow, hhigh, hwords, hsize⟩ := Clamp.outcome_eq_rewritten hout
  have hn : n = .function fluidName callBefore words callAfter := by
    rw [hnodes] at hget
    simpa using hget.symm
  have hinside : n = Value.callOf fluidName (Value.pushAll [] site.inside) :=
    Option.some.inj (hget.symm.trans hcall)
  obtain ⟨-, hbehind⟩ := Component.stands_append.mp hbody
  obtain ⟨hstands, -⟩ := Component.stands_append.mp hbehind
  have hrender : n.render = Component.sources (FluidCall.components site.inside) := by
    rw [hinside, FluidCall.render_callOf hstands]
  refine ⟨⟨place, before, left, callBefore, words, callAfter, right, after, low, high, lowLength,
    highLength, numbers, site.inside, ?_, hleft, hright, hlow, hhigh, hwords, ?_⟩, ?_, ?_, ?_⟩
  · rw [← hnodes]
    exact hat
  · rw [← hn, hrender, Component.ofText_sources (FluidCall.stands_components hstands)]
  · simp [ReplacedCall.front, hnodes]
  · exact congrArg Node.render hn.symm
  · rw [ReplacedCall.size, hsize]

/-- Behind a replaced call stands something else than closing parentheses: the last argument. -/
theorem ReplacedAt.exists_ne_close {settings : Settings} {value : Value} {front call back : Text}
    {size : FluidSize} (h : ReplacedAt settings value front call size)
    (hrender : value.render = front ++ (call ++ back)) : ∃ c ∈ back, c ≠ ')' := by
  obtain ⟨place, before, nodes, after, index, diagnostic, n, hat, hout, hget, rfl, rfl⟩ := h
  obtain ⟨left, right, words, callBefore, callAfter, low, high, _, _, _, rfl, rfl, -, hright, -, hhigh,
    -, -⟩ := Clamp.outcome_eq_rewritten hout
  obtain ⟨behind, hbehind⟩ := hat.render_eq
  have hn : n = .function fluidName callBefore words callAfter := by simpa using hget.symm
  have hback : back = Value.render right ++ after ++ ')' :: behind := by
    rw [hrender, hn] at hbehind
    simpa [Node.render] using hbehind
  obtain ⟨c, more, rfl⟩ := List.exists_cons_of_ne_nil (Length.ne_nil_of_read hhigh)
  have hmem : Node.word (c :: more) ∈ right :=
    List.mem_of_mem_filter
      (hright ▸ List.mem_singleton_self _ : Node.word (c :: more) ∈ Value.arguments right)
  obtain ⟨older, newer, rfl⟩ := List.append_of_mem hmem
  refine ⟨c, ?_, ?_⟩
  · simp [hback, Node.render]
  · have hpart := Length.isPart_of_mem_of_read hhigh c List.mem_cons_self
    rintro rfl
    exact absurd hpart (by decide)

/-- The last replaced call among parts. -/
theorem Part.exists_last {ps : List Part} (h : ps.any Part.isReplaced = true) :
    ∃ front call size back, ps = front ++ .replaced call size :: back ∧
      back.any Part.isReplaced = false := by
  induction ps with
  | nil => cases h
  | cons part ps ih =>
      by_cases hrest : ps.any Part.isReplaced = true
      · obtain ⟨front, call, size, back, rfl, hback⟩ := ih hrest
        exact ⟨part :: front, call, size, back, rfl, hback⟩
      · cases part with
        | kept text =>
            rw [List.any_cons, Bool.eq_false_iff.mpr hrest] at h
            cases h
        | replaced call size => exact ⟨[], call, size, ps, rfl, Bool.eq_false_iff.mpr hrest⟩

theorem Part.flatMap_new_eq_old {ps : List Part} (h : ps.any Part.isReplaced = false) :
    ps.flatMap Part.new = ps.flatMap Part.old := by
  induction ps with
  | nil => rfl
  | cons part ps ih =>
      rw [List.any_cons, Bool.or_eq_false_iff] at h
      cases part with
      | kept text => rw [List.flatMap_cons, List.flatMap_cons, ih h.2]; rfl
      | replaced call size => cases h.1

/-- The text of a value falls into parts, of which the replaced ones are calls in `clamp` functions. The
value changes exactly if there is one; its new text has a size in the place of each of them, and closes
the functions that the text leaves open. -/
theorem resolve_frame (settings : Settings) (text : Text) :
    ∃ parts : List Part, parts.flatMap Part.old = text ∧
      (resolve settings text).value =
        (if parts.any Part.isReplaced then
          some (parts.flatMap Part.new ++ List.replicate (Token.openCalls text) ')')
        else none) ∧
      ∀ front call size back, parts = front ++ .replaced call size :: back →
        ∃ c : ReplacedCall settings text,
          c.front = front.flatMap Part.old ∧ c.source = call ∧ c.size = size := by
  obtain ⟨ps, hps⟩ := Value.exists_decomposed settings (Value.ofText text)
  have hvalue : (resolve settings text).value =
      if ps.any Part.isReplaced then some (ps.flatMap Part.new) else none := by
    rw [resolve, hps.any_eq, hps.new_eq]
  have hold : text ++ List.replicate (Token.openCalls text) ')' = ps.flatMap Part.old := by
    rw [hps.old_eq, Value.render_ofText]
  by_cases hany : ps.any Part.isReplaced = true
  · obtain ⟨front, call, size, back, rfl, hback⟩ := Part.exists_last hany
    -- the closing parentheses that are added stand behind the last call
    have hclose : ∃ c ∈ back.flatMap Part.old, c ≠ ')' := by
      apply (hps.located front call size back rfl).exists_ne_close
      rw [← hps.old_eq]
      simp [Part.old]
    obtain ⟨last, htext, hlast⟩ : ∃ last, text = front.flatMap Part.old ++ call ++ last ∧
        back.flatMap Part.old = last ++ List.replicate (Token.openCalls text) ')' := by
      have hsplit : text ++ List.replicate (Token.openCalls text) ')' =
          front.flatMap Part.old ++ call ++ back.flatMap Part.old := by
        rw [hold]
        simp [Part.old]
      rcases List.append_eq_append_iff.mp hsplit with ⟨more, -, hmore⟩ | ⟨last, htext, hlast⟩
      · obtain ⟨c, hc, hne⟩ := hclose
        have hmem : c ∈ List.replicate (Token.openCalls text) ')' := by
          rw [hmore]
          exact List.mem_append_right _ hc
        exact absurd (List.eq_of_mem_replicate hmem) hne
      · exact ⟨last, htext, hlast⟩
    refine ⟨front ++ [.replaced call size] ++ [.kept last], ?_, ?_, ?_⟩
    · simp [Part.old, htext]
    · rw [hvalue, if_pos hany, if_pos (by simp [Part.isReplaced])]
      simp [Part.new, Part.flatMap_new_eq_old hback, hlast]
    · intro front' call' size' back' heq
      rcases append_eq_append_cons heq with ⟨behind, hps'⟩ | ⟨more, -, hkept⟩
      · refine (hps.located front' call' size' (behind ++ back) ?_).exists_replacedCall
        rw [← List.cons_append, ← List.append_assoc, ← hps', List.append_assoc,
          List.singleton_append]
      · cases more with
        | nil => cases hkept
        | cons part more =>
            have hnil := (List.cons.inj hkept).2
            simp at hnil
  · refine ⟨[.kept text], by simp [Part.old], ?_, ?_⟩
    · rw [hvalue, if_neg hany]
      rfl
    · intro front call size back heq
      cases front with
      | nil => cases heq
      | cons part front =>
          have hnil := (List.cons.inj heq).2
          simp at hnil

end FluidSizing
