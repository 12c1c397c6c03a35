import FluidSizing.Proofs.Component.Reading
import FluidSizing.Proofs.Fluid.ReplacedCall
import FluidSizing.Proofs.Text.Patched
import FluidSizing.Proofs.Value.Segment

/-! Values whose calls have been replaced, as they are read again. A node settles to one with the same
shape around the replaced calls; a `clamp` function whose call is replaced settles to the same function
with the size joined to the other children, which reports nothing (`Settled`). The component values of a
text can be changed call by call (`Component.Changed`) so that they still stand, and their nodes are
settled (`exists_settled`): before a call stands a separator, behind it plain text, so no other token
changes and the text around the calls stays. -/

namespace FluidSizing

namespace Component

/-- A component value, and the same one or a call or group with some places inside of it replaced. -/
inductive Changed : Component → Component → Prop where
  | refl (c : Component) : Changed c c
  | block {opening : Opening} {body body' : List Component} (closed : Bool)
      (round : opening.brackets = .round) (inside : Text.Patched (sources body) (sources body')) :
      Changed (block opening body closed) (block opening body' closed)

variable {c c' : Component} {cs cs' : List Component}

theorem Changed.patched (h : Changed c c') : Text.Patched (source c) (source c') := by
  cases h with
  | refl => exact .refl _
  | block closed _ inside =>
      rw [source, source]
      exact (inside.append_left _).append (.refl _)

theorem patched_of_changed (h : List.Forall₂ Changed cs cs') :
    Text.Patched (sources cs) (sources cs') := by
  induction h with
  | nil => exact .refl _
  | cons hc _ ih =>
      rw [sources_cons, sources_cons]
      exact hc.patched.append ih

theorem Changed.isOpenCall_eq (h : Changed c c') : c'.isOpenCall = c.isOpenCall := by
  cases h <;> rfl

/-- A token stays, and so does a block that is no call or group. -/
theorem Changed.eq_of_isGroup (h : Changed c c') (hgroup : Value.isGroup c = false) : c' = c := by
  cases h with
  | refl => rfl
  | block closed round _ =>
      rw [Value.isGroup, decide_eq_false_iff_not] at hgroup
      exact absurd round hgroup

/-- Changed component values leave no call open if those before did not. -/
theorem openCalls_of_changed (hcs : Stands none [] cs) (hcs' : Stands none [] cs')
    (h : List.Forall₂ Changed cs cs') (hopen : openCalls cs = 0) : openCalls cs' = 0 := by
  rw [hcs.openCalls_eq_zero_iff] at hopen
  rw [hcs'.openCalls_eq_zero_iff]
  clear hcs hcs'
  induction h with
  | nil => simp
  | cons hc _ ih =>
      obtain ⟨hclosed, hopen⟩ := List.forall_mem_cons.mp hopen
      exact List.forall_mem_cons.mpr ⟨by rw [hc.isOpenCall_eq, hclosed], ih hopen⟩

end Component

open Component (Stands Fits Changed)
open Token (Near)

/-- A node, and one that is read where the calls of the first are replaced. -/
inductive Settled (settings : Settings) : Node → Node → Prop where
  | leaf {n : Node} (hn : n.isFunction = false) : Settled settings n n
  | function {name before after : Text} {nodes nodes' : List Node}
      (own : (Node.ownOutcomes settings name nodes).any ClampOutcome.isRewrite = false)
      (inside : List.Forall₂ (Settled settings) nodes nodes') :
      Settled settings (.function name before nodes after) (.function name before nodes' after)
  | clamp {before after : Text} {nodes : List Node} {place : Nat} {size : FluidSize}
      {diagnostic : Option Diagnostic}
      (rewritten : Clamp.outcome settings nodes = .rewritten place size diagnostic)
      (quiet : (Node.function clampName before (Replacement.joined ⟨nodes, place, size⟩) after).Quiet
        settings) :
      Settled settings (.function clampName before nodes after)
        (.function clampName before (Replacement.joined ⟨nodes, place, size⟩) after)

namespace CallSite

/-- The text around a replaced call stays: before it ends a separator or white space. -/
theorem Valid.patched {site : CallSite} (hsite : site.Valid) {size : FluidSize}
    {behind : List Component}
    (hbehind : Component.sources behind = size.render ++ Component.sources site.trail)
    (htrail : Component.sources site.trail ≠ []) :
    Text.Patched (Component.sources site.components) (Component.sources (site.front ++ behind)) := by
  obtain ⟨separator, hkind, htext⟩ := hsite.separator
  have hblank := isBlank_of_mem_sources hsite.spaces
  obtain ⟨front, last, hfront, hlast⟩ : ∃ front last, Component.sources site.front = front ++ [last] ∧
      (Token.isBlank last = true ∨ Token.isFence last = true) := by
    rcases List.eq_nil_or_concat (Component.sources site.spaces) with hnil | ⟨spaces, last, hspaces⟩
    · exact ⟨Component.sources site.lead, separator, by simp [front, Component.source, htext, hnil],
        Or.inr (Token.isFence_of_separator? hkind)⟩
    · rw [List.concat_eq_append] at hspaces
      exact ⟨Component.sources site.lead ++ separator :: spaces, last,
        by simp [front, Component.source, htext, hspaces],
        Or.inl (hblank last (by rw [hspaces]; simp))⟩
  have hpatch : Text.Patched
      (front ++ last :: (Component.sources (FluidCall.components site.inside) ++
        Component.sources site.trail))
      (front ++ last :: (size.render ++ Component.sources site.trail)) :=
    .patch front hlast size.not_mem_render htrail (.refl _)
  simpa [components, hfront, hbehind] using hpatch

end CallSite

/-- Behind a call that is replaced stands a bound. -/
theorem Clamp.render_behind_ne_nil {settings : Settings} {nodes : List Node} {place : Nat}
    {size : FluidSize} {diagnostic : Option Diagnostic}
    (h : Clamp.outcome settings nodes = .rewritten place size diagnostic) :
    Value.render (nodes.drop (place + 1)) ≠ [] := by
  obtain ⟨front, back, inside, before, after, low, high, lowLength, highLength, numbers, rfl, rfl, -,
    hback, -, hhigh, -, -⟩ := Clamp.outcome_eq_rewritten h
  rw [← List.drop_drop, List.drop_left]
  exact Value.render_ne_nil (Length.ne_nil_of_read hhigh) hback

namespace Value

variable {settings : Settings} {nodes nodes' : List Node}

/-- What is read of two settled lists of nodes, the last one first: nothing, one node that is no
function, or two functions. -/
theorem settled_cases (h : List.Forall₂ (Settled settings) nodes nodes') :
    (nodes = [] ∧ nodes' = []) ∨
      (∃ n rest rest', n.isFunction = false ∧ nodes = n :: rest ∧ nodes' = n :: rest' ∧
        List.Forall₂ (Settled settings) rest rest') ∨
      ∃ name before inside after rest name' before' inside' after' rest',
        nodes = .function name before inside after :: rest ∧
          nodes' = .function name' before' inside' after' :: rest' := by
  cases h with
  | nil => exact Or.inl ⟨rfl, rfl⟩
  | @cons n _ rest rest' hn hrest =>
      cases hn with
      | leaf hn => exact Or.inr (Or.inl ⟨n, rest, rest', hn, rfl, rfl, hrest⟩)
      | function => exact Or.inr (Or.inr ⟨_, _, _, _, _, _, _, _, _, _, rfl, rfl⟩)
      | clamp => exact Or.inr (Or.inr ⟨_, _, _, _, _, _, _, _, _, _, rfl, rfl⟩)

theorem settled_pushSpace (h : List.Forall₂ (Settled settings) nodes nodes') (text : Text) :
    List.Forall₂ (Settled settings) (pushSpace nodes text) (pushSpace nodes' text) := by
  rcases settled_cases h with ⟨rfl, rfl⟩ | ⟨n, rest, rest', hn, rfl, rfl, hrest⟩ |
    ⟨_, _, _, _, _, _, _, _, _, _, rfl, rfl⟩
  · exact .cons (.leaf rfl) .nil
  · cases n with
    | divider separator before after =>
        cases after with
        | nil => exact .cons (.leaf rfl) hrest
        | cons c after => exact .cons (.leaf rfl) h
    | function => cases hn
    | _ => exact .cons (.leaf rfl) h
  · exact .cons (.leaf rfl) h

theorem settled_pushDivider (h : List.Forall₂ (Settled settings) nodes nodes') (separator : Char) :
    List.Forall₂ (Settled settings) (pushDivider nodes separator) (pushDivider nodes' separator) := by
  rcases settled_cases h with ⟨rfl, rfl⟩ | ⟨n, rest, rest', hn, rfl, rfl, hrest⟩ |
    ⟨_, _, _, _, _, _, _, _, _, _, rfl, rfl⟩
  · exact .cons (.leaf rfl) .nil
  · cases n with
    | space before => exact .cons (.leaf rfl) hrest
    | function => cases hn
    | _ => exact .cons (.leaf rfl) h
  · exact .cons (.leaf rfl) h

theorem settled_pushWord (h : List.Forall₂ (Settled settings) nodes nodes') (text : Text) :
    List.Forall₂ (Settled settings) (pushWord nodes text) (pushWord nodes' text) := by
  rcases settled_cases h with ⟨rfl, rfl⟩ | ⟨n, rest, rest', hn, rfl, rfl, hrest⟩ |
    ⟨_, _, _, _, _, _, _, _, _, _, rfl, rfl⟩
  · exact .cons (.leaf rfl) .nil
  · cases n with
    | word front => exact .cons (.leaf rfl) hrest
    | function => cases hn
    | _ => exact .cons (.leaf rfl) h
  · exact .cons (.leaf rfl) h

theorem settled_pushToken (h : List.Forall₂ (Settled settings) nodes nodes') (t : Token) :
    List.Forall₂ (Settled settings) (pushToken nodes t) (pushToken nodes' t) := by
  unfold pushToken
  split
  · exact settled_pushSpace h _
  · exact settled_pushDivider h _
  · exact settled_pushDivider h _
  · exact settled_pushDivider h _
  · exact .cons (.leaf rfl) h
  · exact .cons (.leaf rfl) h
  · exact settled_pushWord h _

theorem settled_takeSpace (h : List.Forall₂ (Settled settings) nodes nodes') :
    (takeSpace nodes).1 = (takeSpace nodes').1 ∧
      List.Forall₂ (Settled settings) (takeSpace nodes).2 (takeSpace nodes').2 := by
  rcases settled_cases h with ⟨rfl, rfl⟩ | ⟨n, rest, rest', hn, rfl, rfl, hrest⟩ |
    ⟨_, _, _, _, _, _, _, _, _, _, rfl, rfl⟩
  · exact ⟨rfl, .nil⟩
  · cases n with
    | space text => exact ⟨rfl, hrest⟩
    | function => cases hn
    | _ => exact ⟨rfl, h⟩
  · exact ⟨rfl, h⟩

/-- Functions of one name around settled nodes have settled children. -/
theorem settled_callOf (h : List.Forall₂ (Settled settings) nodes nodes') (name : Text) :
    ∃ before inside inside' after, callOf name nodes = .function name before inside after ∧
      callOf name nodes' = .function name before inside' after ∧
      List.Forall₂ (Settled settings) inside inside' := by
  obtain ⟨hbefore, hrest⟩ := settled_takeSpace (List.forall₂_reverse_iff.mpr h)
  obtain ⟨hafter, hinside⟩ := settled_takeSpace (List.forall₂_reverse_iff.mpr hrest)
  have hcall : ∀ nodes : List Node, callOf name nodes =
      .function name (takeSpace nodes.reverse).1 (takeSpace (takeSpace nodes.reverse).2.reverse).2.reverse
        (takeSpace (takeSpace nodes.reverse).2.reverse).1 := fun _ => rfl
  refine ⟨_, _, _, _, hcall nodes, ?_, List.forall₂_reverse_iff.mpr hinside⟩
  rw [hcall nodes', hbefore, hafter]

/-- A block goes behind settled nodes if the function it becomes is settled. -/
theorem exists_settled_push (h : List.Forall₂ (Settled settings) nodes nodes') {opening : Opening}
    (hround : opening.brackets = .round) (closed : Bool) :
    ∃ name, ∀ body body' : List Component,
      Settled settings (callOf name (pushAll [] body)) (callOf name (pushAll [] body')) →
      List.Forall₂ (Settled settings) (push nodes (.block opening body closed))
        (push nodes' (.block opening body' closed)) := by
  cases opening with
  | call name => exact ⟨name, fun body body' hnode => by simpa only [push] using .cons hnode h⟩
  | bracket bracket =>
      obtain rfl : bracket = .round := hround
      simp only [push]
      rcases settled_cases h with ⟨rfl, rfl⟩ | ⟨n, rest, rest', hn, rfl, rfl, hrest⟩ |
        ⟨_, _, _, _, _, _, _, _, _, _, rfl, rfl⟩
      · exact ⟨[], fun body body' hnode => .cons hnode .nil⟩
      · cases n with
        | word name => exact ⟨name, fun body body' hnode => .cons hnode hrest⟩
        | function => cases hn
        | _ => exact ⟨[], fun body body' hnode => .cons hnode h⟩
      · exact ⟨[], fun body body' hnode => .cons hnode h⟩

/-- The block of a `clamp` function whose call is replaced can be changed to one with the size in place
of the call, which is settled. -/
theorem exists_settled_clamp {post : Text} {body : List Component}
    (h : Stands (some .round) post body) (hpost : Token.Fenced post) {before after : Text} {place : Nat}
    {size : FluidSize} {diagnostic : Option Diagnostic}
    (hcall : callOf clampName (pushAll [] body) = .function clampName before nodes after)
    (hout : Clamp.outcome settings nodes = .rewritten place size diagnostic) :
    ∃ body' : List Component,
      Settled settings (callOf clampName (pushAll [] body)) (callOf clampName (pushAll [] body')) ∧
      Text.Patched (Component.sources body) (Component.sources body') ∧
      ∀ post', Token.Fenced post' → Stands (some .round) post' body' ∧
        Near (Component.sources body ++ post) (Component.sources body' ++ post') := by
  obtain ⟨site, rfl, hsite, hget, -, htrail⟩ := exists_callSite h hcall hout
  obtain ⟨behind, hsources, hcalm, hreplaced⟩ := CallSite.exists_replaced h hsite size
  have hne : Component.sources site.trail ≠ [] := by
    rw [htrail]
    exact List.append_ne_nil_of_left_ne_nil (Clamp.render_behind_ne_nil hout) _
  refine ⟨site.front ++ behind, ?_, hsite.patched hsources hne, hreplaced⟩
  have hbehind := (Component.stands_append.mp (hreplaced [] Token.fenced_nil).1).2
  have hread := hsite.callOf_replaced h hpost hcall hout hget hbehind hsources
  rw [hcall, hread]
  exact .clamp hout (hread ▸ quiet_of_isCalm hcalm)

/-- The block of any call or group can be changed to one that is settled, if its component values can
be. -/
theorem exists_settled_block {post : Text} {body : List Component}
    (h : Stands (some .round) post body) (hpost : Token.Fenced post) (name : Text)
    (hinside : ∃ body' : List Component,
      List.Forall₂ (Settled settings) (pushAll [] body) (pushAll [] body') ∧
      List.Forall₂ Changed body body' ∧ Fits (some .round) post body body') :
    ∃ body' : List Component,
      Settled settings (callOf name (pushAll [] body)) (callOf name (pushAll [] body')) ∧
      Text.Patched (Component.sources body) (Component.sources body') ∧
      Fits (some .round) post body body' := by
  obtain ⟨body', hsettled, hchanged, hfits⟩ := hinside
  obtain ⟨before, nodes, nodes', after, hcall, hcall', hnodes⟩ := settled_callOf hsettled name
  rcases Node.resolve_function settings name before nodes after with
    ⟨place, size, diagnostic, rfl, hout, -⟩ | ⟨hown, -⟩
  · obtain ⟨body'', hsettled, hpatched, hstands⟩ := exists_settled_clamp h hpost hcall hout
    exact ⟨body'', hsettled, hpatched, fun post' hnear => hstands post' (hnear.fenced_right hpost)⟩
  · refine ⟨body', ?_, Component.patched_of_changed hchanged, hfits⟩
    rw [hcall, hcall']
    exact .function hown hnodes

/-- A block behind settled nodes can be changed to one that is settled, if its component values can be;
those of a block in square or curly brackets are text of a word and stay. -/
theorem exists_settled_push_block {opening : Opening} {post : Text} {body : List Component}
    (h : Stands (some opening.brackets) post body) (hpost : Token.Fenced post)
    (hinside : ∃ body' : List Component,
      List.Forall₂ (Settled settings) (pushAll [] body) (pushAll [] body') ∧
      List.Forall₂ Changed body body' ∧ Fits (some opening.brackets) post body body')
    (hnodes : List.Forall₂ (Settled settings) nodes nodes') (closed : Bool) :
    ∃ body' : List Component,
      List.Forall₂ (Settled settings) (push nodes (.block opening body closed))
        (push nodes' (.block opening body' closed)) ∧
      Changed (.block opening body closed) (.block opening body' closed) ∧
      Fits (some opening.brackets) post body body' := by
  by_cases hround : opening.brackets = .round
  · obtain ⟨name, hpush⟩ := exists_settled_push hnodes hround closed
    rw [hround] at h hinside ⊢
    obtain ⟨body', hsettled, hpatched, hfits⟩ := exists_settled_block h hpost name hinside
    exact ⟨body', hpush body body' hsettled, .block closed hround hpatched, hfits⟩
  · refine ⟨body, ?_, .refl _, h.fits⟩
    cases opening with
    | call name => exact absurd rfl hround
    | bracket bracket =>
        cases bracket with
        | round => exact absurd rfl hround
        | square => exact settled_pushWord hnodes _
        | curly => exact settled_pushWord hnodes _

end Value

open Value (push pushAll)

/-- Component values that stand can be changed to settled ones that stand in their place, whatever
changes behind a fence. -/
theorem Component.Stands.exists_settled (settings : Settings) {enclosing : Option Bracket} {post : Text}
    {cs : List Component} (h : Stands enclosing post cs) {nodes nodes' : List Node}
    (hnodes : List.Forall₂ (Settled settings) nodes nodes') :
    ∃ cs' : List Component,
      List.Forall₂ (Settled settings) (pushAll nodes cs) (pushAll nodes' cs') ∧
      List.Forall₂ Changed cs cs' ∧ Fits enclosing post cs cs' := by
  induction h generalizing nodes nodes' with
  | nil => exact ⟨[], by simpa only [pushAll] using hnodes, .nil, (Stands.nil _ _).fits⟩
  | @token enclosing post t rest stands flat _ ih =>
      obtain ⟨rest', hsettled, hchanged, hrest⟩ := ih (Value.settled_pushToken hnodes t)
      exact ⟨.token t :: rest', by simpa only [pushAll, push] using hsettled,
        .cons (.refl _) hchanged, .token stands flat hrest⟩
  | @closed enclosing post opening body rest stands inside _ ihbody ih =>
      obtain ⟨body', hpush, hblock, hbody⟩ := Value.exists_settled_push_block inside
        (Token.fenced_close _ _) (ihbody .nil) hnodes true
      obtain ⟨rest', hsettled, hchanged, hrest⟩ := ih hpush
      exact ⟨.block opening body' true :: rest', by simpa only [pushAll] using hsettled,
        .cons hblock hchanged, .closed stands hbody hrest⟩
  | @unclosed enclosing opening body stands inside ihbody =>
      obtain ⟨body', hpush, hblock, hbody⟩ :=
        Value.exists_settled_push_block inside Token.fenced_nil (ihbody .nil) hnodes false
      exact ⟨[.block opening body' false], by simpa only [pushAll] using hpush,
        .cons hblock .nil, .unclosed stands hbody⟩

/-- Component values that are those of a text with its calls replaced. -/
theorem Component.exists_settled_ofText (settings : Settings) (text : Text) :
    ∃ cs : List Component, Stands none [] cs ∧ List.Forall₂ Changed (Component.ofText text) cs ∧
      List.Forall₂ (Settled settings) (Value.ofText text) (Value.ofText (Component.sources cs)) := by
  obtain ⟨cs, hsettled, hchanged, hfits⟩ :=
    (Component.stands_ofText text).exists_settled settings .nil
  obtain ⟨hstands, -⟩ := hfits [] (.refl [])
  refine ⟨cs, hstands, hchanged, ?_⟩
  rw [Value.ofText, Value.ofText, Component.ofText_sources hstands]
  exact List.forall₂_reverse_iff.mpr hsettled

/-- A text whose value is that of another text with its calls replaced. -/
theorem Value.exists_settled_ofText (settings : Settings) (text : Text) :
    ∃ other : Text, List.Forall₂ (Settled settings) (ofText text) (ofText other) := by
  obtain ⟨cs, -, -, hsettled⟩ := Component.exists_settled_ofText settings text
  exact ⟨Component.sources cs, hsettled⟩

end FluidSizing
