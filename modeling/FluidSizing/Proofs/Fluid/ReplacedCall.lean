import FluidSizing.Proofs.Fluid.Replacement
import FluidSizing.Proofs.Fluid.SizeNode

/-! The children of a `clamp` function whose call is replaced, as they are read again. The size is read as
its node in the place of the call (`Replacement.substituted`), unless it is a fixed size directly before a
word, with which it is one word then (`Replacement.joined`). -/

namespace FluidSizing

open Component (Stands)

/-- A call that is replaced: the children of the `clamp` function around it, its place among them and the
size that replaces it. -/
structure Replacement where
  nodes : List Node
  place : Nat
  size : FluidSize

namespace Replacement

/-- The children with the size as a node of its own. -/
def substituted (r : Replacement) : List Node := r.nodes.set r.place r.size.node

/-- The children with a fixed size as one word with a word directly behind it. -/
def joined (r : Replacement) : List Node :=
  r.nodes.take r.place ++ Value.prepend r.size.node (r.nodes.drop (r.place + 1))

/-- Whether no fixed size stands directly before a word. -/
def IsApart (r : Replacement) : Prop :=
  ∀ x word, r.size = .fixed x → r.nodes[r.place + 1]? ≠ some (.word word)

/-- Whether no fixed size stands directly before a word, as a test. -/
def isApart (r : Replacement) : Bool :=
  match r.size, r.nodes[r.place + 1]? with
  | .fixed _, some (.word _) => false
  | _, _ => true

theorem isApart_iff (r : Replacement) : r.isApart = true ↔ r.IsApart := by
  unfold isApart IsApart
  split
  · simp_all
  · rename_i hnone
    simp only [true_iff]
    exact fun x word hsize hnode => hnone x word hsize hnode

instance (r : Replacement) : Decidable r.IsApart := decidable_of_iff _ r.isApart_iff

end Replacement

theorem FluidSize.isBarrier_node (size : FluidSize) : Value.IsBarrier size.node := by
  cases size with
  | fixed x => exact Or.inr ⟨_, rfl⟩
  | growing line => exact Or.inl rfl

theorem FluidSize.render_node (size : FluidSize) : size.node.render = size.render := by
  cases size with
  | fixed x => rw [node, Node.render]
  | growing line =>
      have hunits : "px + ".toList = ['p', 'x', ' ', '+', ' '] ∧ "vw".toList = ['v', 'w'] := by decide
      simp [node, Node.render, render_growing, Line.inside, hunits]

namespace Value

theorem render_set {nodes : List Node} {place : Nat} (h : place < nodes.length) (n : Node) :
    render (nodes.set place n) =
      render (nodes.take place) ++ (n.render ++ render (nodes.drop (place + 1))) := by
  rw [List.set_eq_take_append_cons_drop, if_pos h, render_append, render_cons]

theorem ne_space_of_arguments {nodes : List Node} {word : Text} (h : arguments nodes = [.word word]) :
    ∀ n ∈ nodes, ∀ text, n ≠ .space text := by
  rintro n hn text rfl
  rcases isDivider_or_mem_arguments hn with hdivider | hmem
  · cases hdivider
  · rw [h] at hmem
    cases List.mem_singleton.mp hmem

theorem ne_nil_of_arguments {nodes : List Node} {word : Text} (h : arguments nodes = [.word word]) :
    nodes ≠ [] := by
  rintro rfl
  cases h

theorem render_prepend (n : Node) (nodes : List Node) :
    render (prepend n nodes) = n.render ++ render nodes := by
  unfold prepend
  split <;> simp [Node.render]

theorem mem_prepend {n m : Node} {nodes : List Node} (h : m ∈ prepend n nodes) :
    (∃ text, m = .word text) ∨ m = n ∨ m ∈ nodes := by
  unfold prepend at h
  split at h
  · rcases List.mem_cons.mp h with rfl | h
    · exact Or.inl ⟨_, rfl⟩
    · exact Or.inr (Or.inr (List.mem_cons_of_mem _ h))
  · exact Or.inr (List.mem_cons.mp h)

theorem ne_space_prepend {front back : List Node} {low high : Text} (hfront : arguments front = [.word low])
    (size : FluidSize) (hback : arguments back = [.word high]) :
    ∀ n ∈ front ++ prepend size.node back, ∀ text, n ≠ .space text := by
  rintro n hn text rfl
  rcases List.mem_append.mp hn with hn | hn
  · exact ne_space_of_arguments hfront _ hn text rfl
  · rcases mem_prepend hn with ⟨word, heq⟩ | heq | hn
    · cases heq
    · cases size <;> cases heq
    · exact ne_space_of_arguments hback _ hn text rfl

/-- Joined or not, the children are spelled with the text of the size in place of the call. -/
theorem render_joined {r : Replacement} (h : r.place < r.nodes.length) :
    render r.joined = render (r.nodes.set r.place (.word r.size.render)) := by
  rw [Replacement.joined, render_append, render_prepend, FluidSize.render_node, render_set h,
    Node.render]

theorem pushAll_call {nodes : List Node} (h : lastWord nodes = none) (inside behind : List Component) :
    pushAll nodes (FluidCall.components inside ++ behind) =
      pushAll (callOf fluidName (pushAll [] inside) :: nodes) behind := by
  simp [FluidCall.components, pushAll, push, pushToken, pushWord_of_lastWord h, pushGroup]

theorem lastWord_pushAll_spaces {nodes : List Node} (h : lastWord nodes = none)
    {spaces : List Component} (hspaces : ∀ c ∈ spaces, c.IsSpace) :
    lastWord (pushAll nodes spaces) = none := by
  induction spaces generalizing nodes with
  | nil => simpa [pushAll] using h
  | cons c spaces ih =>
      obtain ⟨⟨t, rfl, hkind, -⟩, hrest⟩ := List.forall_mem_cons.mp hspaces
      rw [pushAll]
      refine ih ?_ hrest
      rw [push, pushToken, hkind]
      dsimp only
      unfold pushSpace
      split <;> rfl

end Value

namespace CallSite

variable {site : CallSite}

/-- Before the call ends no word. -/
theorem Valid.lastWord_front (hsite : site.Valid) :
    Value.lastWord (Value.pushAll [] site.front) = none := by
  obtain ⟨separator, hkind, -⟩ := hsite.separator
  have hdivider : ∀ nodes, Value.lastWord (Value.push nodes (.token site.separator)) = none := by
    intro nodes
    have hpush : ∀ c, Value.lastWord (Value.pushDivider nodes c) = none := by
      intro c
      unfold Value.pushDivider
      split <;> rfl
    generalize site.separator = t at hkind
    obtain ⟨kind, text⟩ := t
    rw [Value.push]
    cases kind <;> first | exact hpush _ | cases hkind
  rw [front, Value.pushAll_append, Value.pushAll]
  exact Value.lastWord_pushAll_spaces (hdivider _) hsite.spaces

/-- The text behind the call is tokens, which are read alone as they stand. -/
theorem Valid.exists_tokens (hsite : site.Valid) {post : Text}
    (h : Stands (some .round) post site.components) (hpost : Token.Fenced post) :
    ∃ tokens : List Token, site.trail = tokens.map .token ∧
      Component.ofText (Component.sources site.trail) = site.trail := by
  obtain ⟨tokens, htokens, -⟩ := Component.plain_ofText hsite.trail
  have hstands := (Component.stands_append.mp (Component.stands_append.mp h).2).2
  have htrail := hstands.eq_ofText hpost hsite.trail
  exact ⟨tokens, htrail.trans htokens, htrail.symm⟩

/-- The children of the `clamp` function are those before the call, the call and those behind it. -/
theorem Valid.ofComponents_components (hsite : site.Valid) {tokens : List Token}
    (htrail : site.trail = tokens.map .token) :
    Value.ofComponents site.components =
      Value.ofComponents site.front ++
        Value.callOf fluidName (Value.pushAll [] site.inside) :: Value.ofComponents site.trail := by
  have hcall : (Value.callOf fluidName (Value.pushAll [] site.inside)).isFunction = true := by
    obtain ⟨leading, nodes, trailing, hread, -⟩ :=
      Value.exists_callOf fluidName (Value.pushAll [] site.inside)
    rw [hread]
    rfl
  rw [Value.ofComponents, components, Value.pushAll_append, Value.pushAll_call hsite.lastWord_front,
    htrail, Value.pushAll_prepend (Or.inl hcall), Value.prepend_of_isFunction hcall]
  simp [Value.ofComponents]

/-- With a size in place of the call they are those before it and the size joined to those behind it. -/
theorem Valid.ofComponents_replaced (hsite : site.Valid) {tokens : List Token}
    (htrail : site.trail = tokens.map .token)
    (hread : Component.ofText (Component.sources site.trail) = site.trail) {size : FluidSize}
    {behind : List Component} (hbehind : Stands (some .round) [] behind)
    (hsources : Component.sources behind = size.render ++ Component.sources site.trail) :
    Value.ofComponents (site.front ++ behind) =
      Value.ofComponents site.front ++ Value.prepend size.node (Value.ofComponents site.trail) := by
  rw [Value.ofComponents, Value.pushAll_append, ← Component.ofText_sources hbehind.unenclosed, hsources,
    Value.pushAll_size size hsite.trail hsite.lastWord_front, hread, htrail,
    Value.pushAll_prepend size.isBarrier_node]
  simp [Value.ofComponents]

/-- With a size in place of the call the `clamp` function is read with the size joined to the children
around it. -/
theorem Valid.callOf_replaced (hsite : site.Valid) {settings : Settings} {post : Text}
    (h : Stands (some .round) post site.components) (hpost : Token.Fenced post)
    {name name' before after : Text} {nodes : List Node} {place : Nat} {size : FluidSize}
    {diagnostic : Option Diagnostic}
    (hcall : Value.callOf name (Value.pushAll [] site.components) = .function name' before nodes after)
    (hout : Clamp.outcome settings nodes = .rewritten place size diagnostic)
    (hget : nodes[place]? = some (Value.callOf fluidName (Value.pushAll [] site.inside)))
    {behind : List Component} (hbehind : Stands (some .round) [] behind)
    (hsources : Component.sources behind = size.render ++ Component.sources site.trail) :
    Value.callOf name (Value.pushAll [] (site.front ++ behind)) =
      .function name' before (Replacement.joined ⟨nodes, place, size⟩) after := by
  obtain ⟨front, back, inside, before', after', low, high, -, -, -, rfl, rfl, hfront, hback, -⟩ :=
    Clamp.outcome_eq_rewritten hout
  have hnode : .function fluidName before' inside after' =
      Value.callOf fluidName (Value.pushAll [] site.inside) := by
    simpa using hget
  obtain ⟨leading, nodes, trailing, hread, hreverse, hleading, htrailing⟩ :=
    Value.exists_callOf name (Value.pushAll [] site.components)
  rw [hread] at hcall
  obtain ⟨rfl, rfl, rfl, rfl⟩ := Node.function.inj hcall
  obtain ⟨tokens, htrail, hofText⟩ := hsite.exists_tokens h hpost
  -- no other function is among the children, so there is one way to split them at the call
  have hsplit : (leading ++ front) ++ .function fluidName before' inside after' :: (back ++ trailing) =
      Value.ofComponents site.front ++
        .function fluidName before' inside after' :: Value.ofComponents site.trail := by
    have hcomponents := hsite.ofComponents_components htrail
    rw [Value.ofComponents, hreverse, ← hnode] at hcomponents
    rw [← hcomponents]
    simp
  have hnone : ∀ {word : Text} {side padding : List Node}, Value.arguments side = [.word word] →
      Value.IsPadding padding → .function fluidName before' inside after' ∉ side ++ padding := by
    intro word side padding hside hpadding hmem
    have hfalse := (Value.isSide_of_arguments hside hpadding.eq_space).isFunction_eq_false _ hmem
    cases hfalse
  have hnone' : .function fluidName before' inside after' ∉ leading ++ front := fun hmem =>
    hnone hfront hleading (by simpa [or_comm] using hmem)
  obtain ⟨hbefore, -, hafter⟩ :=
    (List.append_cons_inj_of_notMem hnone' (hnone hback htrailing)).mp hsplit
  have hjoined : Replacement.joined
      ⟨front ++ .function fluidName before' inside after' :: back, front.length, size⟩ =
      front ++ Value.prepend size.node back := by
    simp [Replacement.joined]
  have hreplaced : (Value.pushAll [] (site.front ++ behind)).reverse =
      leading ++ (front ++ Value.prepend size.node back) ++ trailing := by
    have hprepend := hsite.ofComponents_replaced htrail hofText hbehind hsources
    rw [← hbefore, ← hafter, Value.prepend_append _ (Value.ne_nil_of_arguments hback),
      Value.ofComponents] at hprepend
    simpa only [List.append_assoc] using hprepend
  have hne : front ++ Value.prepend size.node back ≠ [] :=
    List.append_ne_nil_of_right_ne_nil _ (Value.prepend_ne_nil _ _)
  rw [← List.reverse_reverse (Value.pushAll [] (site.front ++ behind)), hreplaced, hjoined]
  exact Value.callOf_padding hleading htrailing hne (Value.ne_space_prepend hfront size hback) name

end CallSite

end FluidSizing
