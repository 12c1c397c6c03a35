import FluidSizing.Proofs.Value.Shape
import FluidSizing.Proofs.Value.Walk
import FluidSizing.Proofs.Value.Words
import Mathlib.Data.List.DropRight

/-! White space that is no argument. Component values keep their nodes, up to the white space that separators
and parentheses have, when the white space beside separators and at the ends of parentheses is left out
(`bare_ofText`). So two texts that differ in such white space only have the same functions with their
arguments in the same places (`argumentIndices_of_tight`). -/

namespace FluidSizing

namespace Component

def isSeparator : Component → Bool
  | token t => t.kind.separator?.isSome
  | block .. => false

/-- Whether what follows takes the white space before it: a separator, or the end of parentheses. -/
def takesBefore (inside : Bool) : List Component → Bool
  | [] => inside
  | c :: _ => c.isSeparator

mutual

/-- A component value without the white space beside separators and at the ends of parentheses. -/
def tight : Component → Component
  | token t => token t
  | block opening body closed =>
    block opening (if opening.brackets = .round then tightAll true true body else body) closed

/-- Component values without such white space, in parentheses or not, behind something that takes the white
space that follows or not. -/
def tightAll (behind inside : Bool) : List Component → List Component
  | [] => []
  | c :: rest =>
    if c.isWhitespace && (behind || takesBefore inside rest) then tightAll behind inside rest
    else c.tight :: tightAll c.isSeparator inside rest

end

end Component

mutual

/-- A node without the white space of separators and parentheses. -/
def Node.bare : Node → Node
  | .divider separator _ _ => .divider separator [] []
  | .function name _ nodes _ => .function name [] (Value.bare nodes) []
  | node => node

def Value.bare : Value → Value
  | [] => []
  | node :: rest => node.bare :: Value.bare rest

end

namespace Value
open Component (Stands tightAll takesBefore)

@[simp] theorem bare_nil : bare [] = [] := by rw [bare]

@[simp] theorem bare_cons (n : Node) (nodes : List Node) : bare (n :: nodes) = n.bare :: bare nodes := by
  rw [bare]

theorem bare_eq_map (nodes : List Node) : bare nodes = nodes.map Node.bare := by
  induction nodes with
  | nil => simp
  | cons n nodes ih => simp [ih]

@[simp] theorem bare_append (front back : List Node) : bare (front ++ back) = bare front ++ bare back := by
  simp [bare_eq_map]

mutual

@[simp] theorem bare_node_bare : (n : Node) → n.bare.bare = n.bare
  | .divider .. => by simp [Node.bare]
  | .function name _ nodes _ => by simp [Node.bare, bare_bare nodes]
  | .word _ | .space _ | .quoted _ | .comment _ => by simp [Node.bare]

@[simp] theorem bare_bare : (nodes : List Node) → bare (bare nodes) = bare nodes
  | [] => by simp
  | n :: nodes => by simp [bare_node_bare n, bare_bare nodes]

end

@[simp] theorem isSpace_bare (n : Node) : n.bare.isSpace = n.isSpace := by
  cases n <;> simp [Node.bare, Node.isSpace]

@[simp] theorem meets_bare (m n : Node) : m.bare.meets n.bare = m.meets n := by
  cases m <;> cases n <;> simp [Node.bare, Node.meets]

variable {nodes nodes' : List Node}

/-! Nodes that are the same without such white space are read on in the same way. -/

theorem bare_pushDivider (nodes : List Node) (separator : Char) :
    bare (pushDivider nodes separator) = bare (pushDivider (bare nodes) separator) := by
  cases nodes with
  | nil => simp [pushDivider]
  | cons n nodes => cases n <;> simp [pushDivider, Node.bare]

theorem bare_pushWord (nodes : List Node) (text : Text) :
    bare (pushWord nodes text) = bare (pushWord (bare nodes) text) := by
  cases nodes with
  | nil => simp [pushWord]
  | cons n nodes => cases n <;> simp [pushWord, Node.bare]

theorem bare_pushGroup (nodes inside : List Node) :
    bare (pushGroup nodes inside) = bare (pushGroup (bare nodes) inside) := by
  cases nodes with
  | nil => simp [pushGroup]
  | cons n nodes => cases n <;> simp [pushGroup, Node.bare]

theorem bare_push {c : Component} (hc : c.isWhitespace = false) (nodes : List Node) :
    bare (push nodes c) = bare (push (bare nodes) c) := by
  cases c with
  | token t =>
      rw [push, push]
      unfold pushToken
      split
      · rename_i hkind
        simp [Component.isWhitespace, hkind] at hc
      · exact bare_pushDivider nodes ','
      · exact bare_pushDivider nodes ':'
      · exact bare_pushDivider nodes '/'
      · simp
      · simp
      · exact bare_pushWord nodes t.text
  | block opening body closed =>
      rw [push.eq_def, push.eq_def]
      dsimp only
      split
      · simp
      · exact bare_pushGroup nodes _
      · exact bare_pushWord nodes _

/-- Whether the last node, which is the first of the list, is a separator. -/
def endsDivider (nodes : List Node) : Bool := nodes.head?.any Node.isDivider

/-- White space is a separator's or a node of its own. -/
theorem bare_pushSpace (nodes : List Node) (text : Text) :
    bare (pushSpace nodes text) =
      if endsDivider nodes && !endsBlank nodes then bare nodes else .space text :: bare nodes := by
  cases nodes with
  | nil => simp [pushSpace, endsDivider, Node.bare]
  | cons n nodes =>
      cases n with
      | divider separator before after =>
          cases after <;> simp [pushSpace, endsDivider, endsBlank, Node.isDivider, Node.bare]
      | _ => simp [pushSpace, endsDivider, endsBlank, Node.isDivider, Node.bare]

theorem endsBlank_pushSpace (nodes : List Node) (text : Text) :
    endsBlank (pushSpace nodes text) =
      if endsDivider nodes && !endsBlank nodes then !text.isEmpty else true := by
  cases nodes with
  | nil => simp [pushSpace, endsDivider, endsBlank]
  | cons n nodes =>
      cases n with
      | divider separator before after =>
          cases after <;> cases text <;> simp [pushSpace, endsDivider, endsBlank, Node.isDivider]
      | _ => simp [pushSpace, endsDivider, endsBlank, Node.isDivider]

theorem endsDivider_of_bare (h : bare nodes = bare nodes') : endsDivider nodes = endsDivider nodes' := by
  have hbare : ∀ nodes, endsDivider (bare nodes) = endsDivider nodes := by
    intro nodes
    cases nodes with
    | nil => simp
    | cons n nodes => cases n <;> simp [endsDivider, Node.bare, Node.isDivider]
  rw [← hbare, h, hbare]

theorem pushAll_congr_bare (h : bare nodes = bare nodes') {cs : List Component}
    (hcs : ∀ c ∈ cs.head?, c.isWhitespace = true → endsBlank nodes = endsBlank nodes') :
    bare (pushAll nodes cs) = bare (pushAll nodes' cs) := by
  induction cs generalizing nodes nodes' with
  | nil => simpa [pushAll] using h
  | cons c cs ih =>
      rw [pushAll, pushAll]
      cases hc : c.isWhitespace with
      | false =>
          have hend : ∀ nodes, endsBlank (push nodes c) = false := by
            intro nodes
            refine Bool.eq_false_iff.mpr fun hblank => ?_
            rw [endsBlank_push hblank] at hc
            cases hc
          refine ih ?_ fun _ _ _ => by rw [hend, hend]
          rw [bare_push hc, h, ← bare_push hc]
      | true =>
          obtain ⟨t, rfl, hkind⟩ : ∃ t, c = .token t ∧ t.kind = .whitespace := by
            cases c with
            | token t => exact ⟨t, rfl, decide_eq_true_eq.mp hc⟩
            | block => cases hc
          have hend := hcs _ rfl hc
          have hdivider := endsDivider_of_bare h
          rw [push, push, pushToken, pushToken, hkind]
          refine ih ?_ fun _ _ _ => ?_
          · rw [bare_pushSpace, bare_pushSpace, h, hend, hdivider]
          · rw [endsBlank_pushSpace, endsBlank_pushSpace, hend, hdivider]

/-! Parentheses take the white space at the ends of the nodes between them. -/

/-- Nodes without the white space at their ends. -/
def trimmed (nodes : List Node) : List Node := (nodes.dropWhile Node.isSpace).rdropWhile Node.isSpace

theorem trimmed_append {front back : List Node} (hfront : ∀ n ∈ front, n.isSpace = true)
    (hback : ∀ n ∈ back, n.isSpace = true) (nodes : List Node) :
    trimmed (front ++ nodes ++ back) = trimmed nodes := by
  rw [trimmed, trimmed, List.append_assoc, List.dropWhile_append_of_pos hfront, List.dropWhile_append]
  split
  · rename_i hnil
    rw [List.isEmpty_iff] at hnil
    rw [hnil, List.dropWhile_eq_nil_iff.mpr hback]
  · rw [List.rdropWhile, List.reverse_append, List.dropWhile_append_of_pos fun n hn =>
      hback n (List.mem_reverse.mp hn), List.rdropWhile]

theorem trimmed_eq {nodes : List Node} (hhead : ∀ n ∈ nodes.head?, n.isSpace = false)
    (hlast : ∀ n ∈ nodes.getLast?, n.isSpace = false) : trimmed nodes = nodes := by
  have hdrop : ∀ nodes : List Node, (∀ n ∈ nodes.head?, n.isSpace = false) →
      nodes.dropWhile Node.isSpace = nodes := by
    intro nodes h
    cases nodes with
    | nil => rfl
    | cons n nodes => rw [List.dropWhile_cons_of_neg (by rw [h n rfl]; decide)]
  rw [trimmed, hdrop nodes hhead, List.rdropWhile, hdrop, List.reverse_reverse]
  rwa [List.head?_reverse]

theorem bare_callOf (name : Text) {inside : List Node}
    (h : inside.reverse.IsChain fun m n => m.meets n = true) :
    (callOf name inside).bare = .function name [] (trimmed (bare inside.reverse)) [] := by
  obtain ⟨leading, nodes, trailing, hcall, hinside, hleading, htrailing, hhead, hlast⟩ :=
    exists_callOf_apart name h
  have hspaces : ∀ {padding : List Node}, IsPadding padding →
      ∀ n ∈ bare padding, n.isSpace = true := by
    intro padding hpadding n hn
    rw [bare_eq_map, List.mem_map] at hn
    obtain ⟨m, hm, rfl⟩ := hn
    obtain ⟨text, rfl⟩ := hpadding.eq_space m hm
    rw [isSpace_bare]
    rfl
  have hnodes : trimmed (bare nodes) = bare nodes := by
    rw [bare_eq_map]
    refine trimmed_eq (fun n hn => ?_) fun n hn => ?_
    · rw [List.head?_map, Option.mem_def, Option.map_eq_some_iff] at hn
      obtain ⟨m, hm, rfl⟩ := hn
      rw [isSpace_bare, hhead m hm]
    · rw [List.getLast?_map, Option.mem_def, Option.map_eq_some_iff] at hn
      obtain ⟨m, hm, rfl⟩ := hn
      rw [isSpace_bare, hlast m hm]
  rw [hcall, Node.bare, hinside, bare_append, bare_append, trimmed_append (hspaces hleading)
    (hspaces htrailing), hnodes]

theorem tightAll_cons {c : Component} (hc : c.isWhitespace = false) (behind inside : Bool)
    (rest : List Component) :
    tightAll behind inside (c :: rest) = c.tight :: tightAll c.isSeparator inside rest := by
  rw [tightAll, hc]
  rfl

theorem tightAll_congr {cs : List Component} (h : ∀ c ∈ cs.head?, c.isWhitespace = false)
    (behind behind' inside : Bool) : tightAll behind inside cs = tightAll behind' inside cs := by
  cases cs with
  | nil => rw [tightAll, tightAll]
  | cons c rest => rw [tightAll_cons (h c rfl), tightAll_cons (h c rfl)]

theorem endsDivider_push {c : Component} (hc : c.isWhitespace = false) (nodes : List Node) :
    endsDivider (push nodes c) = c.isSeparator := by
  have hword : ∀ text, endsDivider (pushWord nodes text) = false := by
    intro text
    unfold pushWord
    split <;> rfl
  cases c with
  | token t =>
      obtain ⟨kind, text⟩ := t
      have hdivider : ∀ separator, endsDivider (pushDivider nodes separator) = true := by
        intro separator
        unfold pushDivider
        split <;> rfl
      rw [push]
      cases kind with
      | whitespace => cases hc
      | comma | colon | slash => exact hdivider _
      | string | comment => rfl
      | _ => exact hword _
  | block opening body closed =>
      rw [push.eq_def]
      dsimp only
      split
      · rfl
      · unfold pushGroup
        split <;> rfl
      · exact hword _

theorem exists_push_separator {c : Component} (hc : c.isSeparator = true) :
    ∃ separator, ∀ nodes, push nodes c = pushDivider nodes separator := by
  cases c with
  | block => cases hc
  | token t =>
      obtain ⟨kind, text⟩ := t
      cases kind with
      | comma => exact ⟨',', fun nodes => by rw [push, pushToken]⟩
      | colon => exact ⟨':', fun nodes => by rw [push, pushToken]⟩
      | slash => exact ⟨'/', fun nodes => by rw [push, pushToken]⟩
      | _ => cases hc

/-- Behind white space everything but white space and separators is read as it is alone. -/
theorem push_behind_space {c : Component} (hc : c.isWhitespace = false) (hseparator : c.isSeparator = false)
    (text : Text) : push [.space text] c = push [] c ++ [.space text] := by
  cases c with
  | token t =>
      obtain ⟨kind, text⟩ := t
      rw [push, push]
      cases kind with
      | whitespace => cases hc
      | comma | colon | slash => cases hseparator
      | _ => rfl
  | block opening body closed =>
      cases opening with
      | call name => simp [push]
      | bracket bracket => cases bracket <;> simp [push, pushGroup, pushWord]

/-- White space in front is taken by a separator, or stays in front. -/
theorem exists_bare_pushAll_space (text : Text) {cs : List Component}
    (hcs : ∀ c ∈ cs.head?, c.isWhitespace = false) :
    ∃ padding, IsPadding padding ∧
      bare (pushAll [.space text] cs) = bare (pushAll [] cs) ++ padding := by
  cases cs with
  | nil => exact ⟨[.space text], Or.inr ⟨text, rfl⟩, by simp [pushAll, Node.bare]⟩
  | cons c cs =>
      rw [pushAll, pushAll]
      cases hseparator : c.isSeparator with
      | true =>
          obtain ⟨separator, hpush⟩ := exists_push_separator hseparator
          refine ⟨[], Or.inl rfl, ?_⟩
          rw [List.append_nil, hpush, hpush]
          exact pushAll_congr_bare (by simp [pushDivider, Node.bare]) fun _ _ _ => rfl
      | false =>
          refine ⟨[.space text], Or.inr ⟨text, rfl⟩, ?_⟩
          rw [push_behind_space (hcs c rfl) hseparator, pushAll_append_older (push_ne_nil _ _)]
          simp [Node.bare]

theorem pushSpace_of_endsDivider (h : endsDivider nodes = false) (text : Text) :
    pushSpace nodes text = .space text :: nodes := by
  unfold pushSpace
  split
  · cases h
  · rfl

theorem pushDivider_of_endsBlank (h : endsBlank nodes = false) (separator : Char) :
    pushDivider nodes separator = .divider separator [] [] :: nodes := by
  unfold pushDivider
  split
  · cases h
  · rfl

@[simp] theorem isWhitespace_tight (c : Component) : c.tight.isWhitespace = c.isWhitespace := by
  cases c <;> simp [Component.tight, Component.isWhitespace]

theorem head?_tightAll {cs : List Component} (h : ∀ c ∈ cs.head?, c.isWhitespace = false)
    (behind inside : Bool) : ∀ c ∈ (tightAll behind inside cs).head?, c.isWhitespace = false := by
  cases cs with
  | nil => simp [tightAll]
  | cons c rest =>
      rw [tightAll_cons (h c rfl)]
      intro d hd
      obtain rfl := Option.some.inj hd
      rw [isWhitespace_tight, h c rfl]

/-- Component values are read, up to white space at the end, as they are without the white space of separators
and parentheses. -/
def KeepsBare (cs : List Component) : Prop :=
  ∀ nodes inside, (endsBlank nodes = true → ∀ c ∈ cs.head?, c.isWhitespace = false) →
    ∃ padding, IsPadding padding ∧ (inside = false → padding = []) ∧
      bare (pushAll nodes cs) = padding ++ bare (pushAll nodes (tightAll (endsDivider nodes) inside cs))

theorem KeepsBare.cons_of_not_isWhitespace {c : Component} {rest : List Component} (h : KeepsBare rest)
    (hc : c.isWhitespace = false)
    (htight : ∀ nodes, bare (push nodes c) = bare (push nodes c.tight)) : KeepsBare (c :: rest) := by
  intro nodes inside _
  have hblank : ∀ {c : Component}, c.isWhitespace = false → endsBlank (push nodes c) = false :=
    fun hc => Bool.eq_false_iff.mpr fun hblank => by
      rw [endsBlank_push hblank] at hc
      cases hc
  obtain ⟨padding, hpadding, hinside, heq⟩ := h (push nodes c) inside (by rw [hblank hc]; exact nofun)
  refine ⟨padding, hpadding, hinside, ?_⟩
  rw [pushAll, heq, endsDivider_push hc, tightAll_cons hc, pushAll]
  rw [pushAll_congr_bare (htight nodes) fun _ _ _ => by
    rw [hblank hc, hblank (isWhitespace_tight c ▸ hc)]]

/-- White space is a separator's, or it stands before a separator or the end of parentheses, or it stays. -/
theorem KeepsBare.cons_whitespace {t : Token} {rest : List Component} (h : KeepsBare rest)
    (hkind : t.kind = .whitespace) (hrest : ∀ c ∈ rest.head?, c.isWhitespace = false) :
    KeepsBare (.token t :: rest) := by
  intro nodes inside hend
  have hwhite : (Component.token t).isWhitespace = true := decide_eq_true hkind
  have hnodes : endsBlank nodes = false := Bool.eq_false_iff.mpr fun hblank => by
    rw [hend hblank _ rfl] at hwhite
    cases hwhite
  obtain ⟨padding, hpadding, hinside, heq⟩ := h (pushSpace nodes t.text) inside fun _ => hrest
  have hpush : pushAll nodes (.token t :: rest) = pushAll (pushSpace nodes t.text) rest := by
    rw [pushAll, push, pushToken, hkind]
  rw [hpush, tightAll, hwhite, Bool.true_and]
  cases hdivider : endsDivider nodes with
  | true =>
      have hbare : bare (pushSpace nodes t.text) = bare nodes := by
        rw [bare_pushSpace, hdivider, hnodes]
        rfl
      refine ⟨padding, hpadding, hinside, ?_⟩
      rw [Bool.true_or, if_pos rfl, heq, endsDivider_of_bare hbare, hdivider,
        pushAll_congr_bare hbare fun c hc hwhite => ?_]
      rw [head?_tightAll hrest true inside c hc] at hwhite
      cases hwhite
  | false =>
      rw [pushSpace_of_endsDivider hdivider] at heq ⊢
      rw [Bool.false_or]
      cases htakes : takesBefore inside rest with
      | false =>
          refine ⟨padding, hpadding, hinside, ?_⟩
          have hseparator : (Component.token t).isSeparator = false := by
            rw [Component.isSeparator, hkind]
            rfl
          rw [if_neg (by decide), heq, hseparator, Component.tight, pushAll, push, pushToken, hkind]
          dsimp only
          rw [pushSpace_of_endsDivider hdivider]
          rfl
      | true =>
          rw [if_pos rfl]
          cases rest with
          | nil =>
              refine ⟨[.space t.text], Or.inr ⟨_, rfl⟩, fun hfalse => ?_, ?_⟩
              · rw [takesBefore, hfalse] at htakes
                cases htakes
              · simp [pushAll, tightAll, Node.bare]
          | cons c rest =>
              obtain ⟨separator, hseparator⟩ := exists_push_separator htakes
              refine ⟨padding, hpadding, hinside, ?_⟩
              have hc := hrest c rfl
              have htight : c.tight = c := by
                cases c with
                | token => rw [Component.tight]
                | block => cases htakes
              rw [heq, tightAll_cons hc, tightAll_cons hc, htight, pushAll, pushAll, hseparator,
                hseparator, pushDivider_of_endsBlank hnodes]
              exact congrArg (padding ++ ·)
                (pushAll_congr_bare (by simp [pushDivider, Node.bare]) fun _ _ _ => rfl)

theorem IsPadding.isSpace {padding : List Node} (h : IsPadding padding) :
    ∀ n ∈ padding, n.isSpace = true := by
  intro n hn
  obtain ⟨text, rfl⟩ := h.eq_space n hn
  rfl

/-- White space at the ends of the nodes between parentheses makes no difference. -/
theorem bare_callOf_congr {padding leading inside inside' : List Node} (hpadding : IsPadding padding)
    (hleading : IsPadding leading) (hinside : Regular inside)
    (h : bare inside = padding ++ (bare inside' ++ leading)) (name : Text) :
    (callOf name inside).bare = (callOf name inside').bare := by
  have hbare : ∀ nodes : List Node, (nodes.IsChain fun m n => m.meets n = true) ↔
      (bare nodes).IsChain fun m n => m.meets n = true := by
    intro nodes
    rw [bare_eq_map, List.isChain_map]
    simp only [meets_bare]
  have hinside' : inside'.reverse.IsChain fun m n => m.meets n = true := by
    rw [List.isChain_reverse]
    simp only [Node.meets_comm]
    have happart := (hbare inside).mp hinside.apart
    rw [h] at happart
    refine (hbare inside').mpr ?_
    exact List.IsChain.infix happart ⟨padding, leading, by simp⟩
  have hreverse : bare inside.reverse = leading ++ bare inside'.reverse ++ padding := by
    have hreverse : ∀ nodes : List Node, bare nodes.reverse = (bare nodes).reverse := fun nodes => by
      rw [bare_eq_map, bare_eq_map, List.map_reverse]
    rw [hreverse, h, List.reverse_append, List.reverse_append, hpadding.reverse_eq, hleading.reverse_eq,
      hreverse]
  rw [bare_callOf name hinside.reverse.apart, bare_callOf name hinside', hreverse,
    trimmed_append hleading.isSpace hpadding.isSpace]

/-- A function is read as it is read without the white space of separators and parentheses. -/
theorem KeepsBare.callOf {post : Text} {body : List Component} (h : KeepsBare body)
    (hbody : Stands (some .round) post body) (name : Text) :
    (Value.callOf name (pushAll [] body)).bare =
      (Value.callOf name (pushAll [] (tightAll true true body))).bare := by
  have hregular := regular_pushAll hbody .nil nofun
  obtain ⟨padding, hpadding, -, heq⟩ := h [] true nofun
  -- white space at the start is left out in parentheses, and taken by a separator or left elsewhere
  cases body with
  | nil => rw [tightAll]
  | cons c rest =>
      cases hwhite : c.isWhitespace with
      | false =>
          have hhead : ∀ d ∈ (c :: rest).head?, d.isWhitespace = false := fun d hd => by
            rw [← Option.some.inj hd, hwhite]
          refine bare_callOf_congr hpadding (Or.inl rfl) hregular ?_ name
          rw [heq, List.append_nil, tightAll_congr hhead (endsDivider []) true]
      | true =>
          cases hbody with
          | closed | unclosed => cases hwhite
          | @token _ _ t _ stands flat behind =>
          have hkind : t.kind = .whitespace := decide_eq_true_eq.mp hwhite
          have hrest := stands.not_isWhitespace_head hkind behind
          have hseparator : (Component.token t).isSeparator = false := by
            rw [Component.isSeparator, hkind]
            rfl
          have hinside : tightAll true true (.token t :: rest) = tightAll false true rest := by
            rw [tightAll, hwhite, Bool.true_or, Bool.true_and, if_pos rfl, tightAll_congr hrest true false]
          rw [show endsDivider [] = false from rfl, tightAll, hwhite, Bool.false_or, Bool.true_and] at heq
          rw [hinside]
          cases htakes : takesBefore true rest with
          | true =>
              rw [htakes, if_pos rfl] at heq
              exact bare_callOf_congr hpadding (Or.inl rfl) hregular (by rw [heq, List.append_nil]) name
          | false =>
              obtain ⟨leading, hleading, hspace⟩ :=
                exists_bare_pushAll_space t.text (head?_tightAll hrest false true)
              have hpush : pushAll [] (.token t :: tightAll false true rest) =
                  pushAll [.space t.text] (tightAll false true rest) := by
                rw [pushAll, push, pushToken, hkind]
                rfl
              rw [htakes, if_neg (by decide), hseparator, Component.tight, hpush] at heq
              exact bare_callOf_congr hpadding hleading hregular (heq.trans (congrArg _ hspace)) name

theorem KeepsBare.push_block {post : Text} {opening : Opening} {body : List Component}
    (h : KeepsBare body) (hbody : Stands (some opening.brackets) post body) (closed : Bool)
    (nodes : List Node) : bare (push nodes (.block opening body closed)) =
      bare (push nodes (Component.block opening body closed).tight) := by
  rw [Component.tight]
  cases opening with
  | call name =>
      rw [if_pos (show (Opening.call name).brackets = .round from rfl), push, push, bare_cons, bare_cons,
        h.callOf hbody]
  | bracket bracket =>
      cases bracket with
      | round =>
          rw [if_pos (show (Opening.bracket .round).brackets = .round from rfl), push, push]
          unfold pushGroup
          split
          · rw [bare_cons, bare_cons, h.callOf hbody]
          · rw [bare_cons, bare_cons, h.callOf hbody]
      | square => rw [if_neg nofun]
      | curly => rw [if_neg nofun]

theorem keepsBare {enclosing : Option Bracket} {post : Text} {cs : List Component}
    (h : Stands enclosing post cs) : KeepsBare cs := by
  have hnil : KeepsBare [] := fun nodes inside _ =>
    ⟨[], Or.inl rfl, fun _ => rfl, by rw [tightAll, List.nil_append]⟩
  induction h with
  | nil => exact hnil
  | @token _ _ t rest stands flat behind ih =>
      cases hwhite : (Component.token t).isWhitespace with
      | false => exact ih.cons_of_not_isWhitespace hwhite fun nodes => by rw [Component.tight]
      | true =>
          have hkind := decide_eq_true_eq.mp hwhite
          exact ih.cons_whitespace hkind (stands.not_isWhitespace_head hkind behind)
  | closed stands inside behind ihinside ihbehind =>
      exact ihbehind.cons_of_not_isWhitespace rfl (ihinside.push_block inside true)
  | unclosed stands inside ihinside =>
      exact hnil.cons_of_not_isWhitespace rfl (ihinside.push_block inside false)

end Value

/-- The component values of a text without the white space beside separators and at the ends of
parentheses. -/
def Component.tightened (text : Text) : List Component := tightAll false false (ofText text)

namespace Value

/-- The value of a text is, up to the white space of separators and parentheses, that of its component values
without such white space. -/
theorem bare_ofText (text : Text) :
    bare (ofText text) = bare (ofComponents (Component.tightened text)) := by
  obtain ⟨padding, -, hpadding, heq⟩ := keepsBare (Component.stands_ofText text) [] false nofun
  rw [hpadding rfl, List.nil_append] at heq
  rw [ofText, ofComponents, ofComponents, bare_eq_map, bare_eq_map, List.map_reverse, List.map_reverse,
    ← bare_eq_map, ← bare_eq_map, heq]
  rfl

mutual

theorem preorder_node_bare : (n : Node) → n.bare.preorder = n.preorder.map Node.bare
  | .function name before nodes after => by
      simp [Node.bare, Node.preorder, preorder_bare nodes]
  | .word _ | .space _ | .divider .. | .quoted _ | .comment _ => by simp [Node.bare, Node.preorder]

theorem preorder_bare : (value : Value) → preorder (bare value) = (preorder value).map Node.bare
  | [] => by simp [preorder]
  | n :: rest => by simp [preorder, preorder_node_bare n, preorder_bare rest]

end

theorem functionNodes_bare (value : Value) :
    functionNodes (bare value) = (functionNodes value).map Node.bare := by
  have hfunction : (Node.isFunction ∘ Node.bare) = Node.isFunction := by
    funext n
    cases n <;> simp [Node.bare, Node.isFunction]
  rw [functionNodes, functionNodes, preorder_bare, List.filter_map, hfunction]

theorem argumentIndices_bare (nodes : List Node) : argumentIndices (bare nodes) = argumentIndices nodes := by
  have hdivider : ∀ n : Node, n.bare.isDivider = n.isDivider := by
    intro n
    cases n <;> simp [Node.bare, Node.isDivider]
  rw [argumentIndices, argumentIndices, bare_eq_map, List.zipIdx_map, List.filter_map, List.map_map]
  simp only [Function.comp_def, Prod.map_fst, Prod.map_snd, hdivider, id_eq]

end Value

def Node.argumentIndices : Node → List Nat
  | .function _ _ nodes _ => Value.argumentIndices nodes
  | _ => []

namespace Value

theorem argumentIndices_of_bare {value value' : Value} (h : bare value = bare value') :
    value.functions.map Node.argumentIndices = value'.functions.map Node.argumentIndices := by
  have hbare : ∀ value : Value, value.functions.map Node.argumentIndices =
      (functionNodes (bare value)).map Node.argumentIndices := by
    intro value
    have hindices : Node.argumentIndices ∘ Node.bare = Node.argumentIndices := by
      funext n
      cases n <;> simp [Node.bare, Node.argumentIndices, argumentIndices_bare]
    rw [functions_eq_functionNodes, functionNodes_bare, List.map_map, hindices]
  rw [hbare, h, ← hbare]

/-- The nodes that are read from a text keep apart what would be one node, at the top and in every function,
and those of a function have no white space at the ends. So white space beside separators and at the ends of
parentheses does not change which children of a function are its arguments. -/
theorem shape_ofText (text : Text) :
    Regular (ofText text) ∧
    (∀ name before nodes after, .function name before nodes after ∈ (ofText text).preorder →
      Trimmed nodes) ∧
    ∀ text', Component.tightened text' = Component.tightened text →
      (ofText text').functions.map Node.argumentIndices =
        (ofText text).functions.map Node.argumentIndices := by
  refine ⟨regular_ofText text, fun name before nodes after h => trimmed_of_mem_preorder h,
    fun text' htext => argumentIndices_of_bare ?_⟩
  rw [bare_ofText, htext, ← bare_ofText]

example : Component.tightened "a (b /c,)".toList = Component.tightened "a ( b/ c , )".toList := by
  cbv

end Value
end FluidSizing
