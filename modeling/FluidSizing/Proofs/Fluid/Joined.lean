import FluidSizing.Proofs.Component.Joined
import FluidSizing.Proofs.Fluid.Frame
import FluidSizing.Proofs.Value.Arguments

/-! Resolving a value piece by piece. What component values add to the nodes before them depends on these
only through the word that they end with, which a parenthesis makes the name of a function
(`exists_adds_pushAll`). Behind a space there is no such word, so two closed texts with a space between
resolve like each alone (`resolve_compositional`), and a closed text resolves alone as it does between the
parentheses of a call, other than of `clamp`. -/

namespace FluidSizing

namespace Value

theorem resolve_append (settings : Settings) (v w : Value) :
    resolve settings (v ++ w) = resolve settings v ++ resolve settings w := by
  induction v with
  | nil => simp [resolve]
  | cons n v ih => simp [resolve, ih]

/-- Only functions have outcomes. -/
theorem outcomes_filter_isFunction (settings : Settings) (v : Value) :
    outcomes settings (v.filter Node.isFunction) = outcomes settings v := by
  induction v with
  | nil => rfl
  | cons n v ih =>
      by_cases hn : n.isFunction = true
      · rw [List.filter_cons_of_pos hn, outcomes, outcomes, ih]
      · rw [List.filter_cons_of_neg hn, ih, outcomes,
          Node.outcomes_of_not_isFunction (Bool.eq_false_iff.mpr hn), List.nil_append]

theorem resolve_of_spaces (settings : Settings) {v : Value} (h : ∀ n ∈ v, ∃ text, n = .space text) :
    resolve settings v = v ∧ outcomes settings v = [] := by
  induction v with
  | nil => simp [resolve, outcomes]
  | cons n v ih =>
      obtain ⟨⟨text, rfl⟩, hrest⟩ := List.forall_mem_cons.mp h
      obtain ⟨hresolve, houtcomes⟩ := ih hrest
      simp [resolve, outcomes, Node.resolve, Node.outcomes, hresolve, houtcomes]

/-- The text that nodes resolve to, the last node first. -/
def resolvedText (settings : Settings) (nodes : List Node) : Text :=
  render (resolve settings nodes.reverse)

variable {settings : Settings} {nodes nodes' : List Node}

@[simp] theorem resolvedText_nil : resolvedText settings [] = [] := by simp [resolvedText, resolve]

@[simp] theorem resolvedText_cons (n : Node) :
    resolvedText settings (n :: nodes) = resolvedText settings nodes ++ (n.resolve settings).render := by
  simp [resolvedText, resolve_append, resolve]

/-- What component values add to the nodes before them: functions, the last one first, the text that they
resolve to, and the word that the nodes end with then. -/
structure Addition where
  functions : List Node
  text : Text
  word : Option Text

/-- Nodes become others through an addition. -/
structure Adds (settings : Settings) (added : Addition) (nodes nodes' : List Node) : Prop where
  functions : nodes'.filter Node.isFunction = added.functions ++ nodes.filter Node.isFunction
  text : resolvedText settings nodes' = resolvedText settings nodes ++ added.text
  word : lastWord nodes' = added.word

theorem Adds.trans {first second : Addition} {nodes'' : List Node} (h : Adds settings first nodes nodes')
    (h' : Adds settings second nodes' nodes'') :
    Adds settings ⟨second.functions ++ first.functions, first.text ++ second.text, second.word⟩
      nodes nodes'' where
  functions := by rw [h'.functions, h.functions, List.append_assoc]
  text := by rw [h'.text, h.text, List.append_assoc]
  word := h'.word

theorem adds_cons {n : Node} {text : Text} {word : Option Text} (hn : n.isFunction = false)
    (htext : n.render = text) (hword : n.word? = word) :
    Adds settings ⟨[], text, word⟩ nodes (n :: nodes) where
  functions := by simp [hn]
  text := by rw [resolvedText_cons, Node.resolve_of_not_isFunction hn, htext]
  word := hword

/-- The last node goes on. -/
theorem adds_extended {n m : Node} {text : Text} {word : Option Text} (hn : n.isFunction = false)
    (hm : m.isFunction = false) (htext : m.render = n.render ++ text) (hword : m.word? = word) :
    Adds settings ⟨[], text, word⟩ (n :: nodes) (m :: nodes) where
  functions := by simp [hn, hm]
  text := by
    rw [resolvedText_cons, resolvedText_cons, Node.resolve_of_not_isFunction hn,
      Node.resolve_of_not_isFunction hm, htext, List.append_assoc]
  word := hword

theorem adds_pushSpace (nodes : List Node) (text : Text) :
    Adds settings ⟨[], text, none⟩ nodes (pushSpace nodes text) := by
  unfold pushSpace
  split
  · exact adds_extended rfl rfl (by simp [Node.render]) rfl
  · exact adds_cons rfl (by simp [Node.render]) rfl

theorem adds_pushDivider (nodes : List Node) (separator : Char) :
    Adds settings ⟨[], [separator], none⟩ nodes (pushDivider nodes separator) := by
  unfold pushDivider
  split
  · exact adds_extended rfl rfl (by simp [Node.render]) rfl
  · exact adds_cons rfl (by simp [Node.render]) rfl

theorem adds_pushWord {word : Option Text} (hword : lastWord nodes = word) (text : Text) :
    Adds settings ⟨[], text, some (word.getD [] ++ text)⟩ nodes (pushWord nodes text) := by
  subst hword
  unfold pushWord
  split
  · exact adds_extended rfl rfl (by simp [Node.render]) rfl
  · rename_i hword
    rw [lastWord_eq_none hword]
    exact adds_cons rfl (by simp [Node.render]) rfl

/-- What a function resolves to starts with its name and a parenthesis. -/
theorem exists_render_resolve_callOf (settings : Settings) (name : Text) (inside : List Node) :
    ∃ text, ((callOf name inside).resolve settings).render = name ++ '(' :: text := by
  obtain ⟨leading, children, trailing, hcall, -⟩ := callOf_eq name inside
  rw [hcall]
  rcases Node.resolve_function settings name (render leading) children (render trailing) with
    ⟨_, _, _, -, -, hresolve, -⟩ | ⟨-, hresolve, -⟩ <;>
  · rw [hresolve, Node.render]
    simp

theorem adds_callOf (nodes : List Node) (name : Text) (inside : List Node) :
    Adds settings ⟨[callOf name inside], ((callOf name inside).resolve settings).render, none⟩ nodes
      (callOf name inside :: nodes) where
  functions := rfl
  text := resolvedText_cons _
  word := rfl

/-- A group is a function, and the word before it is its name. -/
theorem adds_pushGroup {name text : Text} (hname : (lastWord nodes).getD [] = name) {inside : List Node}
    (htext : ((callOf name inside).resolve settings).render = name ++ text) :
    Adds settings ⟨[callOf name inside], text, none⟩ nodes (pushGroup nodes inside) := by
  unfold pushGroup
  split
  · rename_i front rest
    obtain rfl : front = name := hname
    refine ⟨rfl, ?_, rfl⟩
    calc resolvedText settings (callOf front inside :: rest)
        = resolvedText settings rest ++ (front ++ text) := by rw [resolvedText_cons, htext]
      _ = resolvedText settings (.word front :: rest) ++ text := by
          simp [Node.resolve, Node.render]
  · rename_i hword
    rw [lastWord_eq_none hword] at hname
    obtain rfl : [] = name := hname
    refine ⟨rfl, ?_, rfl⟩
    rw [resolvedText_cons, htext, List.nil_append]

/-- What a component value adds depends on the nodes before it only through the word they end with. -/
theorem exists_adds_push (settings : Settings) (word : Option Text) (c : Component) :
    ∃ added, ∀ nodes, lastWord nodes = word → Adds settings added nodes (push nodes c) := by
  cases c with
  | token t =>
      obtain ⟨kind, text⟩ := t
      simp only [push]
      cases kind with
      | whitespace => exact ⟨_, fun nodes _ => adds_pushSpace nodes text⟩
      | comma => exact ⟨_, fun nodes _ => adds_pushDivider nodes ','⟩
      | colon => exact ⟨_, fun nodes _ => adds_pushDivider nodes ':'⟩
      | slash => exact ⟨_, fun nodes _ => adds_pushDivider nodes '/'⟩
      | string => exact ⟨_, fun nodes _ => adds_cons (n := .quoted text) rfl rfl rfl⟩
      | comment => exact ⟨_, fun nodes _ => adds_cons (n := .comment text) rfl rfl rfl⟩
      | _ => exact ⟨_, fun nodes hword => adds_pushWord hword text⟩
  | block opening body closed =>
      have hword : ∃ added, ∀ nodes, lastWord nodes = word → Adds settings added nodes
          (pushWord nodes (Component.source (.block opening body closed))) :=
        ⟨_, fun nodes hword => adds_pushWord hword _⟩
      cases opening with
      | call name =>
          simp only [push]
          exact ⟨_, fun nodes _ => adds_callOf nodes name (pushAll [] body)⟩
      | bracket bracket =>
          cases bracket with
          | round =>
              obtain ⟨text, htext⟩ :=
                exists_render_resolve_callOf settings (word.getD []) (pushAll [] body)
              simp only [push]
              exact ⟨_, fun nodes hword => adds_pushGroup (by rw [hword]) htext⟩
          | square => simpa only [push] using hword
          | curly => simpa only [push] using hword

/-- What component values add depends on the nodes before them only through the word these end with. -/
theorem exists_adds_pushAll (settings : Settings) (word : Option Text) (cs : List Component) :
    ∃ added, ∀ nodes, lastWord nodes = word → Adds settings added nodes (pushAll nodes cs) := by
  induction cs generalizing word with
  | nil =>
      refine ⟨⟨[], [], word⟩, fun nodes hword => ?_⟩
      rw [pushAll]
      exact ⟨rfl, by simp, hword⟩
  | cons c cs ih =>
      obtain ⟨first, hfirst⟩ := exists_adds_push settings word c
      obtain ⟨second, hsecond⟩ := ih first.word
      refine ⟨⟨second.functions ++ first.functions, first.text ++ second.text, second.word⟩, ?_⟩
      intro nodes hword
      have hadds := hfirst nodes hword
      rw [pushAll]
      exact hadds.trans (hsecond _ hadds.word)

theorem adds_blanks (settings : Settings) (nodes : List Node) (text : Text) :
    Adds settings ⟨[], text, if text = [] then lastWord nodes else none⟩ nodes
      (pushAll nodes (Component.blanks text)) := by
  cases text with
  | nil =>
      simp only [Component.blanks, pushAll]
      exact ⟨rfl, by simp, rfl⟩
  | cons c text =>
      simp only [Component.blanks, pushAll, push]
      exact adds_pushSpace nodes (c :: text)

/-- Nodes of component values behind others and a space: the text is that of both with the white space
between, and the functions are those of both. -/
theorem pushAll_joined (settings : Settings) (cs ds : List Component) (blank leading : Text) :
    let front := pushAll [] (cs ++ Component.blanks blank)
    let behind := pushAll [] (Component.blanks leading ++ ds)
    let all := pushAll [] (cs ++ (Component.blanks (blank ++ ' ' :: leading) ++ ds))
    all.filter Node.isFunction = behind.filter Node.isFunction ++ front.filter Node.isFunction ∧
      resolvedText settings all = resolvedText settings front ++ ' ' :: resolvedText settings behind := by
  dsimp only
  simp only [pushAll_append]
  obtain ⟨added, hadded⟩ := exists_adds_pushAll settings none ds
  have hfront := adds_blanks settings (pushAll [] cs) blank
  have hmiddle := adds_blanks settings (pushAll [] cs) (blank ++ ' ' :: leading)
  have hleading := adds_blanks settings [] leading
  -- behind white space, and at the start, no word is left that could become a name
  have hall := hadded _ (hmiddle.word.trans (if_neg (by simp)))
  have hbehind := hadded _ (hleading.word.trans (ite_self none))
  constructor
  · rw [hall.functions, hmiddle.functions, hbehind.functions, hleading.functions, hfront.functions]
    simp
  · rw [hall.text, hmiddle.text, hbehind.text, hleading.text, hfront.text]
    simp

/-- The value of a closed text and another one behind a space: resolved, it is written as both are, and
what is decided about it is what is decided about both. -/
theorem resolve_ofText_joined (settings : Settings) {text : Text} (h : text.Closed) (behind : Text) :
    ((ofText (text ++ ' ' :: behind)).resolve settings).render =
        ((ofText text).resolve settings).render ++ ' ' :: ((ofText behind).resolve settings).render ∧
      (ofText (text ++ ' ' :: behind)).outcomes settings =
        (ofText text).outcomes settings ++ (ofText behind).outcomes settings := by
  obtain ⟨cs, blank, leading, ds, hcs, hds, hread⟩ := Component.ofText_joined h behind
  obtain ⟨hfunctions, htext⟩ := pushAll_joined settings cs ds blank leading
  rw [← hcs, ← hds, ← hread] at hfunctions htext
  refine ⟨htext, ?_⟩
  have hdecided : ∀ text : Text, (ofText text).outcomes settings =
      outcomes settings ((pushAll [] (Component.ofText text)).filter Node.isFunction).reverse := by
    intro text
    rw [← List.filter_reverse, outcomes_filter_isFunction]
    rfl
  rw [hdecided, hfunctions, List.reverse_append, outcomes_append, ← hdecided, ← hdecided]

/-- The value of a closed text between the parentheses of a call is one function. -/
theorem ofText_call {name text : Text} (hname : ∀ c ∈ name, c.isLower = true)
    (hurl : name ≠ ['u', 'r', 'l']) (h : text.Closed)
    (hmatched : ∀ t, Component.token t ∈ Component.ofText text → t.kind ≠ .closing .round) :
    ofText (name ++ '(' :: (text ++ [')'])) = [callOf name (pushAll [] (Component.ofText text))] := by
  obtain ⟨opening, hopening, hread⟩ := Component.ofText_call hname hurl h hmatched
  rw [ofText, ofComponents, hread, pushAll, pushAll]
  cases opening with
  | call name' =>
      obtain rfl : name' = name := List.append_cancel_right hopening
      simp [push]
  | bracket bracket =>
      have hnil : name = [] := by
        cases name with
        | nil => rfl
        | cons c rest => simp [Opening.text] at hopening
      subst hnil
      cases bracket with
      | round => simp [push, pushGroup]
      | square => cases hopening
      | curly => cases hopening

/-- It resolves to what the text resolves to between the parentheses, if the call is none of `clamp`. -/
theorem resolve_ofText_call (settings : Settings) {name text : Text}
    (hname : ∀ c ∈ name, c.isLower = true) (hclamp : name ≠ clampName) (hurl : name ≠ ['u', 'r', 'l'])
    (h : text.Closed)
    (hmatched : ∀ t, Component.token t ∈ Component.ofText text → t.kind ≠ .closing .round) :
    ((ofText (name ++ '(' :: (text ++ [')']))).resolve settings).render =
        name ++ '(' :: (((ofText text).resolve settings).render ++ [')']) ∧
      (ofText (name ++ '(' :: (text ++ [')']))).outcomes settings = (ofText text).outcomes settings := by
  obtain ⟨leading, children, trailing, hcall, hinside, hspaces⟩ :=
    callOf_eq name (pushAll [] (Component.ofText text))
  have hbody : ofText text = leading ++ children ++ trailing := hinside
  obtain ⟨hleading, hnone⟩ := resolve_of_spaces settings fun n hn =>
    hspaces n (List.mem_append_left trailing hn)
  obtain ⟨htrailing, hnone'⟩ := resolve_of_spaces settings fun n hn =>
    hspaces n (List.mem_append_right leading hn)
  have hown : Node.ownOutcomes settings name children = [] := if_neg hclamp
  have hkept : (Node.ownOutcomes settings name children).any ClampOutcome.isRewrite = false := by
    rw [hown]
    rfl
  obtain ⟨hresolve, houtcomes⟩ := Node.resolve_kept hkept (render leading) (render trailing)
  rw [ofText_call hname hurl h hmatched, hcall]
  constructor
  · rw [resolve, hresolve, hbody, resolve_append, resolve_append, hleading, htrailing]
    simp [resolve, Node.render]
  · rw [outcomes, houtcomes, hown, hbody, outcomes_append, outcomes_append, hnone, hnone']
    simp [outcomes]

end Value

namespace Resolution

variable (settings : Settings) {text : Text}

theorem isChanged_resolve (text : Text) : (resolve settings text).isChanged =
    ((Value.ofText text).outcomes settings).any ClampOutcome.isRewrite := by
  rw [isChanged, resolve_value]
  split <;> simp_all

/-- A text that leaves no call open is written as its resolved value, whether or not a call is
replaced. -/
theorem valueOr_resolve (h : Token.openCalls text = 0) :
    (resolve settings text).valueOr text = ((Value.ofText text).resolve settings).render := by
  rw [valueOr, resolve_value]
  split
  · rfl
  · rename_i hany
    obtain ⟨ps, hps⟩ := Value.exists_decomposed settings (Value.ofText text)
    have hkept : ps.any Part.isReplaced = false := by rw [hps.any_eq, Bool.eq_false_iff.mpr hany]
    calc text = (Value.ofText text).render := by simp [Value.render_ofText, h]
      _ = ps.flatMap Part.old := hps.old_eq.symm
      _ = ps.flatMap Part.new := (Part.flatMap_new_eq_old hkept).symm
      _ = ((Value.ofText text).resolve settings).render := hps.new_eq

end Resolution

/-- Resolution is compositional. A closed text, a space and a closed text resolve to what both resolve to
with the space between; they are changed if one of them is, and what is reported is what is reported about
the first and then about the second. A closed text without an unmatched closing parenthesis resolves alone
as it does between the parentheses of a call, other than of `clamp` and of `url`, and of a group. -/
theorem resolve_compositional (settings : Settings) :
    (∀ u v : Text, u.Closed → v.Closed →
      (resolve settings (u ++ ' ' :: v)).valueOr (u ++ ' ' :: v) =
          (resolve settings u).valueOr u ++ ' ' :: (resolve settings v).valueOr v ∧
        (resolve settings (u ++ ' ' :: v)).isChanged =
          ((resolve settings u).isChanged || (resolve settings v).isChanged) ∧
        (resolve settings (u ++ ' ' :: v)).diagnostics =
          (resolve settings u).diagnostics ++ (resolve settings v).diagnostics) ∧
    (∀ name v : Text, (∀ c ∈ name, c.isLower = true) → name ≠ clampName → name ≠ ['u', 'r', 'l'] →
      v.Closed → (∀ t, Component.token t ∈ Component.ofText v → t.kind ≠ .closing .round) →
      (resolve settings (name ++ '(' :: (v ++ [')']))).valueOr (name ++ '(' :: (v ++ [')'])) =
          name ++ '(' :: ((resolve settings v).valueOr v ++ [')']) ∧
        (resolve settings (name ++ '(' :: (v ++ [')']))).isChanged = (resolve settings v).isChanged ∧
        (resolve settings (name ++ '(' :: (v ++ [')']))).diagnostics =
          (resolve settings v).diagnostics) := by
  have hvalue : ∀ text : Text, text.Closed → (resolve settings text).valueOr text =
      ((Value.ofText text).resolve settings).render := fun text h =>
    Resolution.valueOr_resolve settings (Component.openCalls_of_closed h)
  constructor
  · intro u v hu hv
    obtain ⟨htext, houtcomes⟩ := Value.resolve_ofText_joined settings hu v
    refine ⟨?_, ?_, ?_⟩
    · rw [hvalue _ (hu.joined hv), hvalue u hu, hvalue v hv, htext]
    · simp only [Resolution.isChanged_resolve, houtcomes, List.any_append]
    · simp only [resolve, houtcomes, List.filterMap_append]
      split <;> rfl
  · intro name v hname hclamp hurl hv hmatched
    obtain ⟨htext, houtcomes⟩ := Value.resolve_ofText_call settings hname hclamp hurl hv hmatched
    refine ⟨?_, ?_, ?_⟩
    · rw [hvalue _ (hv.call hname hurl hmatched), hvalue v hv, htext]
    · simp only [Resolution.isChanged_resolve, houtcomes]
    · simp only [resolve, houtcomes]

/-- Two calls in a row and in a call of `max`. -/
theorem resolve_compositional_max :
    let call : Text := "clamp(1px,@fluid(),2px)".toList
    (resolve .default (call ++ ' ' :: call)).valueOr (call ++ ' ' :: call) =
        (resolve .default call).valueOr call ++ ' ' :: (resolve .default call).valueOr call ∧
      (resolve .default ("max".toList ++ '(' :: (call ++ [')']))).isChanged =
        (resolve .default call).isChanged := by
  intro call
  have hread : Component.ofText call = [.block (.call "clamp".toList)
      [.token ⟨.other, "1px".toList⟩, .token ⟨.comma, [',']⟩, .token ⟨.atKeyword, "@fluid".toList⟩,
        .block (.bracket .round) [] true, .token ⟨.comma, [',']⟩, .token ⟨.other, "2px".toList⟩] true] := by
    rfl
  have hclosed : call.Closed := ⟨by rw [hread]; rintro c ⟨⟩; rfl, by decide⟩
  obtain ⟨hjoined, hcall⟩ := resolve_compositional .default
  refine ⟨(hjoined call call hclosed hclosed).1, ?_⟩
  refine (hcall "max".toList call (List.all_eq_true.mp (by decide)) (by decide) (by decide) hclosed ?_).2.1
  rw [hread]
  simp

end FluidSizing
