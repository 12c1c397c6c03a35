import FluidSizing.Proofs.Component.Standing
import FluidSizing.Value.Read

/-! Which functions are read. A function among the nodes of component values is made of a block of them
in parentheses (`mem_push`), so it is read from component values that stand (`fromBlock_pushAll`), and
its children are among the nodes of that block. -/

namespace FluidSizing
namespace Value
open Component (Stands)

/-- The white space of parentheses: one node at most. -/
def IsPadding (nodes : List Node) : Prop := nodes = [] ∨ ∃ text, nodes = [.space text]

theorem IsPadding.reverse_eq {nodes : List Node} (h : IsPadding nodes) : nodes.reverse = nodes := by
  rcases h with rfl | ⟨text, rfl⟩ <;> rfl

theorem IsPadding.eq_space {nodes : List Node} (h : IsPadding nodes) :
    ∀ n ∈ nodes, ∃ text, n = .space text := by
  rcases h with rfl | ⟨text, rfl⟩ <;> simp

theorem exists_takeSpace (nodes : List Node) :
    ∃ padding : List Node, IsPadding padding ∧ (takeSpace nodes).1 = render padding ∧
      nodes = padding ++ (takeSpace nodes).2 := by
  unfold takeSpace
  split
  · rename_i text rest
    exact ⟨[.space text], Or.inr ⟨text, rfl⟩, by simp [Node.render], rfl⟩
  · exact ⟨[], Or.inl rfl, by simp, rfl⟩

theorem takeSpace_padding {padding nodes : List Node} (h : IsPadding padding) (hne : nodes ≠ [])
    (hnodes : ∀ n ∈ nodes, ∀ text, n ≠ .space text) (back : List Node) :
    takeSpace (padding ++ (nodes ++ back)) = (render padding, nodes ++ back) := by
  obtain ⟨n, rest, rfl⟩ := List.exists_cons_of_ne_nil hne
  rcases h with rfl | ⟨text, rfl⟩
  · cases n with
    | space text => exact absurd rfl (hnodes _ List.mem_cons_self text)
    | _ => simp [takeSpace]
  · simp [takeSpace, Node.render]

/-- A function is read with the white space at the ends of its nodes in its parentheses. -/
theorem exists_callOf (name : Text) (inside : List Node) :
    ∃ leading nodes trailing : List Node,
      callOf name inside = .function name (render leading) nodes (render trailing) ∧
        inside.reverse = leading ++ nodes ++ trailing ∧ IsPadding leading ∧ IsPadding trailing := by
  obtain ⟨leading, hleading, hbefore, hfront⟩ := exists_takeSpace inside.reverse
  obtain ⟨trailing, htrailing, hafter, hback⟩ := exists_takeSpace (takeSpace inside.reverse).2.reverse
  refine ⟨leading, (takeSpace (takeSpace inside.reverse).2.reverse).2.reverse, trailing, ?_, ?_,
    hleading, htrailing⟩
  · rw [← hbefore, ← hafter]
    rfl
  · rw [List.append_assoc]
    conv_rhs => rw [← htrailing.reverse_eq, ← List.reverse_append, ← hback, List.reverse_reverse,
      ← hfront]

/-- Nodes without white space of their own are the children, with such white space around them. -/
theorem callOf_padding {leading nodes trailing : List Node} (hleading : IsPadding leading)
    (htrailing : IsPadding trailing) (hne : nodes ≠ [])
    (hnodes : ∀ n ∈ nodes, ∀ text, n ≠ .space text) (name : Text) :
    callOf name (leading ++ nodes ++ trailing).reverse =
      .function name (render leading) nodes (render trailing) := by
  have hne' : nodes.reverse ≠ [] := fun hnil => hne (List.reverse_eq_nil_iff.mp hnil)
  have hnodes' : ∀ n ∈ nodes.reverse, ∀ text, n ≠ .space text := fun n hn =>
    hnodes n (List.mem_reverse.mp hn)
  have hend := takeSpace_padding htrailing hne' hnodes' []
  rw [List.append_nil] at hend
  have hreverse : (nodes ++ trailing).reverse = trailing ++ nodes.reverse := by
    rw [List.reverse_append, htrailing.reverse_eq]
  simp only [callOf, List.reverse_reverse, List.append_assoc,
    takeSpace_padding hleading hne hnodes trailing, hreverse, hend]

theorem callOf_eq (name : Text) (inside : List Node) :
    ∃ leading nodes trailing : List Node,
      callOf name inside = .function name (render leading) nodes (render trailing) ∧
        inside.reverse = leading ++ nodes ++ trailing ∧
        ∀ n ∈ leading ++ trailing, ∃ text, n = .space text := by
  obtain ⟨leading, nodes, trailing, hcall, hreverse, hleading, htrailing⟩ := exists_callOf name inside
  exact ⟨leading, nodes, trailing, hcall, hreverse,
    List.forall_mem_append.mpr ⟨hleading.eq_space, htrailing.eq_space⟩⟩

/-- The children of a function that is read from a block are among the nodes of the block. -/
theorem mem_of_callOf_eq {name name' before after : Text} {inside nodes : List Node}
    (h : callOf name inside = .function name' before nodes after) :
    name' = name ∧ ∀ n ∈ nodes, n ∈ inside := by
  obtain ⟨leading, children, trailing, hcall, hreverse, -⟩ := callOf_eq name inside
  rw [hcall] at h
  obtain ⟨rfl, -, rfl, -⟩ := Node.function.inj h
  refine ⟨rfl, fun n hn => List.mem_reverse.mp ?_⟩
  rw [hreverse]
  exact List.mem_append_left _ (List.mem_append_right _ hn)

theorem mem_of_mem_cons_leaf {m n : Node} {nodes : List Node} (hm : m.isFunction = false)
    (hn : n ∈ m :: nodes) (hfunction : n.isFunction = true) : n ∈ nodes := by
  rcases List.mem_cons.mp hn with rfl | hn
  · rw [hm] at hfunction
    cases hfunction
  · exact hn

theorem mem_pushToken {nodes : List Node} {t : Token} {n : Node} (hn : n ∈ pushToken nodes t)
    (hfunction : n.isFunction = true) : n ∈ nodes := by
  have hspace : n ∈ pushSpace nodes t.text → n ∈ nodes := by
    unfold pushSpace
    split
    · exact fun h => List.mem_cons_of_mem _ (mem_of_mem_cons_leaf rfl h hfunction)
    · exact fun h => mem_of_mem_cons_leaf rfl h hfunction
  have hdivider : ∀ separator, n ∈ pushDivider nodes separator → n ∈ nodes := by
    intro separator
    unfold pushDivider
    split
    · exact fun h => List.mem_cons_of_mem _ (mem_of_mem_cons_leaf rfl h hfunction)
    · exact fun h => mem_of_mem_cons_leaf rfl h hfunction
  have hword : n ∈ pushWord nodes t.text → n ∈ nodes := by
    unfold pushWord
    split
    · exact fun h => List.mem_cons_of_mem _ (mem_of_mem_cons_leaf rfl h hfunction)
    · exact fun h => mem_of_mem_cons_leaf rfl h hfunction
  unfold pushToken at hn
  split at hn
  · exact hspace hn
  · exact hdivider _ hn
  · exact hdivider _ hn
  · exact hdivider _ hn
  · exact mem_of_mem_cons_leaf rfl hn hfunction
  · exact mem_of_mem_cons_leaf rfl hn hfunction
  · exact hword hn

/-- A function among the nodes was there before or is made of the block that is read. -/
theorem mem_push {nodes : List Node} {c : Component} {n : Node} (hn : n ∈ push nodes c)
    (hfunction : n.isFunction = true) :
    n ∈ nodes ∨ ∃ name opening body closed, c = .block opening body closed ∧
      (opening = .call name ∨ opening = .bracket .round) ∧ n = callOf name (pushAll [] body) := by
  cases c with
  | token t =>
      rw [push] at hn
      exact Or.inl (mem_pushToken hn hfunction)
  | block opening body closed =>
      rw [push.eq_def] at hn
      dsimp only at hn
      split at hn
      · rename_i name
        rcases List.mem_cons.mp hn with rfl | hn
        · exact Or.inr ⟨name, _, body, closed, rfl, Or.inl rfl, rfl⟩
        · exact Or.inl hn
      · unfold pushGroup at hn
        split at hn
        · rename_i name rest
          rcases List.mem_cons.mp hn with rfl | hn
          · exact Or.inr ⟨name, _, body, closed, rfl, Or.inr rfl, rfl⟩
          · exact Or.inl (List.mem_cons_of_mem _ hn)
        · rcases List.mem_cons.mp hn with rfl | hn
          · exact Or.inr ⟨[], _, body, closed, rfl, Or.inr rfl, rfl⟩
          · exact Or.inl hn
      · unfold pushWord at hn
        split at hn
        · exact Or.inl (List.mem_cons_of_mem _ (mem_of_mem_cons_leaf rfl hn hfunction))
        · exact Or.inl (mem_of_mem_cons_leaf rfl hn hfunction)

theorem mem_pushAll {nodes : List Node} {cs : List Component} {n : Node} (hn : n ∈ pushAll nodes cs)
    (hfunction : n.isFunction = true) :
    n ∈ nodes ∨ ∃ name opening body closed, .block opening body closed ∈ cs ∧
      (opening = .call name ∨ opening = .bracket .round) ∧ n = callOf name (pushAll [] body) := by
  induction cs generalizing nodes with
  | nil => exact Or.inl (by simpa [pushAll] using hn)
  | cons c cs ih =>
      rw [pushAll] at hn
      rcases ih hn with hmem | ⟨name, opening, body, closed, hmem, hopening, hcall⟩
      · rcases mem_push hmem hfunction with hmem | ⟨name, opening, body, closed, rfl, hopening, hcall⟩
        · exact Or.inl hmem
        · exact Or.inr ⟨name, opening, body, closed, List.mem_cons_self, hopening, hcall⟩
      · exact Or.inr ⟨name, opening, body, closed, List.mem_cons_of_mem c hmem, hopening, hcall⟩

/-- A function that is read from component values which stand inside parentheses. -/
def FromBlock (n : Node) : Prop :=
  ∃ name post body, Stands (some .round) post body ∧ n = callOf name (pushAll [] body)

theorem fromBlock_pushAll {enclosing : Option Bracket} {post : Text} {cs : List Component}
    (h : Stands enclosing post cs) {nodes : List Node}
    (hnodes : ∀ n ∈ nodes, n.isFunction = true → FromBlock n) :
    ∀ n ∈ pushAll nodes cs, n.isFunction = true → FromBlock n := by
  induction h generalizing nodes with
  | nil => simpa [pushAll] using hnodes
  | token _ _ _ ih =>
      rw [pushAll]
      apply ih
      intro n hn hfunction
      rcases mem_push hn hfunction with hmem | ⟨_, _, _, _, hc, -⟩
      · exact hnodes n hmem hfunction
      · cases hc
  | closed _ inside _ _ ih =>
      rw [pushAll]
      apply ih
      intro n hn hfunction
      rcases mem_push hn hfunction with hmem | ⟨name, _, _, _, hc, hround, rfl⟩
      · exact hnodes n hmem hfunction
      · cases hc
        rcases hround with rfl | rfl <;> exact ⟨name, _, _, inside, rfl⟩
  | unclosed _ inside _ =>
      rw [pushAll, pushAll]
      intro n hn hfunction
      rcases mem_push hn hfunction with hmem | ⟨name, _, _, _, hc, hround, rfl⟩
      · exact hnodes n hmem hfunction
      · cases hc
        rcases hround with rfl | rfl <;> exact ⟨name, _, _, inside, rfl⟩

/-- A node stands somewhere in a value, behind a text of the written form. -/
inductive HasAt : Value → Text → Node → Prop where
  | here (n : Node) (rest : List Node) : HasAt (n :: rest) [] n
  | behind (m : Node) {rest : List Node} {front : Text} {n : Node} (later : HasAt rest front n) :
      HasAt (m :: rest) (m.render ++ front) n
  | inside (name before : Text) {nodes : List Node} (after : Text) (rest : List Node) {front : Text}
      {n : Node} (deeper : HasAt nodes front n) :
      HasAt (.function name before nodes after :: rest) (name ++ '(' :: (before ++ front)) n

theorem HasAt.render_eq {value : Value} {front : Text} {n : Node} (h : value.HasAt front n) :
    ∃ back, value.render = front ++ (n.render ++ back) := by
  induction h with
  | here n rest => exact ⟨render rest, by simp⟩
  | behind m _ ih =>
      obtain ⟨back, hback⟩ := ih
      exact ⟨back, by simp [hback]⟩
  | inside name before after rest _ ih =>
      obtain ⟨back, hback⟩ := ih
      exact ⟨back ++ after ++ ')' :: render rest, by simp [Node.render, hback]⟩

theorem HasAt.fromBlock {value : Value} {front : Text} {n : Node} (h : value.HasAt front n)
    (hvalue : ∀ m ∈ value, m.isFunction = true → FromBlock m) (hn : n.isFunction = true) :
    FromBlock n := by
  induction h with
  | here n rest => exact hvalue n List.mem_cons_self hn
  | behind m _ ih => exact ih (fun k hk => hvalue k (List.mem_cons_of_mem m hk)) hn
  | inside name before after rest _ ih =>
      apply ih ?_ hn
      intro m hm hfunction
      obtain ⟨name', post, body, hbody, hcall⟩ := hvalue _ List.mem_cons_self rfl
      have hmem := (mem_of_callOf_eq hcall.symm).2 m hm
      exact fromBlock_pushAll hbody (by simp) m hmem hfunction

/-- Every function of the value of a text is read from a block of it. -/
theorem HasAt.fromBlock_ofText {text front : Text} {n : Node} (h : (ofText text).HasAt front n)
    (hn : n.isFunction = true) : FromBlock n := by
  apply h.fromBlock ?_ hn
  intro m hm hfunction
  exact fromBlock_pushAll (Component.stands_ofText text) (by simp) m (List.mem_reverse.mp hm) hfunction

end Value
end FluidSizing
