import FluidSizing.Proofs.Component.Open
import FluidSizing.Value.Read

/-! Reading a value loses nothing. Each step of the reader adds the text of what it reads at the end of
the nodes, wherever it puts the white space, so the nodes of component values that stand spell them
(`render_pushAll`), but for the closing parentheses of the calls and groups that the text leaves open:
those are written all the same. -/

namespace FluidSizing
namespace Value
open Component (Stands)

theorem render_pushSpace (nodes : List Node) (text : Text) :
    render (pushSpace nodes text).reverse = render nodes.reverse ++ text := by
  unfold pushSpace
  split <;> simp [Node.render]

theorem render_pushDivider (nodes : List Node) (separator : Char) :
    render (pushDivider nodes separator).reverse = render nodes.reverse ++ [separator] := by
  unfold pushDivider
  split <;> simp [Node.render]

theorem render_pushWord (nodes : List Node) (text : Text) :
    render (pushWord nodes text).reverse = render nodes.reverse ++ text := by
  unfold pushWord
  split <;> simp [Node.render]

theorem render_pushToken (nodes : List Node) {t : Token} {rest : Text} (h : t.StandsBefore rest) :
    render (pushToken nodes t).reverse = render nodes.reverse ++ t.text := by
  have hseparator := fun d => h.text_of_separator? (d := d)
  obtain ⟨kind, text⟩ := t
  cases kind with
  | whitespace => exact render_pushSpace nodes text
  | comma => rw [pushToken, render_pushDivider, hseparator ',' rfl]
  | colon => rw [pushToken, render_pushDivider, hseparator ':' rfl]
  | slash => rw [pushToken, render_pushDivider, hseparator '/' rfl]
  | string => simp [pushToken, Node.render]
  | comment => simp [pushToken, Node.render]
  | _ => exact render_pushWord nodes text

theorem append_render_takeSpace (nodes : List Node) :
    (takeSpace nodes).1 ++ render (takeSpace nodes).2 = render nodes := by
  unfold takeSpace
  split <;> simp [Node.render]

theorem render_takeSpace_append (nodes : List Node) :
    render (takeSpace nodes).2.reverse ++ (takeSpace nodes).1 = render nodes.reverse := by
  unfold takeSpace
  split <;> simp [Node.render]

theorem render_callOf (name : Text) (inside : List Node) :
    (callOf name inside).render = name ++ '(' :: (render inside.reverse ++ [')']) := by
  have hbefore := append_render_takeSpace inside.reverse
  have hafter := render_takeSpace_append (takeSpace inside.reverse).2.reverse
  rw [List.reverse_reverse] at hafter
  simp only [callOf, Node.render]
  rw [← hbefore, ← hafter]
  simp

theorem render_pushGroup (nodes inside : List Node) :
    render (pushGroup nodes inside).reverse =
      render nodes.reverse ++ '(' :: (render inside.reverse ++ [')']) := by
  unfold pushGroup
  split <;> simp [render_callOf, Node.render]

/-- A block in parentheses is spelled with its closing parenthesis, any other as it is. -/
theorem render_push_block (nodes : List Node) (opening : Opening) (body : List Component)
    (closed : Bool) :
    render (push nodes (.block opening body closed)).reverse =
      render nodes.reverse ++
        if opening.brackets = .round then
          opening.text ++ (render (pushAll [] body).reverse ++ [')'])
        else Component.source (.block opening body closed) := by
  cases opening with
  | call name => simp [push, render_callOf, Opening.brackets, Opening.text, Bracket.opener]
  | bracket bracket =>
      cases bracket with
      | round => simp [push, render_pushGroup, Opening.brackets, Opening.text, Bracket.opener]
      | square => simp [push, render_pushWord, Opening.brackets]
      | curly => simp [push, render_pushWord, Opening.brackets]

/-- Component values that stand are spelled by the nodes they add, with the parentheses they leave
open closed. -/
theorem render_pushAll {enclosing : Option Bracket} {post : Text} {cs : List Component}
    (h : Stands enclosing post cs) (nodes : List Node) :
    render (pushAll nodes cs).reverse =
      render nodes.reverse ++
        (Component.sources cs ++ List.replicate (Component.openCalls cs) ')') := by
  induction h generalizing nodes with
  | nil => simp [pushAll]
  | token stands _ _ ih =>
      rw [pushAll, push, ih, render_pushToken nodes stands]
      simp [Component.source]
  | @closed enclosing post opening body rest _ inside _ ihbody ih =>
      have hopen := inside.openCalls_eq_zero (List.cons_ne_nil _ _)
      rw [pushAll, ih, render_push_block, ihbody, hopen]
      by_cases hround : opening.brackets = .round
      · simp [Component.source, hround, Bracket.close]
      · simp [hround]
  | @unclosed enclosing opening body _ _ ihbody =>
      rw [pushAll, pushAll, render_push_block, ihbody, Component.openCalls_unclosed]
      by_cases hround : opening.brackets = .round
      · simp [Component.source, hround, List.replicate_succ']
      · simp [hround]

/-- The value of a text spells it, with the calls and groups closed that it leaves open. -/
theorem render_ofText (text : Text) :
    (ofText text).render = text ++ List.replicate (Token.openCalls text) ')' := by
  have h := render_pushAll (Component.stands_ofText text) []
  rw [Component.source_ofText, Component.openCalls_ofText] at h
  exact h

/-- Reading a value and writing it gives the text with the closing parentheses of the calls and groups
that it leaves open, so exactly the texts that leave none open come back as they are. -/
theorem ofText_lossless (text : Text) :
    (ofText text).render = text ++ List.replicate (Token.openCalls text) ')' ∧
      (Token.openCalls text = 0 ↔ (ofText text).render = text) := by
  refine ⟨render_ofText text, ?_⟩
  rw [render_ofText, List.append_right_eq_self, List.replicate_eq_nil_iff]

/-- The innermost of these calls is in a square bracket, and the two others are open. -/
example : Token.openCalls "f((g[h(".toList = 2 := by decide

end Value
end FluidSizing
