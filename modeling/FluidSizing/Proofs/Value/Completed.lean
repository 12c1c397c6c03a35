import FluidSizing.Proofs.Token.Ended
import FluidSizing.Proofs.Value.Lossless
import FluidSizing.Proofs.Value.Words
import Mathlib.Logic.Function.Iterate

/-! Closing what a text leaves open. If the last token of a text takes no closing parenthesis, those put
behind the text are tokens of their own (`Token.tokenize_append_fenced`), and each of them closes the
innermost open block. Where all open blocks are calls and groups the nodes are the same with and without
them (`Value.pushAll_finish_closers`): how its parentheses end has no part in what a call is. -/

namespace FluidSizing

namespace Token

theorem tokenize_ne_nil {text : Text} (h : text ≠ []) : tokenize text ≠ [] := by
  obtain ⟨c, rest, rfl⟩ := List.exists_cons_of_ne_nil h
  rw [tokenize_cons]
  exact List.cons_ne_nil _ _

/-- A text is read apart from what starts with a fence if its last token is. -/
theorem tokenize_append_fenced {post : Text} (hpost : Fenced post) {text : Text}
    (hlast : ∀ t ∈ (tokenize text).getLast?, t.StandsBefore [] → t.StandsBefore post) :
    tokenize (text ++ post) = tokenize text ++ tokenize post := by
  induction hlen : text.length using Nat.strongRecOn generalizing text with
  | ind n ih =>
      cases text with
      | nil => rfl
      | cons c text =>
          obtain ⟨t, rest, htext, hstands⟩ := exists_standsBefore c text
          rw [htext, hstands.tokenize] at hlast ⊢
          rw [List.append_assoc, List.cons_append]
          by_cases hrest : rest = []
          · subst hrest
            rw [List.nil_append, (hlast t rfl hstands).tokenize]
            rfl
          · have hlt : rest.length < n := by
              have hpos := List.length_pos_iff.mpr hstands.text_ne_nil
              rw [← hlen, htext, List.length_append]
              omega
            rw [← List.append_nil rest] at hstands
            have hahead := hstands.fenced fenced_nil hpost (by simpa using hrest)
            rw [List.getLast?_cons_of_ne_nil (tokenize_ne_nil hrest)] at hlast
            rw [hahead.tokenize, ih rest.length hlt hlast rfl]

/-- The last token of a text ends as the text does. -/
theorem getLast?_of_mem_getLast? {text : Text} {t : Token} (ht : t ∈ (tokenize text).getLast?)
    {c : Char} (hc : t.text.getLast? = some c) : text.getLast? = some c := by
  obtain ⟨front, hfront⟩ := List.getLast?_eq_some_iff.mp ht
  rw [← spelling_tokenize text, hfront, spelling, List.flatMap_append, List.getLast?_append]
  simp [hc]

def closer : Token := ⟨.closing .round, [Bracket.round.close]⟩

theorem tokenize_closers (count : Nat) :
    tokenize (List.replicate count ')') = List.replicate count closer := by
  induction count with
  | zero => rfl
  | succ count ih =>
      have hclose := (standsBefore_close .round (List.replicate count ')')).tokenize
      rw [List.singleton_append, ih] at hclose
      exact hclose

end Token

namespace Component

/-- The brackets of open blocks. -/
def Builder.brackets (builder : Builder) : List Bracket :=
  builder.frames.map fun frame => frame.opening.brackets

namespace Builder

theorem brackets_push (builder : Builder) (t : Token) :
    (builder.push t).brackets = Token.nest builder.brackets t := by
  obtain ⟨kind, text⟩ := t
  obtain ⟨frames, items⟩ := builder
  cases kind with
  | closing bracket =>
      cases frames with
      | nil => rfl
      | cons frame frames =>
          simp only [push, closing, Token.nest, brackets, List.map_cons, List.head?_cons,
            Option.some.injEq, List.tail_cons]
          split <;> rfl
  | _ => rfl

theorem brackets_foldl_push (tokens : List Token) (builder : Builder) :
    (tokens.foldl push builder).brackets = tokens.foldl Token.nest builder.brackets := by
  induction tokens generalizing builder with
  | nil => rfl
  | cons t tokens ih => rw [List.foldl_cons, List.foldl_cons, ih, brackets_push]

end Builder

end Component

namespace Value
open Component (Builder)

/-- What a call or group is depends on the nodes inside of it only. -/
theorem push_block_congr {opening : Opening} (hround : opening.brackets = .round)
    {body body' : List Component} (h : pushAll [] body = pushAll [] body') (nodes : List Node)
    (closed closed' : Bool) :
    push nodes (.block opening body closed) = push nodes (.block opening body' closed') := by
  cases opening with
  | call name => simp only [push, h]
  | bracket bracket =>
      obtain rfl : bracket = .round := hround
      simp only [push, h]

/-- Open calls and groups are the same nodes with their closing parentheses as without. -/
theorem pushAll_finish_closers (frames : List Component.Frame)
    (hround : ∀ frame ∈ frames, frame.opening.brackets = .round) {items items' : List Component}
    (h : ∀ nodes, pushAll nodes items.reverse = pushAll nodes items'.reverse) (nodes : List Node) :
    pushAll nodes (Builder.mk frames items).finish =
      pushAll nodes
        ((List.replicate frames.length Token.closer).foldl Builder.push ⟨frames, items'⟩).finish := by
  induction frames generalizing items items' with
  | nil => exact h nodes
  | cons frame frames ih =>
      obtain ⟨hframe, hframes⟩ := List.forall_mem_cons.mp hround
      have hclose : (Builder.mk (frame :: frames) items').push Token.closer =
          ⟨frames, frame.close items' true⟩ := by
        simp [Builder.push, Builder.closing, Token.closer, hframe]
      rw [List.length_cons, List.replicate_succ, List.foldl_cons, hclose]
      refine ih hframes fun nodes => ?_
      have hsplit : ∀ items closed, (frame.close items closed).reverse =
          frame.before.reverse ++ [.block frame.opening items.reverse closed] := by
        intro items closed
        rw [Component.Frame.close, List.reverse_cons]
      show pushAll nodes (frame.close items false).reverse =
        pushAll nodes (frame.close items' true).reverse
      rw [hsplit, hsplit, pushAll_append, pushAll_append, pushAll, pushAll, pushAll, pushAll]
      exact push_block_congr hframe (h []) _ _ _

section

variable {text : Text} (hround : ∀ bracket ∈ Token.openBrackets text, bracket = .round)
  (hback : text.getLast? ≠ some '\\') (hlast : ∀ t ∈ (Token.tokenize text).getLast?, t.hasEnd = true)

include hround in
theorem openCalls_of_round : Token.openCalls text = (Token.openBrackets text).length := by
  have hall : ∀ bracket ∈ (Token.openBrackets text).reverse, decide (bracket = .round) = true := by
    simpa using hround
  rw [Token.openCalls, List.takeWhile_eq_self_iff.mpr hall, List.length_reverse]

include hround hback hlast in
theorem ofText_closers :
    ofText (text ++ List.replicate (Token.openBrackets text).length ')') = ofText text := by
  have htokens := Token.tokenize_append_fenced
    (Token.fenced_replicate (Token.openBrackets text).length) fun t ht hstands =>
      hstands.of_ended (fun hslash => hback (Token.getLast?_of_mem_getLast? ht hslash)) (hlast t ht)
        (Token.fenced_replicate _)
  rw [Token.tokenize_closers] at htokens
  have hopen : Token.openBrackets text =
      ((Token.tokenize text).foldl Builder.push Builder.empty).brackets :=
    (Builder.brackets_foldl_push _ Builder.empty).symm
  unfold ofText ofComponents Component.ofText Component.ofTokens
  rw [htokens, List.foldl_append]
  rw [hopen] at hround ⊢
  generalize (Token.tokenize text).foldl Builder.push Builder.empty = builder at hround
  obtain ⟨frames, items⟩ := builder
  rw [Builder.brackets, List.length_map, ← pushAll_finish_closers frames ?_ (fun _ => rfl) []]
  exact fun frame hframe => hround _ (List.mem_map_of_mem hframe)

include hround hback hlast in
/-- Where a text leaves only calls and groups open, with no token that waits for its end and no backslash
there, their closing parentheses change nothing about the value. They are what writing the value adds, so
it is read again as it is, and writing it is stable from the first time on. -/
theorem ofText_completed :
    ofText (text ++ List.replicate (Token.openBrackets text).length ')') = ofText text ∧
      (ofText text).render = text ++ List.replicate (Token.openBrackets text).length ')' ∧
      ofText (ofText text).render = ofText text ∧
      ∀ count, (fun text => (ofText text).render)^[count + 1] text = (ofText text).render := by
  have hclosers := ofText_closers hround hback hlast
  have hrender := render_ofText text
  rw [openCalls_of_round hround] at hrender
  have hread : ofText (ofText text).render = ofText text := by rw [hrender, hclosers]
  refine ⟨hclosers, hrender, hread, fun count => ?_⟩
  induction count with
  | zero => rfl
  | succ count ih =>
      rw [Function.iterate_succ_apply', ih]
      exact congrArg render hread

end

/-- White space that belongs to the parentheses, a name with an escape, quotes and parentheses inside of
a string, a URL and a comment, and a number with a sign at the end. -/
theorem ofText_completed_nested :
    let text := "clamp( \"\\\"(\" , url(a\\)b) /*)*/ fo\\29 o( x/ (  @y(-1e-".toList
    (∀ bracket ∈ Token.openBrackets text, bracket = .round) ∧ text.getLast? ≠ some '\\' ∧
      (∀ t ∈ (Token.tokenize text).getLast?, t.hasEnd = true) ∧
      ofText (text ++ "))))".toList) = ofText text := by
  intro text
  have hround : ∀ bracket ∈ Token.openBrackets text, bracket = .round := by decide
  have hback : text.getLast? ≠ some '\\' := by decide
  have hlast : ∀ t ∈ (Token.tokenize text).getLast?, t.hasEnd = true := by decide
  have hparens : List.replicate (Token.openBrackets text).length ')' = "))))".toList := by decide
  have hclosers := (ofText_completed hround hback hlast).1
  rw [hparens] at hclosers
  exact ⟨hround, hback, hlast, hclosers⟩

end Value
end FluidSizing
