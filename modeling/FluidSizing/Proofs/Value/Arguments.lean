import FluidSizing.Proofs.Component.Joined
import FluidSizing.Proofs.Fluid.Words
import FluidSizing.Proofs.Value.Words

/-! Arguments as they are written. An argument is a text that is read as one node, with white space on
both sides; a text of letters, digits, points and hyphens is a word, so it is one (`Argument.word`).
Arguments with commas between them stand before a closing parenthesis (`stands_listed`), and a call of
them has their nodes as children, with the white space beside the commas and the parentheses
(`callOf_listed`). -/

namespace FluidSizing

open Token (Apart)

namespace Token

/-- The characters of words that are lengths or numbers. -/
def isWordChar (c : Char) : Bool := c.isAlpha || c.isDigit || c = '.' || c = '-'

theorem isInner_of_isWordChar {c : Char} (h : isWordChar c = true) : isInner c = true :=
  isInner_of_class (by decide) h

end Token

namespace Value
open Component (Stands)

variable {nodes : List Node}

/-- An argument as it is written: a text that is read as one node, a word or a function, and white space
on both sides of it. -/
structure Argument where
  before : Text
  text : Text
  after : Text
  node : Node
  isBlank_before : ∀ c ∈ before, Token.isBlank c = true
  isBlank_after : ∀ c ∈ after, Token.isBlank c = true
  exists_head : ∃ c rest, text = c :: rest ∧ Token.isBlank c = false
  stands : ∀ post, Token.Apart post → Stands (some .round) post (Component.ofText text)
  pushAll_eq : ∀ nodes, lastWord nodes = none → pushAll nodes (Component.ofText text) = node :: nodes
  isArgument : (∃ word, node = .word word) ∨ node.isFunction = true

namespace Argument

def source (a : Argument) : Text := a.before ++ (a.text ++ a.after)

/-- Arguments with commas between them. -/
def listed (a : Argument) : List Argument → Text
  | [] => a.source
  | b :: rest => a.source ++ ',' :: listed b rest

/-- What follows the white space at the start of arguments, as component values. -/
def body (a : Argument) : List Argument → List Component
  | [] => Component.ofText a.text ++ Component.blanks a.after
  | b :: rest => Component.ofText a.text ++ (Component.blanks a.after ++
      .token ⟨.comma, [',']⟩ :: (Component.blanks b.before ++ body b rest))

/-- The nodes of arguments and of the commas between them. -/
def children (a : Argument) : List Argument → List Node
  | [] => [a.node]
  | b :: rest => a.node :: .divider ',' a.after b.before :: children b rest

theorem sources_body (a : Argument) (rest : List Argument) :
    a.before ++ Component.sources (body a rest) = listed a rest := by
  induction rest generalizing a with
  | nil => simp [body, listed, source, Component.source_ofText]
  | cons b rest ih =>
      have hrest := ih b
      simp [body, listed, source, Component.source_ofText, Component.source, ← hrest]

theorem listed_eq_intercalate (a : Argument) (rest : List Argument) :
    listed a rest = [','].intercalate ((a :: rest).map source) := by
  induction rest generalizing a with
  | nil => simp [listed, List.intercalate]
  | cons b rest ih =>
      rw [listed, ih b]
      simp [List.intercalate]

/-- The words of a call are its arguments that are words. -/
theorem words_children (a : Argument) (rest : List Argument)
    (h : ∀ b ∈ a :: rest, b.node = .word b.text) :
    words (children a rest) = (a :: rest).map text := by
  induction rest generalizing a with
  | nil => simp [children, words, h a List.mem_cons_self, Node.word?]
  | cons b rest ih =>
      obtain ⟨ha, hrest⟩ := List.forall_mem_cons.mp h
      have hfirst : a.node.word? = some a.text := by
        rw [ha]
        rfl
      rw [children, words, List.filterMap_cons_some hfirst, List.filterMap_cons_none rfl]
      exact congrArg (a.text :: ·) (ih b hrest)

variable {post : Text}

/-- White space stands before an argument, and an argument with white space behind it before what neither
goes on with it nor is white space. -/
theorem stands_blanks_after (a : Argument) (hpost : Token.Apart post)
    (hhead : ∀ c ∈ post.head?, Token.isBlank c = false) :
    Stands (some .round) post (Component.ofText a.text ++ Component.blanks a.after) := by
  refine Component.stands_append.mpr ⟨a.stands _ ?_, Component.stands_blanks a.isBlank_after hhead⟩
  rw [Component.sources_blanks]
  cases hafter : a.after with
  | nil => exact hpost
  | cons c rest => exact Token.apart_of_isBlank (a.isBlank_after c (by simp [hafter])) _

theorem head?_body (a : Argument) (rest : List Argument) (post : Text) :
    ∀ c ∈ (Component.sources (body a rest) ++ post).head?, Token.isBlank c = false := by
  obtain ⟨c, more, htext, hc⟩ := a.exists_head
  cases rest <;>
  · simp only [body, Component.sources_append, Component.source_ofText, htext, List.cons_append,
      List.head?_cons, Option.mem_some_iff]
    rintro d rfl
    exact hc

/-- Arguments stand between the parentheses of a call. -/
theorem stands_body (a : Argument) (rest : List Argument) (post : Text) :
    Stands (some .round) (')' :: post) (body a rest) := by
  have hclose : Token.Apart (')' :: post) := Token.apart_cons (by decide) (by decide) (by decide) post
  have hcomma : ∀ post, Token.Apart (',' :: post) :=
    Token.apart_cons (by decide) (by decide) (by decide)
  induction rest generalizing a with
  | nil =>
      apply a.stands_blanks_after hclose
      rintro c ⟨⟩
      decide
  | cons b rest ih =>
      rw [body, ← List.append_assoc]
      refine Component.stands_append.mpr ⟨?_, .token ⟨',', [], rfl, rfl⟩ rfl ?_⟩
      · apply a.stands_blanks_after (hcomma _)
        rintro c ⟨⟩
        decide
      · exact Component.stands_append.mpr
          ⟨Component.stands_blanks b.isBlank_before (b.head?_body rest _), ih b⟩

theorem stands_listed (a : Argument) (rest : List Argument) (post : Text) :
    Stands (some .round) (')' :: post) (Component.blanks a.before ++ body a rest) :=
  Component.stands_append.mpr
    ⟨Component.stands_blanks a.isBlank_before (a.head?_body rest _), a.stands_body rest post⟩

def spaces : Text → List Node
  | [] => []
  | text => [.space text]

theorem pushAll_leading (text : Text) : pushAll [] (Component.blanks text) = spaces text := by
  cases text with
  | nil => simp [Component.blanks, pushAll, spaces]
  | cons c text => simp [Component.blanks, pushAll, push, pushToken, pushSpace, spaces]

theorem pushAll_blanks {a : Argument} (text : Text) :
    pushAll (a.node :: nodes) (Component.blanks text) = spaces text ++ a.node :: nodes := by
  have hpush : ∀ text, pushSpace (a.node :: nodes) text = .space text :: a.node :: nodes := by
    intro text
    rcases a.isArgument with ⟨word, hnode⟩ | hfunction
    · rw [hnode]
      rfl
    · unfold pushSpace
      split
      · rename_i heq
        rw [(List.cons.inj heq).1] at hfunction
        cases hfunction
      · rfl
  cases text with
  | nil => simp [Component.blanks, spaces, pushAll]
  | cons c text => simp [Component.blanks, spaces, pushAll, push, pushToken, hpush]

/-- A comma takes the white space on both sides. -/
theorem pushAll_comma {a b : Argument} (cs : List Component) :
    pushAll (spaces a.after ++ a.node :: nodes)
        (.token ⟨.comma, [',']⟩ :: (Component.blanks b.before ++ cs)) =
      pushAll (.divider ',' a.after b.before :: a.node :: nodes) cs := by
  have hdivider : pushDivider (spaces a.after ++ a.node :: nodes) ',' =
      .divider ',' a.after [] :: a.node :: nodes := by
    cases a.after with
    | cons c text => rfl
    | nil =>
        rcases a.isArgument with ⟨word, hnode⟩ | hfunction
        · rw [hnode]
          rfl
        · unfold pushDivider
          split
          · rename_i heq
            rw [spaces, List.nil_append] at heq
            rw [(List.cons.inj heq).1] at hfunction
            cases hfunction
          · rfl
  rw [pushAll, push, pushToken, hdivider, pushAll_append]
  cases b.before with
  | nil => simp [Component.blanks, pushAll]
  | cons c text => simp [Component.blanks, pushAll, push, pushToken, pushSpace]

/-- Arguments are read as their nodes with separators between them. -/
theorem pushAll_body (a : Argument) (rest : List Argument) (h : lastWord nodes = none) :
    pushAll nodes (body a rest) =
      spaces (rest.getLastD a).after ++ ((children a rest).reverse ++ nodes) := by
  induction rest generalizing a nodes with
  | nil =>
      rw [body, pushAll_append, a.pushAll_eq nodes h, pushAll_blanks]
      rfl
  | cons b rest ih =>
      rw [body, pushAll_append, a.pushAll_eq nodes h, pushAll_append, pushAll_blanks, pushAll_comma,
        ih b rfl, List.getLastD_cons, children]
      simp only [List.reverse_cons, List.append_assoc, List.cons_append, List.nil_append]

theorem node_ne_space (a : Argument) (text : Text) : a.node ≠ .space text := by
  intro hspace
  rcases a.isArgument with ⟨word, hnode⟩ | hfunction
  · rw [hspace] at hnode
    cases hnode
  · rw [hspace] at hfunction
    cases hfunction

theorem takeSpace_spaces (text : Text) (a : Argument) (behind : List Node) :
    takeSpace (spaces text ++ a.node :: behind) = (text, a.node :: behind) := by
  cases text with
  | nil =>
      unfold takeSpace
      split
      · rename_i heq
        exact absurd (List.cons.inj heq).1 (a.node_ne_space _)
      · rfl
  | cons c text => rfl

theorem exists_children (a : Argument) (rest : List Argument) :
    (∃ behind, children a rest = a.node :: behind) ∧
      ∃ front, children a rest = front ++ [(rest.getLastD a).node] := by
  induction rest generalizing a with
  | nil => exact ⟨⟨[], rfl⟩, [], rfl⟩
  | cons b rest ih =>
      obtain ⟨-, front, hfront⟩ := ih b
      refine ⟨⟨_, rfl⟩, a.node :: .divider ',' a.after b.before :: front, ?_⟩
      rw [children, hfront, List.getLastD_cons]
      rfl

/-- The call of arguments has their nodes, with the white space beside the parentheses. -/
theorem callOf_listed (name : Text) (a : Argument) (rest : List Argument) :
    callOf name (pushAll [] (Component.blanks a.before ++ body a rest)) =
      .function name a.before (children a rest) (rest.getLastD a).after := by
  have hword : lastWord (spaces a.before) = none := by cases a.before <;> rfl
  have hreverse : ∀ text, (spaces text).reverse = spaces text := by
    intro text
    cases text <;> rfl
  obtain ⟨⟨behind, hbehind⟩, front, hfront⟩ := exists_children a rest
  rw [pushAll_append, pushAll_leading, pushAll_body a rest hword]
  simp only [callOf, List.reverse_append, List.reverse_reverse, hreverse, List.append_assoc]
  rw [hbehind, List.cons_append, takeSpace_spaces, ← List.cons_append, ← hbehind]
  simp only [hfront, List.reverse_append, List.reverse_cons, List.reverse_nil, List.nil_append,
    hreverse, List.singleton_append, takeSpace_spaces, List.reverse_reverse]

def word (before text after : Text) (isBlank_before : ∀ c ∈ before, Token.isBlank c = true)
    (isBlank_after : ∀ c ∈ after, Token.isBlank c = true) (ne_nil : text ≠ [])
    (isWordChar : ∀ c ∈ text, Token.isWordChar c = true) : Argument where
  before := before
  text := text
  after := after
  node := .word text
  isBlank_before := isBlank_before
  isBlank_after := isBlank_after
  exists_head := by
    obtain ⟨c, rest, rfl⟩ := List.exists_cons_of_ne_nil ne_nil
    exact ⟨c, rest, rfl, Token.isBlank_of_isInner (Token.isInner_of_isWordChar (isWordChar c List.mem_cons_self))⟩
  stands :=
    (Component.words_ofText fun c hc => Token.isInner_of_isWordChar (isWordChar c hc)).2 (some .round)
  pushAll_eq := fun _ h =>
    pushAll_ofText (fun c hc => Token.isInner_of_isWordChar (isWordChar c hc)) ne_nil h
  isArgument := Or.inl ⟨text, rfl⟩

end Argument

end Value
end FluidSizing
