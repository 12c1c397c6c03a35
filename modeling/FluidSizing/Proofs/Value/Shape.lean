import FluidSizing.Proofs.Value.Functions
import FluidSizing.Proofs.Value.Place
import Mathlib.Data.List.Chain

/-! The shape of the values that are read. The nodes in a row that are read from a text keep apart what
would be one node (`Value.Regular`): two words, two spaces, and the white space of a separator. One component
value keeps the shape (`regular_push`), as long as white space does not stand beside white space, which
tokens of a text do not. The nodes of a function are read from a block of their own, and the white space at
their ends is in the parentheses, so they have the shape too (`regular_of_fromBlock`). -/

namespace FluidSizing

open Token (isBlank)

namespace Node

/-- Whether a node can stand beside another one. -/
def meets : Node → Node → Bool
  | .word _, .word _ => false
  | .space _, .space _ => false
  | .space _, .divider .. => false
  | .divider .., .space _ => false
  | _, _ => true

theorem meets_comm (m n : Node) : m.meets n = n.meets m := by cases m <;> cases n <;> rfl

def isSpace : Node → Bool
  | space _ => true
  | _ => false

/-- Texts of nodes are there, white space is blank, and separators are commas, slashes and colons. -/
def IsSpelled : Node → Prop
  | word text => text ≠ []
  | space text => text ≠ [] ∧ ∀ c ∈ text, isBlank c = true
  | divider separator before after =>
    separator ∈ [',', '/', ':'] ∧ (∀ c ∈ before, isBlank c = true) ∧ ∀ c ∈ after, isBlank c = true
  | quoted text => text ≠ []
  | comment text => text ≠ []
  | function _ before _ after => (∀ c ∈ before, isBlank c = true) ∧ ∀ c ∈ after, isBlank c = true

end Node

def Component.isWhitespace : Component → Bool
  | token t => t.kind = .whitespace
  | block .. => false

namespace Value
open Component (Stands)

/-- Nodes in a row that are spelled as they should be, with no two side by side that would be one. -/
structure Regular (nodes : List Node) : Prop where
  spelled : ∀ n ∈ nodes, n.IsSpelled
  apart : nodes.IsChain fun m n => m.meets n = true

namespace Regular

variable {n : Node} {nodes : List Node}

theorem nil : Regular [] := ⟨by simp, .nil⟩

theorem cons_iff : Regular (n :: nodes) ↔
    n.IsSpelled ∧ (∀ m ∈ nodes.head?, n.meets m = true) ∧ Regular nodes := by
  constructor
  · rintro ⟨hspelled, hapart⟩
    rw [List.isChain_cons] at hapart
    obtain ⟨hn, hnodes⟩ := List.forall_mem_cons.mp hspelled
    exact ⟨hn, hapart.1, hnodes, hapart.2⟩
  · rintro ⟨hn, hhead, hspelled, hapart⟩
    exact ⟨List.forall_mem_cons.mpr ⟨hn, hspelled⟩, List.isChain_cons.mpr ⟨hhead, hapart⟩⟩

theorem reverse (h : Regular nodes) : Regular nodes.reverse := by
  refine ⟨fun n hn => h.spelled n (List.mem_reverse.mp hn), List.isChain_reverse.mpr ?_⟩
  simpa only [Node.meets_comm] using h.apart

theorem middle {front back : List Node} (h : Regular (front ++ nodes ++ back)) : Regular nodes :=
  ⟨fun n hn => h.spelled n (List.mem_append_left _ (List.mem_append_right _ hn)),
    List.IsChain.infix h.apart ⟨front, back, rfl⟩⟩

end Regular

/-- Whether white space behind the nodes, the last one first, would stand beside white space. -/
def endsBlank : List Node → Bool
  | .space _ :: _ => true
  | .divider _ _ (_ :: _) :: _ => true
  | _ => false

variable {nodes : List Node}

theorem regular_pushSpace {text : Text} (h : Regular nodes) (hne : text ≠ [])
    (htext : ∀ c ∈ text, isBlank c = true) (hend : endsBlank nodes = false) :
    Regular (pushSpace nodes text) := by
  unfold pushSpace
  split
  · rename_i separator before rest
    obtain ⟨⟨hseparator, hbefore, -⟩, hhead, hrest⟩ := Regular.cons_iff.mp h
    refine Regular.cons_iff.mpr ⟨⟨hseparator, hbefore, htext⟩, fun m hm => ?_, hrest⟩
    have hmeets := hhead m hm
    cases m with
    | space => cases hmeets
    | _ => rfl
  · rename_i hdivider
    refine Regular.cons_iff.mpr ⟨⟨hne, htext⟩, fun m hm => ?_, h⟩
    cases nodes with
    | nil => cases hm
    | cons n nodes =>
        obtain rfl := Option.some.inj hm
        cases n with
        | space => cases hend
        | divider separator before after =>
            cases after with
            | nil => exact (hdivider separator before nodes rfl).elim
            | cons => cases hend
        | _ => rfl

theorem regular_pushDivider {separator : Char} (h : Regular nodes)
    (hseparator : separator ∈ [',', '/', ':']) : Regular (pushDivider nodes separator) := by
  unfold pushDivider
  split
  · rename_i before rest
    obtain ⟨⟨-, hbefore⟩, hhead, hrest⟩ := Regular.cons_iff.mp h
    refine Regular.cons_iff.mpr ⟨⟨hseparator, hbefore, by simp⟩, fun m hm => ?_, hrest⟩
    have hmeets := hhead m hm
    cases m with
    | space => cases hmeets
    | _ => rfl
  · rename_i hspace
    refine Regular.cons_iff.mpr ⟨⟨hseparator, by simp, by simp⟩, fun m hm => ?_, h⟩
    cases nodes with
    | nil => cases hm
    | cons n nodes =>
        obtain rfl := Option.some.inj hm
        cases n with
        | space before => exact (hspace before nodes rfl).elim
        | _ => rfl

theorem regular_pushWord {text : Text} (h : Regular nodes) (hne : text ≠ []) :
    Regular (pushWord nodes text) := by
  unfold pushWord
  split
  · rename_i front rest
    obtain ⟨-, hhead, hrest⟩ := Regular.cons_iff.mp h
    refine Regular.cons_iff.mpr ⟨List.append_ne_nil_of_right_ne_nil front hne, fun m hm => ?_, hrest⟩
    have hmeets := hhead m hm
    cases m with
    | word => cases hmeets
    | _ => rfl
  · rename_i hword
    refine Regular.cons_iff.mpr ⟨hne, fun m hm => ?_, h⟩
    cases nodes with
    | nil => cases hm
    | cons n nodes =>
        obtain rfl := Option.some.inj hm
        cases n with
        | word front => exact (hword front nodes rfl).elim
        | _ => rfl

/-- Nodes that are neither words nor white space nor separators stand beside every node. -/
theorem Regular.cons {n : Node} (h : Regular nodes) (hn : n.IsSpelled) (hmeets : ∀ m, n.meets m = true) :
    Regular (n :: nodes) :=
  cons_iff.mpr ⟨hn, fun m _ => hmeets m, h⟩

theorem regular_pushToken {t : Token} {rest : Text} (h : Regular nodes) (ht : t.StandsBefore rest)
    (hend : t.kind = .whitespace → endsBlank nodes = false) : Regular (pushToken nodes t) := by
  have hne := ht.text_ne_nil
  unfold pushToken
  split
  · rename_i hkind
    exact regular_pushSpace h hne (ht.isBlank_of_whitespace hkind) (hend hkind)
  · exact regular_pushDivider h (by decide)
  · exact regular_pushDivider h (by decide)
  · exact regular_pushDivider h (by decide)
  · exact h.cons hne fun m => by cases m <;> rfl
  · exact h.cons hne fun m => by cases m <;> rfl
  · exact regular_pushWord h hne

/-- Nodes in a row of which no two are white space do not start with white space behind the first. -/
theorem head?_takeSpace (h : nodes.IsChain fun m n => m.meets n = true) :
    ∀ n ∈ (takeSpace nodes).2.head?, n.isSpace = false := by
  intro n hn
  unfold takeSpace at hn
  split at hn
  · rename_i text rest
    have hmeets := (List.isChain_cons.mp h).1 n hn
    cases n with
    | space => cases hmeets
    | _ => rfl
  · rename_i hspace
    obtain ⟨rest, rfl⟩ := List.head?_eq_some_iff.mp hn
    cases n with
    | space text => exact (hspace text rest rfl).elim
    | _ => rfl

/-- A function is read with the white space at the ends of its nodes in its parentheses, where no two
nodes in a row are white space. -/
theorem exists_callOf_apart (name : Text) {inside : List Node}
    (h : inside.reverse.IsChain fun m n => m.meets n = true) :
    ∃ leading nodes trailing : List Node,
      callOf name inside = .function name (render leading) nodes (render trailing) ∧
        inside.reverse = leading ++ nodes ++ trailing ∧ IsPadding leading ∧ IsPadding trailing ∧
        (∀ n ∈ nodes.head?, n.isSpace = false) ∧ ∀ n ∈ nodes.getLast?, n.isSpace = false := by
  obtain ⟨leading, hleading, hbefore, hfront⟩ := exists_takeSpace inside.reverse
  obtain ⟨trailing, htrailing, hafter, hback⟩ := exists_takeSpace (takeSpace inside.reverse).2.reverse
  have hnodes : (takeSpace inside.reverse).2 =
      (takeSpace (takeSpace inside.reverse).2.reverse).2.reverse ++ trailing := by
    conv_lhs => rw [← List.reverse_reverse (takeSpace inside.reverse).2, hback, List.reverse_append,
      htrailing.reverse_eq]
  have hapart : (takeSpace inside.reverse).2.reverse.IsChain fun m n => m.meets n = true := by
    rw [List.isChain_reverse]
    simp only [Node.meets_comm]
    exact List.IsChain.infix h ⟨leading, [], by rw [List.append_nil, ← hfront]⟩
  refine ⟨leading, (takeSpace (takeSpace inside.reverse).2.reverse).2.reverse, trailing, ?_, ?_, hleading,
    htrailing, fun n hn => head?_takeSpace h n ?_, fun n hn => head?_takeSpace hapart n ?_⟩
  · rw [← hbefore, ← hafter]
    rfl
  · rw [List.append_assoc, ← hnodes, ← hfront]
  · rw [hnodes, List.head?_append, hn]
    rfl
  · rwa [List.getLast?_reverse] at hn

/-- The nodes inside the parentheses of a function: white space at the ends is not one of them. -/
structure Trimmed (nodes : List Node) : Prop extends Regular nodes where
  head : ∀ n ∈ nodes.head?, n.isSpace = false
  last : ∀ n ∈ nodes.getLast?, n.isSpace = false

theorem IsPadding.isBlank_render {padding : List Node} (h : IsPadding padding)
    (hspelled : ∀ n ∈ padding, n.IsSpelled) : ∀ c ∈ render padding, isBlank c = true := by
  rcases h with rfl | ⟨text, rfl⟩
  · simp
  · have htext := (hspelled _ List.mem_cons_self).2
    simpa [Node.render] using htext

theorem trimmed_callOf (name : Text) {inside : List Node} (h : Regular inside) :
    ∃ before nodes after, callOf name inside = .function name before nodes after ∧
      (callOf name inside).IsSpelled ∧ Trimmed nodes := by
  obtain ⟨leading, nodes, trailing, hcall, hinside, hleading, htrailing, hhead, hlast⟩ :=
    exists_callOf_apart name h.reverse.apart
  have hregular := h.reverse
  rw [hinside] at hregular
  refine ⟨render leading, nodes, render trailing, hcall, ?_, hregular.middle, hhead, hlast⟩
  rw [hcall]
  exact ⟨hleading.isBlank_render fun n hn => hregular.spelled n (by simp [hn]),
    htrailing.isBlank_render fun n hn => hregular.spelled n (by simp [hn])⟩

theorem endsBlank_push {c : Component} (h : endsBlank (push nodes c) = true) : c.isWhitespace = true := by
  have hword : ∀ text, endsBlank (pushWord nodes text) = false := by
    intro text
    unfold pushWord
    split <;> rfl
  cases c with
  | token t =>
      have hdivider : ∀ separator, endsBlank (pushDivider nodes separator) = false := by
        intro separator
        unfold pushDivider
        split <;> rfl
      rw [push] at h
      unfold pushToken at h
      split at h
      · rename_i hkind
        rw [Component.isWhitespace, hkind]
        rfl
      · exact absurd h (by rw [hdivider]; decide)
      · exact absurd h (by rw [hdivider]; decide)
      · exact absurd h (by rw [hdivider]; decide)
      · cases h
      · cases h
      · exact absurd h (by rw [hword]; decide)
  | block opening body closed =>
      rw [push.eq_def] at h
      dsimp only at h
      split at h
      · cases h
      · unfold pushGroup at h
        split at h <;> cases h
      · exact absurd h (by rw [hword]; decide)

/-- A block keeps the shape if the nodes inside it have the shape. -/
theorem regular_pushBlock {opening : Opening} {body : List Component} {closed : Bool} (h : Regular nodes)
    (hinside : Regular (pushAll [] body)) (hne : Component.source (.block opening body closed) ≠ []) :
    Regular (push nodes (.block opening body closed)) := by
  have hcall : ∀ name {front : List Node}, Regular front →
      Regular (callOf name (pushAll [] body) :: front) := by
    intro name front hfront
    obtain ⟨before, inside, after, heq, hspelled, -⟩ := trimmed_callOf name hinside
    rw [heq] at hspelled ⊢
    exact hfront.cons hspelled fun m => by cases m <;> rfl
  rw [push.eq_def]
  dsimp only
  split
  · exact hcall _ h
  · unfold pushGroup
    split
    · exact hcall _ (Regular.cons_iff.mp h).2.2
    · exact hcall _ h
  · exact regular_pushWord h hne

end Value

/-- White space does not stand beside white space. -/
theorem Token.StandsBefore.not_isWhitespace_head {t : Token} {enclosing : Option Bracket} {post : Text}
    {cs : List Component} (h : t.StandsBefore (Component.sources cs ++ post)) (ht : t.kind = .whitespace)
    (hcs : Component.Stands enclosing post cs) : ∀ c ∈ cs.head?, c.isWhitespace = false := by
  intro c hc
  cases hcs with
  | nil => cases hc
  | closed | unclosed =>
      obtain rfl := Option.some.inj hc
      rfl
  | @token _ _ u rest stands =>
      obtain rfl := Option.some.inj hc
      rw [Component.isWhitespace, decide_eq_false_iff_not]
      intro hkind
      have hblank := stands.isBlank_of_whitespace hkind
      obtain ⟨d, more, htext, -⟩ := stands
      have hhead := h.not_isBlank_head ht d (by simp [Component.source, htext])
      rw [hblank d (by rw [htext]; exact List.mem_cons_self)] at hhead
      cases hhead

namespace Value
open Component (Stands)

/-- Nodes that are read from component values have the shape. -/
theorem regular_pushAll {enclosing : Option Bracket} {post : Text} {cs : List Component}
    (h : Stands enclosing post cs) {nodes : List Node} (hnodes : Regular nodes)
    (hend : endsBlank nodes = true → ∀ c ∈ cs.head?, c.isWhitespace = false) :
    Regular (pushAll nodes cs) := by
  induction h generalizing nodes with
  | nil => simpa [pushAll] using hnodes
  | token stands flat behind ih =>
      rw [pushAll, push]
      refine ih (regular_pushToken hnodes stands fun hkind => ?_) fun hblank => ?_
      · cases hblank : endsBlank nodes with
        | false => rfl
        | true => simpa [Component.isWhitespace, hkind] using hend hblank _ rfl
      · have hwhite := endsBlank_push (c := .token _) (by rw [push]; exact hblank)
        exact stands.not_isWhitespace_head (decide_eq_true_eq.mp hwhite) behind
  | closed stands inside behind ihinside ihbehind =>
      rw [pushAll]
      refine ihbehind (regular_pushBlock hnodes (ihinside .nil fun h => by cases h)
        (Component.source_block_ne_nil stands _ _)) fun hblank => ?_
      cases endsBlank_push hblank
  | unclosed stands inside ihinside =>
      rw [pushAll, pushAll]
      exact regular_pushBlock hnodes (ihinside .nil fun h => by cases h)
        (Component.source_block_ne_nil stands _ _)

theorem regular_ofText (text : Text) : Regular (ofText text) :=
  (regular_pushAll (Component.stands_ofText text) .nil fun h => by cases h).reverse

/-- The nodes of a function that is read have the shape, and so has the function. -/
theorem FromBlock.trimmed {name before : Text} {nodes : List Node} {after : Text}
    (h : FromBlock (.function name before nodes after)) : Trimmed nodes := by
  obtain ⟨name', post, body, hbody, hcall⟩ := h
  obtain ⟨before', nodes', after', heq, -, htrimmed⟩ :=
    trimmed_callOf name' (regular_pushAll hbody .nil fun h => by cases h)
  rw [heq] at hcall
  obtain ⟨-, -, rfl, -⟩ := Node.function.inj hcall
  exact htrimmed

theorem hasAt_append {back : List Node} {front : Text} {n : Node} (h : HasAt back front n)
    (nodes : List Node) : HasAt (nodes ++ back) (render nodes ++ front) n := by
  induction nodes with
  | nil => simpa using h
  | cons m nodes ih =>
      rw [List.cons_append, render_cons, List.append_assoc]
      exact .behind m ih

/-- What stands at a place stands behind the text before the place. -/
theorem hasAt_fill (place : Place) (n : Node) : HasAt (place.fill [n]) place.front n := by
  induction place with
  | here front back => simpa [Place.fill, Place.front] using hasAt_append (.here n back) front
  | inside front name before place after back ih =>
      exact hasAt_append (.inside name before after back ih) front

/-- The nodes of every function of a text have the shape. -/
theorem trimmed_of_mem_preorder {text name before : Text} {nodes : List Node} {after : Text}
    (h : .function name before nodes after ∈ (ofText text).preorder) : Trimmed nodes := by
  obtain ⟨place, hplace⟩ := mem_preorder_iff.mp h
  have hat := hasAt_fill place (.function name before nodes after)
  rw [← hplace] at hat
  exact (hat.fromBlock_ofText rfl).trimmed

end Value
end FluidSizing
