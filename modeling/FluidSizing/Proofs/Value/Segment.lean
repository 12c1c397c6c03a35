import FluidSizing.Proofs.Component.Standing
import FluidSizing.Value.Read
import Mathlib.Data.List.Forall2

/-! Which component values a node is read from. The component values of a value fall into segments in a
row, one for each node: the pieces of a word, a separator with the white space beside it, a block with
the word that names it. `exists_segments` finds the segments of any component values that stand, so a
place among the nodes is a place among the component values. -/

namespace FluidSizing

namespace Token

/-- Whether a token outside of brackets is text of a word. -/
def Kind.isWord : Kind → Bool
  | .whitespace | .comma | .colon | .slash | .string | .comment => false
  | _ => true

end Token

namespace Component

def isWord : Component → Bool
  | token t => t.kind.isWord
  | block (.bracket .square) _ _ => true
  | block (.bracket .curly) _ _ => true
  | _ => false

def IsSpace (c : Component) : Prop :=
  ∃ t : Token, c = token t ∧ t.kind = .whitespace ∧ ∀ d ∈ t.text, Token.isBlank d = true

end Component

namespace Value
open Component (Stands IsSpace)

/-- A node and the component values it is read from. -/
inductive Segment : List Component → Node → Prop where
  | word {cs : List Component} (ne_nil : cs ≠ []) (all_word : ∀ c ∈ cs, c.isWord = true) :
      Segment cs (.word (Component.sources cs))
  | space {c : Component} (isSpace : c.IsSpace) : Segment [c] (.space c.source)
  | divider {t : Token} {separator : Char} {front back : List Component}
      (kind : t.kind.separator? = some separator) (text : t.text = [separator])
      (before : ∀ c ∈ front, c.IsSpace) (after : ∀ c ∈ back, c.IsSpace) :
      Segment (front ++ .token t :: back)
        (.divider separator (Component.sources front) (Component.sources back))
  | quoted {t : Token} (kind : t.kind = .string) : Segment [.token t] (.quoted t.text)
  | comment {t : Token} (kind : t.kind = .comment) : Segment [.token t] (.comment t.text)
  | call (name : Text) (body : List Component) (closed : Bool) :
      Segment [.block (.call name) body closed] (callOf name (pushAll [] body))
  | group {cs : List Component} (all_word : ∀ c ∈ cs, c.isWord = true) (body : List Component)
      (closed : Bool) :
      Segment (cs ++ [.block (.bracket .round) body closed])
        (callOf (Component.sources cs) (pushAll [] body))

namespace Segment

theorem word_inv {seg : List Component} {text : Text} (h : Segment seg (.word text)) :
    seg ≠ [] ∧ (∀ c ∈ seg, c.isWord = true) ∧ text = Component.sources seg := by
  generalize hn : Node.word text = n at h
  cases h with
  | word hne hall =>
      cases hn
      exact ⟨hne, hall, rfl⟩
  | call => exact absurd (congrArg Node.isFunction hn) Bool.false_ne_true
  | group => exact absurd (congrArg Node.isFunction hn) Bool.false_ne_true
  | _ => cases hn

theorem space_inv {seg : List Component} {text : Text} (h : Segment seg (.space text)) :
    ∃ c : Component, seg = [c] ∧ c.IsSpace ∧ text = c.source := by
  generalize hn : Node.space text = n at h
  cases h with
  | @space c hspace =>
      cases hn
      exact ⟨c, rfl, hspace, rfl⟩
  | call => exact absurd (congrArg Node.isFunction hn) Bool.false_ne_true
  | group => exact absurd (congrArg Node.isFunction hn) Bool.false_ne_true
  | _ => cases hn

theorem divider_inv {seg : List Component} {separator : Char} {before after : Text}
    (h : Segment seg (.divider separator before after)) :
    ∃ (t : Token) (front back : List Component), seg = front ++ .token t :: back ∧
      t.kind.separator? = some separator ∧ t.text = [separator] ∧
      (∀ c ∈ front, c.IsSpace) ∧ (∀ c ∈ back, c.IsSpace) ∧
      before = Component.sources front ∧ after = Component.sources back := by
  generalize hn : Node.divider separator before after = n at h
  cases h with
  | @divider t _ front back hkind htext hbefore hafter =>
      cases hn
      exact ⟨t, front, back, rfl, hkind, htext, hbefore, hafter, rfl, rfl⟩
  | call => exact absurd (congrArg Node.isFunction hn) Bool.false_ne_true
  | group => exact absurd (congrArg Node.isFunction hn) Bool.false_ne_true
  | _ => cases hn

/-- A function is read from a block in parentheses, which may have a word before it. -/
theorem function_inv {seg : List Component} {n : Node} (h : Segment seg n)
    (hn : n.isFunction = true) :
    (∃ (name : Text) (body : List Component) (closed : Bool),
      seg = [.block (.call name) body closed] ∧ n = callOf name (pushAll [] body)) ∨
    ∃ (cs body : List Component) (closed : Bool), (∀ c ∈ cs, c.isWord = true) ∧
      seg = cs ++ [.block (.bracket .round) body closed] ∧
      n = callOf (Component.sources cs) (pushAll [] body) := by
  cases h with
  | call name body closed => exact Or.inl ⟨name, body, closed, rfl, rfl⟩
  | @group cs hall body closed => exact Or.inr ⟨cs, body, closed, hall, rfl, rfl⟩
  | _ => cases hn

end Segment

/-- What is known about a component value that stands: how a token of white space or a separator is
spelled. -/
def Spelled : Component → Prop
  | .token t =>
      (t.kind = .whitespace → ∀ c ∈ t.text, Token.isBlank c = true) ∧
        ∀ separator, t.kind.separator? = some separator → t.text = [separator]
  | .block .. => True

theorem spelled_of_standsBefore {t : Token} {rest : Text} (h : t.StandsBefore rest) :
    Spelled (.token t) :=
  ⟨h.isBlank_of_whitespace, fun _ hkind => h.text_of_separator? hkind⟩

theorem Segment.ne_nil {seg : List Component} {n : Node} (h : Segment seg n) : seg ≠ [] := by
  cases h with
  | word hne => exact hne
  | divider => exact List.append_ne_nil_of_right_ne_nil _ (List.cons_ne_nil _ _)
  | group => exact List.append_ne_nil_of_right_ne_nil _ (List.cons_ne_nil _ _)
  | _ => exact List.cons_ne_nil _ _

/-- Text of a word does not stand behind a word. -/
def Apart (seg : List Component) (nodes : List Node) : Prop :=
  ∀ c rest text older, seg = c :: rest → nodes = .word text :: older → c.isWord = false

/-- Nodes that are read from segments in a row, both with the last one first. -/
inductive Segments : List (List Component) → List Node → Prop where
  | nil : Segments [] []
  | cons {seg : List Component} {segs : List (List Component)} {n : Node} {nodes : List Node}
      (segment : Segment seg n) (apart : Apart seg nodes) (older : Segments segs nodes) :
      Segments (seg :: segs) (n :: nodes)

variable {segs : List (List Component)} {nodes : List Node}

/-- The next component value starts a node. -/
theorem Segments.start (h : Segments segs nodes) {c : Component} {n : Node} (hn : Segment [c] n)
    (hapart : Apart [c] nodes) :
    ∃ segs' : List (List Component), segs'.reverse.flatten = segs.reverse.flatten ++ [c] ∧
      Segments segs' (n :: nodes) :=
  ⟨[c] :: segs, by simp, .cons hn hapart h⟩

/-- The next component value goes on with the last node. -/
theorem Segments.continue {old n : Node} (h : Segments segs (old :: nodes)) {c : Component}
    (hn : ∀ seg, Segment seg old → Segment (seg ++ [c]) n) :
    ∃ segs' : List (List Component), segs'.reverse.flatten = segs.reverse.flatten ++ [c] ∧
      Segments segs' (n :: nodes) := by
  cases h with
  | @cons seg rest _ _ hold hapart hrest =>
      refine ⟨(seg ++ [c]) :: rest, by simp, .cons (hn seg hold) ?_ hrest⟩
      intro d more text older hseg hnodes
      obtain ⟨first, tail, rfl⟩ := List.exists_cons_of_ne_nil hold.ne_nil
      obtain ⟨rfl, -⟩ := List.cons.inj hseg
      exact hapart first tail text older rfl hnodes

theorem apart_of_isWord {c : Component} (hc : c.isWord = false) (nodes : List Node) :
    Apart [c] nodes := by
  intro d rest text older hseg _
  obtain ⟨rfl, -⟩ := List.cons.inj hseg
  exact hc

theorem Segments.pushSpace (h : Segments segs nodes) {t : Token} (hkind : t.kind = .whitespace)
    (hblank : ∀ c ∈ t.text, Token.isBlank c = true) :
    ∃ segs' : List (List Component), segs'.reverse.flatten = segs.reverse.flatten ++ [.token t] ∧
      Segments segs' (Value.pushSpace nodes t.text) := by
  have hspace : (Component.token t).IsSpace := ⟨t, rfl, hkind, hblank⟩
  have hsource : (Component.token t).source = t.text := by simp [Component.source]
  unfold Value.pushSpace
  split
  · apply h.continue
    intro seg hseg
    obtain ⟨u, front, back, rfl, hu, htext, hfront, hback, rfl, hnil⟩ := hseg.divider_inv
    have hafter : t.text = Component.sources (back ++ [.token t]) := by
      rw [Component.sources_append, ← hnil, Component.sources_cons, hsource]
      simp
    rw [hafter, List.append_assoc, List.cons_append]
    apply Segment.divider hu htext hfront
    intro c hc
    rcases List.mem_append.mp hc with hc | hc
    · exact hback c hc
    · rw [List.mem_singleton.mp hc]
      exact hspace
  · rw [← hsource]
    refine h.start (.space hspace) (apart_of_isWord ?_ nodes)
    rw [Component.isWord, hkind]
    rfl

theorem Segments.pushDivider (h : Segments segs nodes) {t : Token} {separator : Char}
    (hkind : t.kind.separator? = some separator) (htext : t.text = [separator]) :
    ∃ segs' : List (List Component), segs'.reverse.flatten = segs.reverse.flatten ++ [.token t] ∧
      Segments segs' (Value.pushDivider nodes separator) := by
  have hnone : ∀ c ∈ ([] : List Component), c.IsSpace := by simp
  unfold Value.pushDivider
  split
  · apply h.continue
    intro seg hseg
    obtain ⟨c, rfl, hspace, rfl⟩ := hseg.space_inv
    have hfront : ∀ d ∈ [c], d.IsSpace := by
      intro d hd
      rw [List.mem_singleton.mp hd]
      exact hspace
    have hseg := Segment.divider hkind htext hfront hnone
    simpa using hseg
  · refine h.start (.divider hkind htext hnone hnone) (apart_of_isWord ?_ nodes)
    rw [Component.isWord]
    cases hk : t.kind <;> first | rfl | (rw [hk] at hkind; cases hkind)

theorem Segments.pushWord (h : Segments segs nodes) {c : Component} (hc : c.isWord = true) :
    ∃ segs' : List (List Component), segs'.reverse.flatten = segs.reverse.flatten ++ [c] ∧
      Segments segs' (Value.pushWord nodes c.source) := by
  unfold Value.pushWord
  split
  · apply h.continue
    intro seg hseg
    obtain ⟨-, hall, rfl⟩ := hseg.word_inv
    have hsource : Component.sources seg ++ c.source = Component.sources (seg ++ [c]) := by simp
    rw [hsource]
    apply Segment.word (by simp)
    intro d hd
    rcases List.mem_append.mp hd with hd | hd
    · exact hall d hd
    · rw [List.mem_singleton.mp hd]
      exact hc
  · rename_i hnot
    have hseg : Segment [c] (.word (Component.sources [c])) :=
      .word (by simp) fun d hd => by rw [List.mem_singleton.mp hd]; exact hc
    rw [Component.sources_cons, Component.sources_nil, List.append_nil] at hseg
    exact h.start hseg fun _ _ text older _ hnodes => absurd hnodes (hnot text older)

theorem Segments.pushToken (h : Segments segs nodes) {t : Token} (ht : Spelled (.token t)) :
    ∃ segs' : List (List Component), segs'.reverse.flatten = segs.reverse.flatten ++ [.token t] ∧
      Segments segs' (Value.pushToken nodes t) := by
  obtain ⟨hblank, hseparator⟩ := ht
  have hword : t.kind.isWord = true → ∃ segs' : List (List Component),
      segs'.reverse.flatten = segs.reverse.flatten ++ [.token t] ∧
        Segments segs' (Value.pushWord nodes t.text) := by
    intro hkind
    have hc : (Component.token t).isWord = true := hkind
    have hsource : (Component.token t).source = t.text := by simp [Component.source]
    rw [← hsource]
    exact h.pushWord hc
  unfold Value.pushToken
  split <;> rename_i hkind
  · exact h.pushSpace hkind (hblank hkind)
  · exact h.pushDivider (by rw [hkind]; rfl) (hseparator ',' (by rw [hkind]; rfl))
  · exact h.pushDivider (by rw [hkind]; rfl) (hseparator ':' (by rw [hkind]; rfl))
  · exact h.pushDivider (by rw [hkind]; rfl) (hseparator '/' (by rw [hkind]; rfl))
  · exact h.start (.quoted hkind) (apart_of_isWord (by rw [Component.isWord, hkind]; rfl) nodes)
  · exact h.start (.comment hkind) (apart_of_isWord (by rw [Component.isWord, hkind]; rfl) nodes)
  · apply hword
    cases hk : t.kind <;> first | rfl | simp_all

theorem Segments.push (h : Segments segs nodes) {c : Component} (hc : Spelled c) :
    ∃ segs' : List (List Component), segs'.reverse.flatten = segs.reverse.flatten ++ [c] ∧
      Segments segs' (Value.push nodes c) := by
  cases c with
  | token t =>
      rw [Value.push]
      exact h.pushToken hc
  | block opening body closed =>
      cases opening with
      | call name =>
          rw [Value.push]
          exact h.start (.call name body closed) (apart_of_isWord rfl nodes)
      | bracket bracket =>
          cases bracket with
          | round =>
              rw [Value.push]
              unfold pushGroup
              split
              · apply h.continue
                intro seg hseg
                obtain ⟨-, hall, rfl⟩ := hseg.word_inv
                exact .group hall body closed
              · have hseg : Segment ([] ++ [.block (.bracket .round) body closed])
                    (callOf (Component.sources []) (Value.pushAll [] body)) :=
                  .group (by simp) body closed
                exact h.start hseg (apart_of_isWord rfl nodes)
          | square =>
              rw [Value.push]
              · exact h.pushWord rfl
              · exact nofun
              · exact nofun
          | curly =>
              rw [Value.push]
              · exact h.pushWord rfl
              · exact nofun
              · exact nofun

theorem Segments.pushAll {cs : List Component} (hcs : ∀ c ∈ cs, Spelled c) (h : Segments segs nodes) :
    ∃ segs' : List (List Component), segs'.reverse.flatten = segs.reverse.flatten ++ cs ∧
      Segments segs' (Value.pushAll nodes cs) := by
  induction cs generalizing segs nodes with
  | nil =>
      rw [Value.pushAll]
      exact ⟨segs, (List.append_nil _).symm, h⟩
  | cons c rest ih =>
      obtain ⟨hc, hrest⟩ := List.forall_mem_cons.mp hcs
      obtain ⟨segs₁, hflat₁, hsegs₁⟩ := h.push hc
      obtain ⟨segs₂, hflat₂, hsegs₂⟩ := ih hrest hsegs₁
      rw [Value.pushAll]
      refine ⟨segs₂, ?_, hsegs₂⟩
      rw [hflat₂, hflat₁, List.append_assoc, List.singleton_append]

theorem spelled_of_stands {enclosing : Option Bracket} {post : Text} {cs : List Component}
    (h : Stands enclosing post cs) : ∀ c ∈ cs, Spelled c := by
  induction h with
  | nil => simp
  | token stands _ _ ih => exact List.forall_mem_cons.mpr ⟨spelled_of_standsBefore stands, ih⟩
  | closed _ _ _ _ ih => exact List.forall_mem_cons.mpr ⟨trivial, ih⟩
  | unclosed => exact List.forall_mem_cons.mpr ⟨trivial, by simp⟩

/-- The nodes of component values that stand are read from segments of them in a row. -/
theorem exists_segments {enclosing : Option Bracket} {post : Text} {cs : List Component}
    (h : Stands enclosing post cs) :
    ∃ segs : List (List Component), cs = segs.reverse.flatten ∧ Segments segs (pushAll [] cs) := by
  obtain ⟨segs, hflat, hsegs⟩ := Segments.pushAll (spelled_of_stands h) .nil
  exact ⟨segs, hflat.symm, hsegs⟩

/-- A place among the nodes is a place among the segments. -/
theorem Segments.split {newer older : List Node} {n : Node}
    (h : Segments segs (newer ++ n :: older)) :
    ∃ (segs₁ : List (List Component)) (seg : List Component) (segs₂ : List (List Component)),
      segs = segs₁ ++ seg :: segs₂ ∧ List.Forall₂ Segment segs₁ newer ∧ Segment seg n ∧
        Apart seg older ∧ Segments segs₂ older := by
  induction newer generalizing segs with
  | nil =>
      cases h with
      | cons hseg hapart holder => exact ⟨[], _, _, rfl, .nil, hseg, hapart, holder⟩
  | cons m newer ih =>
      cases h with
      | @cons first _ _ _ hfirst _ hrest =>
          obtain ⟨segs₁, seg, segs₂, rfl, hnewer, hseg, hapart, holder⟩ := ih hrest
          exact ⟨first :: segs₁, seg, segs₂, rfl, .cons hfirst hnewer, hseg, hapart, holder⟩

/-- Whether a component value becomes a call or a group. -/
def isGroup : Component → Bool
  | .token _ => false
  | .block opening _ _ => opening.brackets = .round

theorem isGroup_of_isWord {c : Component} (hc : c.isWord = true) : isGroup c = false := by
  cases c with
  | token t => rfl
  | block opening body closed =>
      cases opening with
      | call name => cases hc
      | bracket bracket =>
          cases bracket with
          | round => cases hc
          | square => rfl
          | curly => rfl

theorem isGroup_of_isSpace {c : Component} (hc : c.IsSpace) : isGroup c = false := by
  obtain ⟨t, rfl, -⟩ := hc
  rfl

theorem Segment.sources_eq {seg : List Component} {n : Node} (h : Segment seg n)
    (hn : n.isFunction = false) : Component.sources seg = n.render := by
  cases h with
  | word => simp [Node.render]
  | space => simp [Node.render]
  | divider _ htext => simp [Node.render, Component.source, htext]
  | quoted => simp [Node.render, Component.source]
  | comment => simp [Node.render, Component.source]
  | call => cases hn
  | group => cases hn

theorem Segment.isGroup_eq_false {seg : List Component} {n : Node} (h : Segment seg n)
    (hn : n.isFunction = false) : ∀ c ∈ seg, isGroup c = false := by
  cases h with
  | word _ hall => exact fun c hc => isGroup_of_isWord (hall c hc)
  | space hspace => exact fun c hc => by rw [List.mem_singleton.mp hc]; exact isGroup_of_isSpace hspace
  | divider _ _ hfront hback =>
      intro c hc
      rcases List.mem_append.mp hc with hc | hc
      · exact isGroup_of_isSpace (hfront c hc)
      · rcases List.mem_cons.mp hc with rfl | hc
        · rfl
        · exact isGroup_of_isSpace (hback c hc)
  | quoted => exact fun c hc => by rw [List.mem_singleton.mp hc]; rfl
  | comment => exact fun c hc => by rw [List.mem_singleton.mp hc]; rfl
  | call => cases hn
  | group => cases hn

theorem Segments.sources_eq (h : List.Forall₂ Segment segs nodes)
    (hnodes : ∀ n ∈ nodes, n.isFunction = false) :
    Component.sources segs.reverse.flatten = render nodes.reverse := by
  induction h with
  | nil => simp
  | cons hseg _ ih =>
      obtain ⟨hn, hrest⟩ := List.forall_mem_cons.mp hnodes
      simp [ih hrest, hseg.sources_eq hn]

theorem Segments.isGroup_eq_false (h : List.Forall₂ Segment segs nodes)
    (hnodes : ∀ n ∈ nodes, n.isFunction = false) :
    ∀ c ∈ segs.reverse.flatten, isGroup c = false := by
  induction h with
  | nil => simp
  | cons hseg _ ih =>
      obtain ⟨hn, hrest⟩ := List.forall_mem_cons.mp hnodes
      intro c hc
      rw [List.reverse_cons, List.flatten_append] at hc
      rcases List.mem_append.mp hc with hc | hc
      · exact ih hrest c hc
      · exact hseg.isGroup_eq_false hn c (by simpa using hc)

theorem Segments.forall₂ (h : Segments segs nodes) : List.Forall₂ Segment segs nodes := by
  induction h with
  | nil => exact .nil
  | cons hseg _ _ ih => exact .cons hseg ih

end Value
end FluidSizing
