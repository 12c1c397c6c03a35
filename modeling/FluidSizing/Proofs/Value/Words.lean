import FluidSizing.Proofs.Component.Reading
import FluidSizing.Proofs.Token.Plain
import FluidSizing.Proofs.Value.Segment

/-! Words as they are read. Text without quotes, brackets, backslashes, white space and separators is
component values of one word, before any text that does not go on with it (`Component.words_ofText`).
The reader of nodes looks at the last node only (`push_append`), so what is read of tokens is the same
behind a word or a function as it is alone, but for a word directly behind a word: these are one
(`pushAll_prepend`). -/

namespace FluidSizing

open Token (Apart)

namespace Token

/-- The characters inside words: those of plain text, but for white space and separators. -/
def isInner (c : Char) : Bool := isPlain c && !isBlank c && c ≠ ',' && c ≠ ':' && c ≠ '/'

def outerChars : List Char :=
  ['\x22', '\x27', '(', ')', '[', ']', '\x7b', '\x7d', '\\', '*', ' ', '\t', '\n', '\r', '\x0c', ',', ':',
    '/']

/-- A class of characters with none of these is inside words. -/
theorem isInner_of_class {p : Char → Bool} (hp : outerChars.all (fun d => !p d) = true) {c : Char}
    (hc : p c = true) : isInner c = true := by
  have hne : ∀ d ∈ outerChars, c ≠ d := by
    rintro d hd rfl
    have hout := List.all_eq_true.mp hp c hd
    rw [hc] at hout
    cases hout
  simp only [isInner, isPlain, isBlank, Bool.and_eq_true, decide_eq_true_eq]
  simpa [outerChars, and_assoc] using hne

theorem isPlain_of_isInner {c : Char} (h : isInner c = true) : isPlain c = true := by
  simp only [isInner, Bool.and_eq_true] at h
  exact h.1.1.1.1

theorem isBlank_of_isInner {c : Char} (h : isInner c = true) : isBlank c = false := by
  simp only [isInner, Bool.and_eq_true, Bool.not_eq_true'] at h
  exact h.1.1.1.2

theorem ne_of_isInner {c d : Char} (hc : isInner c = true) (hd : isInner d = false) : c ≠ d := by
  rintro rfl
  rw [hc] at hd
  cases hd

/-- Plain text goes on with a word, or it is apart from it. -/
theorem apart_of_isPlain {c : Char} (hplain : isPlain c = true) (hinner : isInner c = false)
    (rest : Text) : Apart (c :: rest) := by
  by_cases hblank : isBlank c = true
  · exact apart_of_isBlank hblank rest
  · have hseparator : c = ',' ∨ c = ':' ∨ c = '/' := by
      by_contra hnone
      simp only [not_or] at hnone
      simp [isInner, hplain, hblank, hnone] at hinner
    rcases hseparator with rfl | rfl | rfl <;> exact apart_cons (by decide) (by decide) (by decide) rest

theorem isWord_scan {c : Char} (hc : isInner c = true) (rest : Text) :
    (scan c rest).1.isWord = true := by
  obtain ⟨read, hread, hscan⟩ := exists_reader_eq c rest
  rw [hscan]
  cases hread with
  | blank hblank => simp [isInner, hblank] at hc
  | quote hquote => rcases hquote with rfl | rfl <;> exact absurd hc (by decide)
  | comment hslash => exact absurd hslash (ne_of_isInner hc (by decide))
  | named => rcases kind_scanNamed c rest with hkind | hkind | hkind <;> rw [hkind] <;> rfl
  | single =>
      have hkind := charKind c
      dsimp only
      generalize kindOfChar c = kind at hkind ⊢
      cases hkind with
      | comma h => exact absurd h (ne_of_isInner hc (by decide))
      | colon h => exact absurd h (ne_of_isInner hc (by decide))
      | slash h => exact absurd h (ne_of_isInner hc (by decide))
      | _ => rfl
  | _ => rfl

/-- A token of characters inside words is text of a word. -/
theorem StandsBefore.isWord {t : Token} {rest : Text} (h : t.StandsBefore rest)
    (htext : ∀ c ∈ t.text, isInner c = true) : t.kind.isWord = true := by
  obtain ⟨c, more, hspelled, hscan⟩ := h
  have hword := isWord_scan (htext c (by rw [hspelled]; exact List.mem_cons_self)) (more ++ rest)
  rwa [hscan] at hword

/-- A token of plain text is no bracket and no function. -/
theorem WellSpelled.isFlat {t : Token} (h : t.WellSpelled) (hplain : ∀ c ∈ t.text, isPlain c = true)
    (enclosing : Option Bracket) : t.kind.isFlat enclosing = true := by
  have hbracket : ∀ c, isPlain c = false → c ∉ t.text := fun c hc hmem => by
    rw [hplain c hmem] at hc
    cases hc
  obtain ⟨kind, text⟩ := t
  cases kind with
  | function =>
      obtain ⟨name, rfl⟩ : ∃ name, text = name ++ ['('] := h
      exact absurd (List.mem_append_right name (List.mem_singleton_self '(')) (hbracket '(' (by decide))
  | opening bracket =>
      obtain rfl : text = [bracket.opener] := h
      refine absurd (List.mem_singleton_self _) (hbracket bracket.opener ?_)
      cases bracket <;> decide
  | closing bracket =>
      obtain rfl : text = [bracket.close] := h
      refine absurd (List.mem_singleton_self _) (hbracket bracket.close ?_)
      cases bracket <;> decide
  | _ => rfl

theorem isOpen_of_isWord {t : Token} (h : t.kind.isWord = true) (hopen : '(' ∉ t.text) :
    t.isOpen = false := by
  obtain ⟨kind, text⟩ := t
  cases kind <;> first | (cases h; done) | simp_all [isOpen]

end Token

namespace Component

/-- The text of a word is tokens of a word. -/
theorem exists_words {text : Text} (htext : ∀ c ∈ text, Token.isInner c = true) :
    ∃ tokens : List Token, ofText text = tokens.map .token ∧
      ∀ t ∈ tokens, (∀ c ∈ t.text, Token.isInner c = true) ∧ t.WellSpelled ∧ t.kind.isWord = true := by
  have hplain : ∀ c ∈ text, Token.isPlain c = true := fun c hc =>
    Token.isPlain_of_isInner (htext c hc)
  obtain ⟨tokens, hsources, hstands⟩ := exists_stands_of_plain Token.fenced_nil hplain none
  refine ⟨tokens, by rw [← hsources, ofText_sources hstands], ?_⟩
  intro t ht
  obtain ⟨front, behind, rfl⟩ := List.append_of_mem ht
  have hchars : ∀ c ∈ t.text, Token.isInner c = true := by
    intro c hc
    refine htext c ?_
    rw [← hsources]
    simp [source, hc]
  rw [List.map_append, List.map_cons] at hstands
  obtain ⟨-, hlast⟩ := stands_append.mp hstands
  cases hlast with
  | token stands _ _ => exact ⟨hchars, stands.wellSpelled, stands.isWord hchars⟩

/-- The text of a word is component values of a word, which stand before any text that does not go on
with it. -/
theorem words_ofText {text : Text} (htext : ∀ c ∈ text, Token.isInner c = true) :
    (∀ c ∈ ofText text, c.isWord = true) ∧
      ∀ enclosing post, Apart post → Stands enclosing post (ofText text) := by
  obtain ⟨tokens, hread, htokens⟩ := exists_words htext
  have hmem : ∀ c ∈ ofText text, ∃ t ∈ tokens, token t = c := by
    intro c hc
    rw [hread] at hc
    exact List.mem_map.mp hc
  constructor
  · intro c hc
    obtain ⟨t, ht, rfl⟩ := hmem c hc
    exact (htokens t ht).2.2
  · intro enclosing post hpost
    have hbehind : Stands none post (ofText text) := by
      apply stands_of_closed
      · intro c hc
        obtain ⟨t, ht, rfl⟩ := hmem c (List.mem_of_getLast? hc)
        obtain ⟨hchars, -, hword⟩ := htokens t ht
        exact Token.isOpen_of_isWord hword fun hopen => absurd (hchars '(' hopen) (by decide)
      · exact fun hback => absurd (htext '\\' hback) (by decide)
      · exact hpost
      · intro t ht hkind
        obtain ⟨u, hu, heq⟩ := hmem _ (List.mem_of_getLast? ht)
        have hword := (htokens u hu).2.2
        rw [Component.token.inj heq, hkind] at hword
        cases hword
    refine hbehind.enclose fun t ht => ?_
    obtain ⟨u, hu, heq⟩ := hmem _ ht
    obtain ⟨hchars, hspelled, -⟩ := htokens u hu
    rw [← Component.token.inj heq]
    exact hspelled.isFlat (fun c hc => Token.isPlain_of_isInner (hchars c hc)) enclosing

end Component

namespace Value
open Component (Stands)

theorem pushAll_append (nodes : List Node) (cs ds : List Component) :
    pushAll nodes (cs ++ ds) = pushAll (pushAll nodes cs) ds := by
  induction cs generalizing nodes with
  | nil => simp [pushAll]
  | cons c cs ih => simp [pushAll, ih]

/-- The word that nodes end with, the last node first. -/
def lastWord (nodes : List Node) : Option Text := nodes.head?.bind Node.word?

variable {nodes : List Node}

theorem lastWord_eq_none (h : ∀ name rest, nodes = .word name :: rest → False) :
    lastWord nodes = none := by
  cases nodes with
  | nil => rfl
  | cons n rest =>
      cases n with
      | word name => exact (h name rest rfl).elim
      | _ => rfl

/-- Behind anything but a word a word is a node of its own. -/
theorem pushWord_of_lastWord (h : lastWord nodes = none) (text : Text) :
    pushWord nodes text = .word text :: nodes := by
  unfold pushWord
  split
  · cases h
  · rfl

theorem push_of_isWord {c : Component} (h : c.isWord = true) (nodes : List Node) :
    push nodes c = pushWord nodes c.source := by
  cases c with
  | token t =>
      obtain ⟨kind, text⟩ := t
      rw [push, Component.source]
      cases kind <;> first | rfl | cases h
  | block opening body closed =>
      cases opening with
      | call name => cases h
      | bracket bracket =>
          cases bracket with
          | round => cases h
          | square => simp [push]
          | curly => simp [push]

/-- Component values of a word go on with the word before them. -/
theorem pushAll_word {cs : List Component} (hcs : ∀ c ∈ cs, c.isWord = true) (front : Text) :
    pushAll (.word front :: nodes) cs = .word (front ++ Component.sources cs) :: nodes := by
  induction cs generalizing front with
  | nil => simp [pushAll]
  | cons c cs ih =>
      obtain ⟨hc, hrest⟩ := List.forall_mem_cons.mp hcs
      have hstep : pushWord (.word front :: nodes) c.source = .word (front ++ c.source) :: nodes := rfl
      rw [pushAll, push_of_isWord hc, hstep, ih hrest]
      simp

/-- The component values of a word are one node. -/
theorem pushAll_words {cs : List Component} (hcs : ∀ c ∈ cs, c.isWord = true) (hne : cs ≠ [])
    (h : lastWord nodes = none) : pushAll nodes cs = .word (Component.sources cs) :: nodes := by
  cases cs with
  | nil => exact absurd rfl hne
  | cons c cs =>
      obtain ⟨hc, hrest⟩ := List.forall_mem_cons.mp hcs
      rw [pushAll, push_of_isWord hc, pushWord_of_lastWord h, pushAll_word hrest]
      simp

/-- The text of a word is one node. -/
theorem pushAll_ofText {text : Text} (htext : ∀ c ∈ text, Token.isInner c = true) (hne : text ≠ [])
    (h : lastWord nodes = none) : pushAll nodes (Component.ofText text) = .word text :: nodes := by
  have hcs : Component.ofText text ≠ [] := by
    intro hnil
    rw [← Component.source_ofText text, hnil] at hne
    exact hne rfl
  rw [pushAll_words (Component.words_ofText htext).1 hcs h, Component.source_ofText]

/-- A node before others in a row. A word directly before a word is one with it. -/
def prepend : Node → List Node → List Node
  | .word text, .word more :: rest => .word (text ++ more) :: rest
  | n, nodes => n :: nodes

@[simp] theorem prepend_nil (n : Node) : prepend n [] = [n] := by cases n <;> rfl

theorem prepend_of_isFunction {n : Node} (h : n.isFunction = true) (nodes : List Node) :
    prepend n nodes = n :: nodes := by
  cases n with
  | function => simp [prepend]
  | _ => cases h

theorem prepend_ne_nil (n : Node) (nodes : List Node) : prepend n nodes ≠ [] := by
  unfold prepend
  split <;> exact List.cons_ne_nil _ _

theorem prepend_append (n : Node) {front : List Node} (h : front ≠ []) (back : List Node) :
    prepend n (front ++ back) = prepend n front ++ back := by
  obtain ⟨m, front, rfl⟩ := List.exists_cons_of_ne_nil h
  cases n with
  | word => cases m <;> rfl
  | _ => rfl

/-- The reader looks at the last node only. -/
theorem push_append {front : List Node} (h : front ≠ []) (older : List Node) (c : Component) :
    push (front ++ older) c = push front c ++ older := by
  obtain ⟨n, front, rfl⟩ := List.exists_cons_of_ne_nil h
  have hspace : ∀ text,
      pushSpace (n :: front ++ older) text = pushSpace (n :: front) text ++ older := by
    intro text
    cases n with
    | divider separator before after => cases after <;> rfl
    | _ => rfl
  have hdivider : ∀ separator,
      pushDivider (n :: front ++ older) separator = pushDivider (n :: front) separator ++ older := by
    intro separator
    cases n <;> rfl
  have hword : ∀ text, pushWord (n :: front ++ older) text = pushWord (n :: front) text ++ older := by
    intro text
    cases n <;> rfl
  cases c with
  | token t =>
      obtain ⟨kind, text⟩ := t
      simp only [push]
      cases kind with
      | whitespace => exact hspace text
      | comma => exact hdivider ','
      | colon => exact hdivider ':'
      | slash => exact hdivider '/'
      | string => rfl
      | comment => rfl
      | _ => exact hword text
  | block opening body closed =>
      cases opening with
      | call name => simp [push]
      | bracket bracket =>
          cases bracket with
          | round =>
              simp only [push]
              cases n <;> rfl
          | square => simpa only [push] using hword _
          | curly => simpa only [push] using hword _

theorem push_ne_nil (nodes : List Node) (c : Component) : push nodes c ≠ [] := by
  have hspace : ∀ text, pushSpace nodes text ≠ [] := by
    intro text
    unfold pushSpace
    split <;> exact List.cons_ne_nil _ _
  have hdivider : ∀ separator, pushDivider nodes separator ≠ [] := by
    intro separator
    unfold pushDivider
    split <;> exact List.cons_ne_nil _ _
  have hword : ∀ text, pushWord nodes text ≠ [] := by
    intro text
    unfold pushWord
    split <;> exact List.cons_ne_nil _ _
  cases c with
  | token t =>
      rw [push]
      unfold pushToken
      split <;> first | exact hspace _ | exact hdivider _ | exact hword _ | exact List.cons_ne_nil _ _
  | block opening body closed =>
      rw [push.eq_def]
      dsimp only
      split
      · exact List.cons_ne_nil _ _
      · unfold pushGroup
        split <;> exact List.cons_ne_nil _ _
      · exact hword _

theorem pushAll_append_older {front : List Node} (h : front ≠ []) (older : List Node)
    (cs : List Component) : pushAll (front ++ older) cs = pushAll front cs ++ older := by
  induction cs generalizing front with
  | nil => simp [pushAll]
  | cons c cs ih => rw [pushAll, pushAll, push_append h, ih (push_ne_nil front c)]

/-- Whether what is read behind a node stands behind it, words apart. -/
def IsBarrier (n : Node) : Prop := n.isFunction = true ∨ ∃ text, n = .word text

theorem pushToken_prepend_nil {n : Node} (hn : IsBarrier n) (t : Token) :
    pushToken [n] t = (prepend n (pushToken [] t).reverse).reverse := by
  obtain ⟨kind, text⟩ := t
  rcases hn with hn | ⟨front, rfl⟩
  · cases n with
    | function => cases kind <;> rfl
    | _ => cases hn
  · cases kind <;> rfl

theorem pushToken_prepend_singleton {n : Node} (hn : IsBarrier n) (m : Node) (t : Token) :
    pushToken (prepend n [m]).reverse t = (prepend n (pushToken [m] t).reverse).reverse := by
  obtain ⟨kind, text⟩ := t
  rcases hn with hn | ⟨front, rfl⟩
  · cases n with
    | function =>
        cases m with
        | divider separator before after => cases after <;> cases kind <;> rfl
        | _ => cases kind <;> rfl
    | _ => cases hn
  · cases m with
    | divider separator before after => cases after <;> cases kind <;> rfl
    | word text => cases kind <;> simp [prepend, pushToken, pushSpace, pushDivider, pushWord]
    | _ => cases kind <;> rfl

theorem push_prepend {n : Node} (hn : IsBarrier n) (nodes : List Node) (t : Token) :
    push (prepend n nodes.reverse).reverse (.token t) =
      (prepend n (push nodes (.token t)).reverse).reverse := by
  rcases List.eq_nil_or_concat nodes with rfl | ⟨newer, m, rfl⟩
  · simpa [push] using pushToken_prepend_nil hn t
  rw [List.concat_eq_append]
  by_cases hnewer : newer = []
  · subst hnewer
    simpa [push] using pushToken_prepend_singleton hn m t
  · have hm : [m] ≠ [] := List.cons_ne_nil m []
    calc push (prepend n (newer ++ [m]).reverse).reverse (.token t)
        = push (newer ++ (prepend n [m]).reverse) (.token t) := by
          rw [List.reverse_append, List.reverse_singleton, prepend_append n hm, List.reverse_append,
            List.reverse_reverse]
      _ = push newer (.token t) ++ (prepend n [m]).reverse := push_append hnewer _ _
      _ = (prepend n (push newer (.token t) ++ [m]).reverse).reverse := by
          rw [List.reverse_append, List.reverse_singleton, prepend_append n hm, List.reverse_append,
            List.reverse_reverse]
      _ = (prepend n (push (newer ++ [m]) (.token t)).reverse).reverse := by
          rw [push_append hnewer]

/-- Behind a word or a function tokens are read as they are alone, but for a word directly behind a
word. -/
theorem pushAll_prepend {n : Node} (hn : IsBarrier n) (nodes : List Node) (tokens : List Token) :
    pushAll (n :: nodes) (tokens.map .token) =
      (prepend n (ofComponents (tokens.map .token))).reverse ++ nodes := by
  have hall : ∀ newer, pushAll ((prepend n newer.reverse).reverse ++ nodes) (tokens.map .token) =
      (prepend n (pushAll newer (tokens.map .token)).reverse).reverse ++ nodes := by
    induction tokens with
    | nil => simp [pushAll]
    | cons t tokens ih =>
        intro newer
        have hne : (prepend n newer.reverse).reverse ≠ [] :=
          fun hnil => prepend_ne_nil n _ (List.reverse_eq_nil_iff.mp hnil)
        rw [List.map_cons, pushAll, pushAll, push_append hne, push_prepend hn, ih]
  simpa [ofComponents] using hall []

end Value
end FluidSizing
