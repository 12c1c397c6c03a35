import FluidSizing.Proofs.Fluid.Outcome
import FluidSizing.Proofs.Token.Plain
import FluidSizing.Proofs.Value.Functions
import FluidSizing.Proofs.Value.Segment

/-! Where a replaced call stands among the component values of its `clamp` function: behind a separator
and white space, as the keyword and a closed block in parentheses, with plain text behind it
(`exists_callSite`). -/

namespace FluidSizing

namespace Token

theorem scan_fluidName (rest : Text) :
    scan '@' (['f', 'l', 'u', 'i', 'd'] ++ '(' :: rest) = (.atKeyword, 5) := rfl

theorem scan_at_ne_function (rest : Text) : (scan '@' rest).1 ≠ .function := by
  obtain ⟨read, hread, hscan⟩ := exists_reader_eq '@' rest
  rw [hscan]
  cases hread with
  | quote h => exact absurd h (by decide)
  | named h => exact absurd h Bool.false_ne_true
  | single => exact nofun
  | _ => exact nofun

end Token

namespace Value
open Component (Stands IsSpace)

theorem isDivider_or_mem_arguments {nodes : List Node} {n : Node} (hn : n ∈ nodes) :
    n.isDivider = true ∨ n ∈ arguments nodes := by
  by_cases hdivider : n.isDivider = true
  · exact Or.inl hdivider
  · refine Or.inr (List.mem_filter.mpr ⟨hn, ?_⟩)
    simp [hdivider]

theorem exists_divider {n : Node} (h : n.isDivider = true) :
    ∃ separator before after, n = .divider separator before after := by
  cases n with
  | divider separator before after => exact ⟨separator, before, after, rfl⟩
  | _ => cases h

end Value

/-- The component values of a fluid call: the keyword and a closed block in parentheses. -/
def FluidCall.components (inside : List Component) : List Component :=
  [.token ⟨.atKeyword, fluidName⟩, .block (.bracket .round) inside true]

/-- The component values inside a `clamp` function around the call that is replaced: those up to the
last separator before the call, that separator, white space, the inside of the call, and those behind
the call. -/
structure CallSite where
  lead : List Component
  separator : Token
  spaces : List Component
  inside : List Component
  trail : List Component

namespace CallSite

def front (site : CallSite) : List Component :=
  site.lead ++ .token site.separator :: site.spaces

def components (site : CallSite) : List Component :=
  site.front ++ (FluidCall.components site.inside ++ site.trail)

/-- What holds around a call that is replaced. -/
structure Valid (site : CallSite) : Prop where
  separator : ∃ c, site.separator.kind.separator? = some c ∧ site.separator.text = [c]
  spaces : ∀ c ∈ site.spaces, c.IsSpace
  lead : ∀ c ∈ site.lead, Value.isGroup c = false
  trail : ∀ c ∈ Component.sources site.trail, Token.isPlain c = true

end CallSite

open Component (Stands IsSpace)
open Value (Segment Segments)

theorem Component.eq_keyword_of_sources {enclosing : Option Bracket} {rest : Text}
    {cs : List Component} (h : Stands enclosing ('(' :: rest) cs)
    (hcs : ∀ c ∈ cs, c.isWord = true) (hsources : Component.sources cs = fluidName) :
    cs = [.token ⟨.atKeyword, fluidName⟩] := by
  cases cs with
  | nil => cases hsources
  | cons c behind =>
      rw [Component.sources_cons] at hsources
      cases c with
      | token t =>
          cases h with
          | token stands _ hbehind =>
              obtain ⟨kind, text⟩ := t
              obtain ⟨first, more, rfl, hscan⟩ := stands
              rw [Component.source, List.cons_append] at hsources
              obtain ⟨rfl, hmore⟩ := List.cons.inj hsources
              rw [← List.append_assoc, hmore, Token.scan_fluidName] at hscan
              obtain ⟨rfl, hlen⟩ := Prod.mk.inj hscan
              have hnil : Component.sources behind = [] := by
                have hlength := congrArg List.length hmore
                rw [List.length_append, ← hlen] at hlength
                exact List.length_eq_zero_iff.mp (by simpa using hlength)
              obtain rfl := hbehind.eq_nil_of_sources hnil
              rw [hnil, List.append_nil] at hmore
              rw [hmore]
              rfl
      | block opening body closed =>
          -- a block among the text of a word starts with another bracket
          have hword := hcs _ List.mem_cons_self
          cases opening with
          | call name => cases hword
          | bracket bracket =>
              cases bracket with
              | round => cases hword
              | square => cases hsources
              | curly => cases hsources

theorem isBlank_of_mem_sources {cs : List Component} (hcs : ∀ c ∈ cs, c.IsSpace) :
    ∀ d ∈ Component.sources cs, Token.isBlank d = true := by
  induction cs with
  | nil => simp
  | cons c cs ih =>
      obtain ⟨⟨t, rfl, -, hblank⟩, hrest⟩ := List.forall_mem_cons.mp hcs
      intro d hd
      rw [Component.sources_cons, Component.source] at hd
      rcases List.mem_append.mp hd with hd | hd
      · exact hblank d hd
      · exact ih hrest d hd

theorem Token.isPlain_of_isBlank {c : Char} (h : isBlank c = true) : isPlain c = true := by
  simp only [isBlank, Bool.or_eq_true, decide_eq_true_eq] at h
  rcases h with (((rfl | rfl) | rfl) | rfl) | rfl <;> decide

theorem Token.isPlain_of_separator? {kind : Kind} {c : Char} (h : kind.separator? = some c) :
    isPlain c = true := by
  cases kind <;> cases h <;> decide

theorem Token.isPlain_of_isPart {c : Char} (h : Length.isPart c = true) : isPlain c = true := by
  by_contra hplain
  simp only [isPlain, Bool.and_eq_true, decide_eq_true_eq, ne_eq, not_and_or, not_not] at hplain
  rcases hplain with ((((((((rfl | rfl) | rfl) | rfl) | rfl) | rfl) | rfl) | rfl) | rfl) | rfl <;>
    exact absurd h (by decide)

/-- Separators, white space and words of plain text are plain text. -/
theorem Value.Segment.isPlain {seg : List Component} {n : Node} (h : Segment seg n)
    (hn : n.isFunction = false) (hquoted : ∀ text, n ≠ .quoted text)
    (hcomment : ∀ text, n ≠ .comment text)
    (hword : ∀ word, n = .word word → ∀ c ∈ word, Token.isPlain c = true) :
    ∀ c ∈ Component.sources seg, Token.isPlain c = true := by
  cases h with
  | word => exact hword _ rfl
  | @space c hspace =>
      have hall : ∀ d ∈ [c], d.IsSpace := by simpa using hspace
      exact fun d hd => Token.isPlain_of_isBlank (isBlank_of_mem_sources hall d hd)
  | divider hkind htext hfront hback =>
      intro d hd
      simp only [Component.sources_append, Component.sources_cons, Component.source, htext,
        List.mem_append, List.mem_singleton] at hd
      rcases hd with hd | rfl | hd
      · exact Token.isPlain_of_isBlank (isBlank_of_mem_sources hfront d hd)
      · exact Token.isPlain_of_separator? hkind
      · exact Token.isPlain_of_isBlank (isBlank_of_mem_sources hback d hd)
  | quoted => exact absurd rfl (hquoted _)
  | comment => exact absurd rfl (hcomment _)
  | call => cases hn
  | group => cases hn

/-- Behind a separator and white space the segments end with these. -/
theorem Value.Segments.exists_separator {segs : List (List Component)} {separator : Char}
    {before after : Text} {older : List Node}
    (h : Segments segs (.divider separator before after :: older))
    (holder : ∀ n ∈ older, n.isFunction = false) :
    ∃ (lead : List Component) (t : Token) (spaces : List Component),
      segs.reverse.flatten = lead ++ .token t :: spaces ∧ t.kind.separator? = some separator ∧
        t.text = [separator] ∧ (∀ c ∈ spaces, c.IsSpace) ∧ ∀ c ∈ lead, isGroup c = false := by
  cases h with
  | @cons seg segs _ _ hseg _ hrest =>
      obtain ⟨t, front, back, rfl, hkind, htext, hfront, hback, -, -⟩ := hseg.divider_inv
      refine ⟨segs.reverse.flatten ++ front, t, back, by simp, hkind, htext, hback, ?_⟩
      intro c hc
      rcases List.mem_append.mp hc with hc | hc
      · exact Segments.isGroup_eq_false hrest.forall₂ holder c hc
      · exact isGroup_of_isSpace (hfront c hc)

/-- The nodes on one side of a replaced call: separators and white space around a word. -/
def Value.IsSide (word : Text) (nodes : List Node) : Prop :=
  ∀ n ∈ nodes, n.isDivider = true ∨ n = .word word ∨ ∃ text, n = .space text

theorem Value.IsSide.isFunction_eq_false {word : Text} {nodes : List Node} (h : IsSide word nodes) :
    ∀ n ∈ nodes, n.isFunction = false := by
  intro n hn
  rcases h n hn with hdivider | rfl | ⟨text, rfl⟩
  · obtain ⟨separator, before, after, rfl⟩ := exists_divider hdivider
    rfl
  · rfl
  · rfl

theorem Value.isSide_of_arguments {word : Text} {nodes spaces : List Node}
    (h : arguments nodes = [.word word]) (hspaces : ∀ n ∈ spaces, ∃ text, n = .space text) :
    IsSide word (nodes ++ spaces) := by
  intro n hn
  rcases List.mem_append.mp hn with hn | hn
  · rcases isDivider_or_mem_arguments hn with hdivider | hword
    · exact Or.inl hdivider
    · rw [h] at hword
      exact Or.inr (Or.inl (List.mem_singleton.mp hword))
  · exact Or.inr (Or.inr (hspaces n hn))

theorem Value.Segments.isPlain {word : Text} (hword : ∀ c ∈ word, Token.isPlain c = true)
    {segs : List (List Component)} {nodes : List Node} (h : List.Forall₂ Segment segs nodes)
    (hnodes : IsSide word nodes) :
    ∀ c ∈ Component.sources segs.reverse.flatten, Token.isPlain c = true := by
  induction h with
  | nil => simp
  | @cons seg n segs nodes hseg _ ih =>
      have hn := hnodes n List.mem_cons_self
      intro c hc
      rw [List.reverse_cons, List.flatten_append, Component.sources_append] at hc
      rcases List.mem_append.mp hc with hc | hc
      · exact ih (fun m hm => hnodes m (List.mem_cons_of_mem n hm)) c hc
      · have hplain : ∀ c ∈ Component.sources seg, Token.isPlain c = true := by
          rcases hn with hdivider | rfl | ⟨text, rfl⟩
          · obtain ⟨separator, before, after, rfl⟩ := exists_divider hdivider
            exact hseg.isPlain rfl nofun nofun nofun
          · apply hseg.isPlain rfl nofun nofun
            intro w hw
            obtain rfl := Node.word.inj hw
            exact hword
          · exact hseg.isPlain rfl nofun nofun nofun
        exact hplain c (by simpa using hc)

theorem Value.render_ne_nil {nodes : List Node} {word : Text} (hword : word ≠ [])
    (h : arguments nodes = [.word word]) : render nodes ≠ [] := by
  have hmem : Node.word word ∈ nodes :=
    List.mem_of_mem_filter (h ▸ List.mem_singleton_self _ : Node.word word ∈ arguments nodes)
  obtain ⟨front, back, rfl⟩ := List.append_of_mem hmem
  simp [Node.render, hword]

/-- The segment of a fluid call is the keyword with a block in parentheses, closed if anything stands
behind it. -/
theorem Value.Segment.eq_components {enclosing : Option Bracket} {post : Text}
    {seg behind : List Component} {before after : Text} {words : List Node}
    (h : Stands enclosing post (seg ++ behind)) (hbehind : behind ≠ [])
    (hseg : Segment seg (.function fluidName before words after)) :
    ∃ inside : List Component, seg = FluidCall.components inside ∧
      .function fluidName before words after = Value.callOf fluidName (Value.pushAll [] inside) := by
  rcases hseg.function_inv rfl with ⟨name, inside, closed, rfl, hcall⟩ |
    ⟨cs, inside, closed, hcs, rfl, hcall⟩
  · -- no function token starts with the sign of a keyword
    obtain ⟨_, _, _, hname, -⟩ := Value.callOf_eq name (pushAll [] inside)
    rw [hname] at hcall
    obtain ⟨rfl, -⟩ := Node.function.inj hcall
    have hfunction : ∀ rest, ¬(Opening.call fluidName).token.StandsBefore rest := by
      rintro rest ⟨c, more, htext, hscan⟩
      obtain ⟨rfl, -⟩ := List.cons.inj htext
      exact Token.scan_at_ne_function _ (congrArg Prod.fst hscan)
    rw [List.singleton_append] at h
    cases h with
    | closed stands _ _ => exact absurd stands (hfunction _)
    | unclosed stands _ => exact absurd stands (hfunction _)
  · obtain ⟨_, _, _, hname, -⟩ := Value.callOf_eq (Component.sources cs) (pushAll [] inside)
    have hsources : Component.sources cs = fluidName := by
      rw [hname] at hcall
      exact (Node.function.inj hcall).1.symm
    rw [List.append_assoc] at h
    obtain ⟨hword, hblock⟩ := Component.stands_append.mp h
    have hopen : Component.sources ([.block (.bracket .round) inside closed] ++ behind) ++ post =
        '(' :: (Component.sources inside ++ (if closed then [')'] else []) ++
          Component.sources behind ++ post) := by
      simp [Component.source, Opening.text, Opening.brackets, Bracket.opener, Bracket.close]
    rw [hopen] at hword
    rw [hsources] at hcall
    refine ⟨inside, ?_, hcall⟩
    rw [Component.eq_keyword_of_sources hword hcs hsources]
    cases closed with
    | true => rfl
    | false =>
        cases hblock with
        | unclosed => exact absurd rfl hbehind

theorem exists_callSite {settings : Settings} {enclosing : Option Bracket} {post : Text}
    {body : List Component} (h : Stands enclosing post body) {name name' before after : Text}
    {nodes : List Node}
    (hcall : Value.callOf name (Value.pushAll [] body) = .function name' before nodes after)
    {place : Nat} {size : FluidSize} {diagnostic : Option Diagnostic}
    (hout : Clamp.outcome settings nodes = .rewritten place size diagnostic) :
    ∃ site : CallSite, body = site.components ∧ site.Valid ∧
      nodes[place]? = some (Value.callOf fluidName (Value.pushAll [] site.inside)) ∧
      Component.sources site.front = before ++ Value.render (nodes.take place) ∧
      Component.sources site.trail = Value.render (nodes.drop (place + 1)) ++ after := by
  obtain ⟨front, back, words, before', after', low, high, lowLength, highLength, numbers, rfl, rfl,
    hfront, hback, -, hhigh, -, -⟩ := Clamp.outcome_eq_rewritten hout
  obtain ⟨leading, nodes, trailing, hcall', hreverse, hspaces⟩ :=
    Value.callOf_eq name (Value.pushAll [] body)
  rw [hcall'] at hcall
  obtain ⟨-, rfl, rfl, rfl⟩ := Node.function.inj hcall
  obtain ⟨segs, rfl, hsegs⟩ := Value.exists_segments h
  have hpush : Value.pushAll [] segs.reverse.flatten =
      (back ++ trailing).reverse ++ .function fluidName before' words after' ::
        (leading ++ front).reverse := by
    rw [← List.reverse_reverse (Value.pushAll [] segs.reverse.flatten), hreverse]
    simp
  rw [hpush] at hsegs
  obtain ⟨segs₁, seg, segs₂, rfl, htrail, hseg, hapart, hlead⟩ := hsegs.split
  have hbackside : Value.IsSide high (back ++ trailing).reverse := fun n hn =>
    Value.isSide_of_arguments hback (fun m hm => hspaces m (List.mem_append_right _ hm)) n
      (List.mem_reverse.mp hn)
  have hsources := Value.Segments.sources_eq htrail hbackside.isFunction_eq_false
  rw [List.reverse_reverse, Value.render_append] at hsources
  have hflat : (segs₁ ++ seg :: segs₂).reverse.flatten =
      segs₂.reverse.flatten ++ (seg ++ segs₁.reverse.flatten) := by simp
  rw [hflat] at h ⊢
  have hbehind : segs₁.reverse.flatten ≠ [] := by
    intro hnil
    rw [hnil, Component.sources_nil] at hsources
    exact Value.render_ne_nil (Length.ne_nil_of_read hhigh) hback
      (List.append_eq_nil_iff.mp hsources.symm).1
  obtain ⟨inside, rfl, hnode⟩ :=
    Value.Segment.eq_components (Component.stands_append.mp h).2 hbehind hseg
  have hleadside : Value.IsSide low (leading ++ front).reverse := fun n hn =>
    Value.isSide_of_arguments hfront (fun m hm => hspaces m (List.mem_append_left _ hm)) n
      ((List.perm_append_comm.mem_iff).mp (List.mem_reverse.mp hn))
  have hbefore := Value.Segments.sources_eq hlead.forall₂ hleadside.isFunction_eq_false
  rw [List.reverse_reverse, Value.render_append] at hbefore
  obtain ⟨older, last, rfl⟩ : ∃ older last, front = older ++ [last] := by
    rcases List.eq_nil_or_concat front with rfl | ⟨older, last, rfl⟩
    · cases hfront
    · exact ⟨older, last, List.concat_eq_append⟩
  have hreversed : (leading ++ (older ++ [last])).reverse = last :: (leading ++ older).reverse := by
    simp
  rw [hreversed] at hapart hlead hleadside
  have hdivider : last.isDivider = true := by
    rcases Value.isDivider_or_mem_arguments (List.mem_append_right older (List.mem_singleton_self last))
      with hdivider | hword
    · exact hdivider
    · rw [hfront] at hword
      obtain rfl := List.mem_singleton.mp hword
      exact absurd (hapart _ _ _ _ rfl rfl) nofun
  obtain ⟨separator, sepBefore, sepAfter, rfl⟩ := Value.exists_divider hdivider
  obtain ⟨lead, t, spaces, hflat₂, hkind, htext, hspace, hgroup⟩ := hlead.exists_separator
    fun n hn => hleadside.isFunction_eq_false n (List.mem_cons_of_mem _ hn)
  refine ⟨⟨lead, t, spaces, inside, segs₁.reverse.flatten⟩, ?_, ⟨⟨separator, hkind, htext⟩, hspace,
    hgroup, ?_⟩, ?_, ?_, ?_⟩
  · rw [hflat₂]
    rfl
  · exact Value.Segments.isPlain
      (fun c hc => Token.isPlain_of_isPart (Length.isPart_of_mem_of_read hhigh c hc)) htrail hbackside
  · rw [List.getElem?_append_right (Nat.le_refl _), Nat.sub_self, List.getElem?_cons_zero, hnode]
  · rw [List.take_left, ← hbefore, hflat₂]
    rfl
  · rw [hsources, ← List.drop_drop, List.drop_left]
    rfl

end FluidSizing
