import FluidSizing.Proofs.Component.Near
import FluidSizing.Proofs.Fluid.Call
import FluidSizing.Proofs.Fluid.SizeText
import FluidSizing.Proofs.Value.Lossless

/-! A replaced call, read again. The size stands where the call stood, with the plain text behind it,
and what is before the call stands as it did: a separator, white space and whatever is before these
(`CallSite.exists_replaced`). Read again, the `clamp` function around it has no fluid call any more, so
there is nothing to replace and nothing to report (`Node.Quiet`). -/

namespace FluidSizing

open Component (Stands)
open Token (Near)

namespace Token

theorem isFence_of_separator? {kind : Kind} {c : Char} (h : kind.separator? = some c) :
    isFence c = true := by
  cases kind <;> cases h <;> decide

/-- A separator stands before everything but the rest of a comment mark. -/
theorem standsBefore_separator {t : Token} {c : Char} {rest : Text}
    (hkind : t.kind.separator? = some c) (htext : t.text = [c]) (hstar : rest.head? ≠ some '*') :
    t.StandsBefore rest := by
  obtain ⟨kind, text⟩ := t
  refine ⟨c, [], htext, ?_⟩
  cases kind with
  | comma => cases hkind; rfl
  | colon => cases hkind; rfl
  | slash =>
      cases hkind
      rw [List.nil_append, scan, if_neg (by decide), if_neg (by decide), if_neg (by simp [hstar])]
      rfl
  | _ => cases hkind

/-- White space ends before any character that is none. -/
theorem StandsBefore.of_whitespace {t : Token} {mid : Text} {c d : Char} {rest rest' : Text}
    (h : t.StandsBefore (mid ++ c :: rest)) (hkind : t.kind = .whitespace)
    (hmid : ∀ x ∈ mid, isBlank x = true) (hc : isBlank c = false) (hd : isBlank d = false) :
    t.StandsBefore (mid ++ d :: rest') := by
  obtain ⟨first, more, htext, hscan⟩ := h
  have hblank : ∀ x ∈ first :: more, isBlank x = true := by
    rw [← htext]
    exact StandsBefore.isBlank_of_whitespace ⟨first, more, htext, hscan⟩ hkind
  obtain ⟨hfirst, hmore⟩ := List.forall_mem_cons.mp hblank
  have htake : ∀ (x : Char) (rest : Text), isBlank x = false →
      (more ++ (mid ++ x :: rest)).takeWhile isBlank = more ++ mid := by
    intro x rest hx
    rw [List.takeWhile_append_of_pos hmore, List.takeWhile_append_of_pos hmid,
      List.takeWhile_cons_of_neg (by simp [hx]), List.append_nil]
  refine ⟨first, more, htext, ?_⟩
  rw [scan, if_pos hfirst, htake c rest hc] at hscan
  rw [scan, if_pos hfirst, htake d rest' hd]
  exact hscan

end Token

/-- A size starts neither with white space nor with the second half of a comment mark. -/
theorem FluidSize.exists_head (size : FluidSize) :
    ∃ c rest, size.render = c :: rest ∧ Token.isBlank c = false ∧ c ≠ '*' := by
  cases size with
  | growing line => exact ⟨'c', _, FluidSize.render_growing line, by decide, by decide⟩
  | fixed x =>
      have hrender : (FluidSize.fixed x).render = formatNumber x ++ ['p', 'x'] := rfl
      cases hnumber : formatNumber x with
      | nil => exact ⟨'p', ['x'], by rw [hrender, hnumber]; rfl, by decide, by decide⟩
      | cons c rest =>
          have hpart : isNumberPart c = true :=
            isNumberPart_render _ c (by rw [← formatNumber, hnumber]; exact List.mem_cons_self)
          refine ⟨c, rest ++ ['p', 'x'], by rw [hrender, hnumber]; rfl, ?_, ?_⟩
          · by_contra hblank
            simp only [Token.isBlank, Bool.not_eq_false, Bool.or_eq_true, decide_eq_true_eq] at hblank
            rcases hblank with (((rfl | rfl) | rfl) | rfl) | rfl <;> exact absurd hpart (by decide)
          · rintro rfl
            exact absurd hpart (by decide)

namespace CallSite

/-- The white space before a call stands before anything else that is not blank. -/
theorem stands_spaces {enclosing : Option Bracket} {spaces : List Component}
    (hspaces : ∀ c ∈ spaces, c.IsSpace) {c d : Char} {rest rest' : Text}
    (h : Stands enclosing (c :: rest) spaces) (hc : Token.isBlank c = false)
    (hd : Token.isBlank d = false) : Stands enclosing (d :: rest') spaces := by
  induction spaces with
  | nil => exact .nil _ _
  | cons space spaces ih =>
      obtain ⟨⟨t, rfl, hkind, -⟩, hrest⟩ := List.forall_mem_cons.mp hspaces
      cases h with
      | token stands flat behind =>
          exact .token (stands.of_whitespace hkind (isBlank_of_mem_sources hrest) hc hd) flat
            (ih hrest behind)

variable {site : CallSite} {post : Text}

/-- What stands before the call and what stands before the size are the same up to the separator. -/
theorem near_separator {t : Token} {separator : Char} (hkind : t.kind.separator? = some separator)
    (htext : t.text = [separator]) (spaces : List Component) (text text' : Text) :
    Near (Component.sources (.token t :: spaces) ++ text)
      (Component.sources (.token t :: spaces) ++ text') := by
  have hfence : Token.isFence separator = true := Token.isFence_of_separator? hkind
  rw [Component.sources_cons, Component.source, htext, List.append_assoc, List.append_assoc]
  exact .fenced [] hfence hfence (List.cons_ne_nil _ _)

/-- With a size in place of the call, and the plain text behind it, everything before stays. -/
theorem exists_replaced (h : Stands (some .round) post site.components) (hsite : site.Valid)
    (size : FluidSize) :
    ∃ behind : List Component,
      Component.sources behind = size.render ++ Component.sources site.trail ∧
      (∀ c ∈ site.front ++ behind, c.IsCalm) ∧
      ∀ post', Token.Fenced post' → Stands (some .round) post' (site.front ++ behind) ∧
        Near (Component.sources site.components ++ post)
          (Component.sources (site.front ++ behind) ++ post') := by
  obtain ⟨behind, hsources, hcalm, hbehind⟩ := exists_stands_size size hsite.trail
  obtain ⟨c, rest, hhead, hblank, hstar⟩ := size.exists_head
  obtain ⟨separator, hkind, htext⟩ := hsite.separator
  have hfrontcalm : ∀ c ∈ site.front, c.IsCalm := by
    intro c hc
    rcases List.mem_append.mp hc with hc | hc
    · exact Or.inl (hsite.lead c hc)
    · rcases List.mem_cons.mp hc with rfl | hc
      · exact Or.inl rfl
      · exact Or.inl (Value.isGroup_of_isSpace (hsite.spaces c hc))
  refine ⟨behind, hsources, List.forall_mem_append.mpr ⟨hfrontcalm, hcalm⟩, ?_⟩
  intro post' hpost'
  have hcall : Component.sources (FluidCall.components site.inside ++ site.trail) ++ post =
      '@' :: (['f', 'l', 'u', 'i', 'd'] ++
        Component.source (.block (.bracket .round) site.inside true) ++
          Component.sources site.trail ++ post) := by
    simp [FluidCall.components, Component.source, fluidName]
  have hsize : Component.sources behind ++ post' =
      c :: (rest ++ Component.sources site.trail ++ post') := by
    simp [hsources, hhead]
  obtain ⟨hfront, -⟩ := Component.stands_append.mp h
  obtain ⟨hlead, hmiddle⟩ := Component.stands_append.mp hfront
  have hnear := near_separator hkind htext site.spaces
    (Component.sources (FluidCall.components site.inside ++ site.trail) ++ post)
    (Component.sources behind ++ post')
  have hspaces : Stands (some .round) (Component.sources behind ++ post') site.spaces := by
    cases hmiddle with
    | token _ _ hspaces =>
        rw [hcall] at hspaces
        rw [hsize]
        exact stands_spaces hsite.spaces hspaces (by decide) hblank
  have hstands : site.separator.StandsBefore
      (Component.sources site.spaces ++ (Component.sources behind ++ post')) := by
    apply Token.standsBefore_separator hkind htext
    intro hhead
    cases hblanks : Component.sources site.spaces with
    | nil =>
        rw [hblanks, hsize] at hhead
        exact hstar (Option.some.inj hhead)
    | cons x blanks =>
        rw [hblanks] at hhead
        have hx := isBlank_of_mem_sources hsite.spaces x (hblanks ▸ List.mem_cons_self)
        rw [Option.some.inj hhead] at hx
        exact absurd hx (by decide)
  refine ⟨Component.stands_append.mpr ⟨Component.stands_append.mpr ⟨hlead.near hnear, ?_⟩,
    hbehind post' hpost'⟩, ?_⟩
  · cases hmiddle with
    | token _ flat _ => exact .token hstands flat hspaces
  · have hlead := hnear.append_left (Component.sources site.lead)
    simpa [components, front] using hlead

end CallSite

/-- Nothing is reported about the `clamp` functions of a node, and no call of theirs is replaced. -/
def Node.Quiet (settings : Settings) (n : Node) : Prop :=
  ∀ outcome ∈ n.outcomes settings, outcome.report = (false, none)

namespace Value

variable {settings : Settings} {nodes : List Node} {cs : List Component}

theorem outcomes_eq_nil (h : ∀ n ∈ nodes, n.outcomes settings = []) :
    outcomes settings nodes = [] := by
  induction nodes with
  | nil => rw [outcomes]
  | cons n nodes ih =>
      obtain ⟨hn, hrest⟩ := List.forall_mem_cons.mp h
      rw [outcomes, hn, ih hrest, List.append_nil]

/-- Of calm component values only `calc` functions of tokens are read. -/
theorem eq_calc_of_mem (hcs : ∀ c ∈ cs, c.IsCalm) {n : Node} (hn : n ∈ pushAll [] cs)
    (hfunction : n.isFunction = true) :
    ∃ tokens : List Token, n = callOf calcName (pushAll [] (tokens.map Component.token)) := by
  rcases mem_pushAll hn hfunction with hmem | ⟨name, opening, body, closed, hmem, hopening, rfl⟩
  · cases hmem
  · rcases hcs _ hmem with hgroup | ⟨tokens, hblock⟩
    · rcases hopening with rfl | rfl <;> simp [isGroup, Opening.brackets] at hgroup
    · obtain ⟨rfl, rfl, -⟩ := Component.block.inj hblock
      rcases hopening with hname | hround
      · rw [← Opening.call.inj hname]
        exact ⟨tokens, rfl⟩
      · cases hround

/-- Of tokens no functions are read. -/
theorem isFunction_eq_false_of_mem {tokens : List Token} {n : Node}
    (hn : n ∈ pushAll [] (tokens.map Component.token)) : n.isFunction = false := by
  by_contra hfunction
  rw [Bool.not_eq_false] at hfunction
  rcases mem_pushAll hn hfunction with hmem | ⟨_, _, _, _, hmem, -⟩
  · cases hmem
  · simp at hmem

theorem outcomes_calc (tokens : List Token) :
    (callOf calcName (pushAll [] (tokens.map Component.token))).outcomes settings = [] := by
  obtain ⟨leading, nodes, trailing, hcall, -⟩ :=
    callOf_eq calcName (pushAll [] (tokens.map Component.token))
  have hchildren := (mem_of_callOf_eq hcall).2
  have hnodes : outcomes settings nodes = [] := outcomes_eq_nil fun n hn =>
    Node.outcomes_of_not_isFunction (isFunction_eq_false_of_mem (hchildren n hn))
  rw [hcall, Node.outcomes, if_neg (by decide), hnodes]

/-- A `clamp` function of calm component values is quiet. -/
theorem quiet_of_isCalm (hcs : ∀ c ∈ cs, c.IsCalm) :
    (callOf clampName (pushAll [] cs)).Quiet settings := by
  obtain ⟨leading, nodes, trailing, hcall, -⟩ := callOf_eq clampName (pushAll [] cs)
  have hchildren := (mem_of_callOf_eq hcall).2
  have hnamed : ∀ n ∈ nodes, n.isNamed fluidName = false := by
    intro n hn
    cases hfunction : n.isFunction with
    | true =>
        obtain ⟨tokens, rfl⟩ := eq_calc_of_mem hcs (hchildren n hn) hfunction
        rfl
    | false =>
        cases n with
        | function => cases hfunction
        | _ => rfl
  have hnone : outcomes settings nodes = [] := by
    apply outcomes_eq_nil
    intro n hn
    cases hfunction : n.isFunction with
    | true =>
        obtain ⟨tokens, rfl⟩ := eq_calc_of_mem hcs (hchildren n hn) hfunction
        exact outcomes_calc tokens
    | false => exact Node.outcomes_of_not_isFunction hfunction
  obtain ⟨hrewrite, hdiagnostic⟩ : (Clamp.outcome settings nodes).isRewrite = false ∧
      (Clamp.outcome settings nodes).diagnostic? = none := Clamp.outcome_of_no_call hnamed
  rw [hcall]
  intro outcome houtcome
  obtain rfl : outcome = Clamp.outcome settings nodes := by
    simpa [Node.outcomes, hrewrite, hnone] using houtcome
  rw [ClampOutcome.report, hrewrite, hdiagnostic]

end Value

end FluidSizing
