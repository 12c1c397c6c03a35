import FluidSizing.Proofs.Processing
import FluidSizing.Proofs.Sheet.Rewriting

/-! What processing does to the structure of a sheet. The processed text is that of the pieces with their
raw values resolved (`process_css`), and where these can be read in place it has exactly these pieces
(`Piece.ofText_process`). So without marks of importance and without white space that the tokens do not
know, the processed sheet has the same rules and declarations, with resolved values
(`process_structure`). -/

namespace FluidSizing

open RawValue (Steady)

/-- A text at an offset with declarations at their places in it, and the text with their values
resolved. -/
inductive Spliced (settings : Settings) : Nat → Text → List Declaration → Text → Prop where
  | nil (offset : Nat) (text : Text) : Spliced settings offset text [] text
  | cons {offset : Nat} {gap rest rest' : Text} {d : Declaration} {ds : List Declaration}
      (start_eq : d.start = offset + Text.byteSize gap)
      (behind : Spliced settings d.stop rest ds rest') :
      Spliced settings offset (gap ++ (d.value ++ rest)) (d :: ds)
        (gap ++ ((d.edit settings).replacement ++ rest'))

namespace Spliced

variable {settings : Settings} {offset : Nat} {text text' : Text} {ds : List Declaration}

theorem prepend {front : Text} (h : Spliced settings (offset + Text.byteSize front) text ds text') :
    Spliced settings offset (front ++ text) ds (front ++ text') := by
  cases h with
  | nil => exact .nil _ _
  | @cons _ gap rest rest' d ds hstart behind =>
      rw [← List.append_assoc front gap, ← List.append_assoc front gap]
      refine .cons ?_ behind
      rw [hstart, Text.byteSize_append, Nat.add_assoc]

theorem append {back back' : Text} {es : List Declaration} (h : Spliced settings offset text ds text')
    (hback : Spliced settings (offset + Text.byteSize text) back es back') :
    Spliced settings offset (text ++ back) (ds ++ es) (text' ++ back') := by
  induction h with
  | nil => exact hback.prepend
  | @cons offset gap rest rest' d ds hstart behind ih =>
      simp only [List.append_assoc, List.cons_append]
      refine .cons hstart (ih ?_)
      have hoffset : d.stop + Text.byteSize rest =
          offset + Text.byteSize (gap ++ (d.value ++ rest)) := by
        simp only [Declaration.stop, hstart, Text.byteSize_append, Nat.add_assoc]
      rw [hoffset]
      exact hback

/-- Making all edits of the declarations gives the text with their values resolved. -/
theorem replaceAll?_eq (h : Spliced settings offset text ds text') {source front : Text}
    (hsource : source = front ++ text) (hoffset : offset = Text.byteSize front) :
    Text.replaceAll? source offset (ds.map (Declaration.edit settings)) = some text' := by
  induction h generalizing front with
  | nil offset text =>
      subst hsource hoffset
      exact Text.drop?_append front text
  | @cons offset gap rest rest' d ds hstart _ ih =>
      have hstart' : d.start = Text.byteSize (front ++ gap) := by
        rw [hstart, hoffset, Text.byteSize_append]
      have hstop : d.stop = Text.byteSize (front ++ gap ++ d.value) := by
        rw [Declaration.stop, hstart', Text.byteSize_append _ d.value]
      have htext : source = front ++ gap ++ d.value ++ rest := by simp [hsource]
      have huntouched : Text.slice? source offset d.start = some gap := by
        rw [htext, hoffset, hstart', List.append_assoc (front ++ gap)]
        exact Text.slice?_append _ _ _
      have hspan : Text.slice? source d.start d.stop = some d.value := by
        rw [htext, hstart', hstop]
        exact Text.slice?_append _ _ _
      have hrest := ih htext hstop
      simp [Text.replaceAll?, Declaration.edit, huntouched, hspan, hrest]

end Spliced

mutual

/-- The declarations of a piece at their places, and the piece with its values resolved. -/
theorem Piece.spliced (settings : Settings) (place : Position) : (piece : Piece) →
    Spliced settings place.offset piece.source (Item.declarationsOf (piece.items place))
      (piece.resolved settings).source
  | .skipped text => .nil _ _
  | .declaration name between raw => by
      have hnew : ((Declaration.ofSource place name between raw).edit settings).replacement =
          RawValue.resolvedValue settings raw := by
        rw [Declaration.edit, Declaration.resolution, Declaration.ofSource_eq, RawValue.resolvedValue]
      have hstart : (Declaration.ofSource place name between raw).start =
          place.offset + Text.byteSize (name ++ between ++ Text.leadingSpace raw) := by
        rw [Declaration.ofSource_eq]
      have h := Spliced.cons hstart (Spliced.nil _ (RawValue.behind raw) : Spliced settings _ _ _ _)
      rw [hnew, Declaration.ofSource_eq, List.append_assoc, ← List.append_assoc _ _ (RawValue.behind raw),
        RawValue.eq_append, ← Declaration.ofSource_eq] at h
      simpa [Piece.items, Piece.source, Piece.resolved, RawValue.resolved, Item.declarationsOf,
        Item.declarations] using h
  | .rule prelude body closed => by
      have h := (Piece.allSpliced settings ((place.after prelude.source).next Bracket.curly.opener)
        body).append (.nil _ (if closed then [Bracket.curly.close] else []))
      rw [Position.offset_next, Position.offset_after, List.append_nil, Nat.add_assoc] at h
      have hfront : Text.byteSize prelude.source + Bracket.curly.opener.utf8Size =
          Text.byteSize (prelude.source ++ [Bracket.curly.opener]) := by simp
      rw [hfront] at h
      have htext := h.prepend
      simpa [Piece.items, Piece.source, Piece.resolved, Item.declarationsOf, Item.declarations] using htext

/-- The declarations of pieces in a row at their places, and the pieces with their values resolved. -/
theorem Piece.allSpliced (settings : Settings) (place : Position) : (pieces : List Piece) →
    Spliced settings place.offset (Piece.sources pieces)
      (Item.declarationsOf (Piece.itemsOf place pieces))
      (Piece.sources (Piece.resolvedAll settings pieces))
  | [] => .nil _ _
  | piece :: rest => by
      have hpiece := Piece.spliced settings place piece
      have hrest := Piece.allSpliced settings (piece.after place) rest
      rw [Piece.after_eq, Position.offset_after] at hrest
      rw [Piece.itemsOf, Item.declarationsOf_append, Piece.sources_cons, Piece.after_eq,
        Piece.resolvedAll, Piece.sources_cons]
      exact hpiece.append hrest

end

/-- The processed text is that of the pieces with their values resolved. -/
theorem process_css (settings : Settings) (css : Text) :
    (process settings css).css = Piece.sources (Piece.resolvedAll settings (Piece.ofText css)) := by
  have hlaid : LaidOut 0 css (Stylesheet.ofText css).declarations := laidOut_declarations css
  obtain ⟨out, hall, hsplice, -⟩ := hlaid.splices settings [] [] rfl rfl
  have hcss : (process settings css).css = out := by
    rw [process, Text.splice, hlaid.inOrder_filterMap]
    exact hsplice
  have hspliced := Piece.allSpliced settings Position.start (Piece.ofText css)
  rw [Piece.sources_ofText] at hspliced
  have hnew := hspliced.replaceAll?_eq (List.nil_append css).symm rfl
  rw [Stylesheet.declarations_ofText] at hall
  rw [hcss]
  exact Option.some.inj (hall.symm.trans hnew)

/-- Where its raw values can be resolved in place, the processed sheet has the pieces of the sheet with
their values resolved. -/
theorem Piece.ofText_process (settings : Settings) {css : Text}
    (hraws : ∀ raw ∈ Piece.allRaws (Piece.ofText css), Steady raw) :
    Piece.ofText (process settings css).css = Piece.resolvedAll settings (Piece.ofText css) := by
  rw [process_css, Piece.ofText_sources_resolvedAll settings hraws]

/-- An item, and the same with values resolved. -/
inductive Item.Resolved (settings : Settings) : Item → Item → Prop where
  | declaration {d d' : Declaration} (name : d'.name = d.name) (important : d'.important = d.important)
      (value : d'.value = (resolve settings d.value).valueOr d.value) :
      Resolved settings (.declaration d) (.declaration d')
  | rule (prelude : Text) {items items' : List Item} (inside : List.Forall₂ (Resolved settings) items items') :
      Resolved settings (.rule prelude items) (.rule prelude items')

mutual

theorem Piece.resolved_items (settings : Settings) (place place' : Position) : (piece : Piece) →
    List.Forall₂ (Item.Resolved settings) (piece.items place) ((piece.resolved settings).items place')
  | .skipped _ => .nil
  | .declaration _ _ raw =>
      .cons (.declaration rfl (RawValue.important_resolved settings raw)
        (RawValue.value_resolved settings raw)) .nil
  | .rule _ body _ => .cons (.rule _ (Piece.resolved_itemsOf settings _ _ body)) .nil

/-- The items of pieces with their values resolved, wherever the pieces stand. -/
theorem Piece.resolved_itemsOf (settings : Settings) (place place' : Position) :
    (pieces : List Piece) → List.Forall₂ (Item.Resolved settings) (Piece.itemsOf place pieces)
      (Piece.itemsOf place' (Piece.resolvedAll settings pieces))
  | [] => .nil
  | piece :: rest => by
      rw [Piece.itemsOf, Piece.resolvedAll, Piece.itemsOf]
      exact List.rel_append (Piece.resolved_items settings place place' piece)
        (Piece.resolved_itemsOf settings _ _ rest)

end

mutual

theorem Piece.infix_of_mem_raws {raw : Text} : (piece : Piece) → raw ∈ piece.raws → raw <:+: piece.source
  | .skipped _, h => by cases h
  | .declaration name between _, h => by
      obtain rfl := List.mem_singleton.mp h
      exact ⟨name ++ between, [], by simp [Piece.source]⟩
  | .rule prelude body closed, h => by
      have hbody := Piece.infix_of_mem_allRaws body h
      refine hbody.trans ⟨prelude.source ++ [Bracket.curly.opener],
        if closed then [Bracket.curly.close] else [], by simp [Piece.source]⟩

/-- The raw values of pieces stand in their text. -/
theorem Piece.infix_of_mem_allRaws {raw : Text} : (pieces : List Piece) → raw ∈ Piece.allRaws pieces →
    raw <:+: Piece.sources pieces
  | [], h => by cases h
  | piece :: rest, h => by
      rw [Piece.allRaws] at h
      rw [Piece.sources_cons]
      rcases List.mem_append.mp h with h | h
      · exact (Piece.infix_of_mem_raws piece h).trans (List.prefix_append _ _).isInfix
      · exact (Piece.infix_of_mem_allRaws rest h).trans (List.suffix_append _ _).isInfix

end

/-- A raw value is important only if a mark stands in it. -/
theorem RawValue.mark_of_important {raw : Text} (h : important raw = true) :
    Declaration.importantMark <:+: raw :=
  ((important_iff raw).mp h).trans ⟨Text.leadingSpace raw, _, Text.trim_eq raw⟩

/-- The processed sheet has the rules of the sheet: the same preludes, nested the same way, with
declarations of the same names in the same order, as important as before, and each value is what the
value before resolves to. No mark of importance may stand anywhere in the sheet, which could be inside of
a call, and white space may only be that between tokens. -/
theorem process_structure (settings : Settings) (css : Text)
    (hmark : ¬ (Declaration.importantMark <:+: css))
    (hblank : ∀ c ∈ css, isWhiteSpace c = true → Token.isBlank c = true) :
    List.Forall₂ (Item.Resolved settings) (Stylesheet.ofText css).rules
      (Stylesheet.ofText (process settings css).css).rules := by
  have hraws : ∀ raw ∈ Piece.allRaws (Piece.ofText css), Steady raw := by
    intro raw hraw
    have hin := Piece.infix_of_mem_allRaws _ hraw
    rw [Piece.sources_ofText] at hin
    refine ⟨fun c hc => hblank c (hin.subset hc), fun himportant => ?_⟩
    exact absurd ((RawValue.mark_of_important himportant).trans hin) hmark
  rw [Stylesheet.ofText, Stylesheet.ofText, Piece.ofText_process settings hraws]
  exact Piece.resolved_itemsOf settings _ _ _

theorem isBlank_of_all {css : Text}
    (h : css.all (fun c => !isWhiteSpace c || Token.isBlank c) = true) :
    ∀ c ∈ css, isWhiteSpace c = true → Token.isBlank c = true := by
  intro c hc hwhite
  simpa [hwhite] using List.all_eq_true.mp h c hc

/-- An unclosed sheet with a call that its new text closes. -/
theorem process_structure_unclosed :
    let css := "@media a\x7bb\x7bx:f(clamp(1px,@fluid(),2px);y:1".toList
    ¬ (Declaration.importantMark <:+: css) ∧
      (∀ c ∈ css, isWhiteSpace c = true → Token.isBlank c = true) ∧
      List.Forall₂ (Item.Resolved default) (Stylesheet.ofText css).rules
        (Stylesheet.ofText (process default css).css).rules := by
  intro css
  have hmark : ¬ (Declaration.importantMark <:+: css) := by decide +kernel
  have hblank : ∀ c ∈ css, isWhiteSpace c = true → Token.isBlank c = true :=
    isBlank_of_all (by decide +kernel)
  exact ⟨hmark, hblank, process_structure default css hmark hblank⟩

end FluidSizing
