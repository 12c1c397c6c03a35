import FluidSizing.Proofs.Sheet.Rewriting
import FluidSizing.Proofs.Text.Splice

/-! What stands behind the value of a declaration. Every declaration is that of a piece of the sheet, and
behind the piece the sheet or the block ends or a semicolon follows (`ends_sheetPieces`). Between the
value and this end stands white space or, in an important declaration, white space, a mark and the rest
of the raw value. The rest is white space just if the mark ends the raw value
(`RawValue.isTail_iff`): a mark further in front makes a declaration important too, and what follows the
mark is neither part of its value nor of the next declaration. -/

namespace FluidSizing

open Component (Stands sources)

/-- What may stand between a value and the end of its declaration: white space, and in an important
declaration the mark with white space on both sides. -/
def Declaration.IsTail (important : Bool) (text : Text) : Prop :=
  if important then
    ∃ gap trail, text = gap ++ importantMark ++ trail ∧ (∀ c ∈ gap, isWhiteSpace c = true) ∧
      ∀ c ∈ trail, isWhiteSpace c = true
  else ∀ c ∈ text, isWhiteSpace c = true

/-- A declaration stands somewhere in pieces, with a text before it and a text behind it. -/
inductive Piece.DeclaredAt (name between raw : Text) : List Piece → Text → Text → Prop where
  | here (rest : List Piece) :
      DeclaredAt name between raw (.declaration name between raw :: rest) [] (Piece.sources rest)
  | behind (p : Piece) {rest : List Piece} {front back : Text}
      (later : DeclaredAt name between raw rest front back) :
      DeclaredAt name between raw (p :: rest) (p.source ++ front) back
  | inside (prelude : Prelude) (closed : Bool) (rest : List Piece) {body : List Piece}
      {front back : Text} (deeper : DeclaredAt name between raw body front back) :
      DeclaredAt name between raw (.rule prelude body closed :: rest)
        (prelude.source ++ Bracket.curly.opener :: front)
        (back ++ ((if closed then [Bracket.curly.close] else []) ++ Piece.sources rest))

/-- The text ends or starts with a semicolon or the bracket that closes a block. -/
def EndsDeclaration (text : Text) : Prop := ∀ c ∈ text.head?, c = ';' ∨ c = Bracket.curly.close

variable {name between raw front back : Text}

namespace Piece.DeclaredAt

variable {ps qs : List Piece}

theorem sources_eq (h : DeclaredAt name between raw ps front back) :
    Piece.sources ps = front ++ (name ++ between ++ raw) ++ back := by
  induction h with
  | here rest => simp [Piece.source]
  | behind p _ ih => simp [ih]
  | inside prelude closed rest _ ih => simp [Piece.source, ih]

theorem append (h : DeclaredAt name between raw ps front back) :
    DeclaredAt name between raw (ps ++ qs) front (back ++ Piece.sources qs) := by
  induction h with
  | here rest =>
      rw [← Piece.sources_append]
      exact .here _
  | behind p _ ih => exact .behind p ih
  | inside prelude closed rest deeper _ =>
      rw [List.append_assoc, List.append_assoc, ← Piece.sources_append]
      exact .inside prelude closed _ deeper

/-- A declaration of pieces in a row is one of the first or of the others. -/
theorem append_inv (h : DeclaredAt name between raw (ps ++ qs) front back) :
    (∃ behind, DeclaredAt name between raw ps front behind ∧ back = behind ++ Piece.sources qs) ∨
      ∃ more, DeclaredAt name between raw qs more back := by
  induction ps generalizing front with
  | nil => exact Or.inr ⟨front, h⟩
  | cons p ps ih =>
      cases h with
      | here => exact Or.inl ⟨Piece.sources ps, .here ps, Piece.sources_append ps qs⟩
      | behind _ later =>
          rcases ih later with ⟨behind, hps, rfl⟩ | hqs
          · exact Or.inl ⟨behind, .behind p hps, rfl⟩
          · exact Or.inr hqs
      | inside prelude closed _ deeper =>
          refine Or.inl ⟨_, .inside prelude closed ps deeper, ?_⟩
          simp

theorem not_nil : ¬ DeclaredAt name between raw [] front back := nofun

theorem not_skipped {text : Text} : ¬ DeclaredAt name between raw [.skipped text] front back := by
  rintro (_ | ⟨_, later⟩)
  exact not_nil later

end Piece.DeclaredAt

open Piece (DeclaredAt)

namespace Pending

variable {pending : Pending}

/-- A declaration that ends a block goes to its end. -/
theorem eq_nil_of_declaredAt_atEnd (h : DeclaredAt name between raw pending.atEnd front back) :
    back = [] := by
  cases pending with
  | nothing => cases h
  | value =>
      cases h with
      | here => rfl
      | behind _ later => cases later
  | _ => exact absurd h DeclaredAt.not_skipped

/-- Only a semicolon ends a declaration inside of a block. -/
theorem semicolon_of_declaredAt_inBlock {t : Token}
    (h : DeclaredAt name between raw (pending.inBlock t).1 front back) :
    t.kind = .semicolon ∧ back = t.text := by
  cases pending with
  | value =>
      simp only [inBlock] at h
      split at h
      · rename_i hkind
        refine ⟨hkind, ?_⟩
        cases h with
        | here => simp [Piece.source]
        | behind _ later => exact absurd later DeclaredAt.not_skipped
      · cases h
  | _ =>
      simp only [inBlock] at h
      split_ifs at h <;> exact absurd h (by
        first | exact DeclaredAt.not_nil | exact DeclaredAt.not_skipped)

/-- At the top no declaration is read. -/
theorem not_declaredAt_atTop (hpending : pending.isValue = false) {first : Bool} {t : Token} :
    ¬ DeclaredAt name between raw (pending.atTop first t).1 front back := by
  intro h
  cases pending with
  | value => cases hpending
  | selector => exact DeclaredAt.not_nil h
  | _ =>
      simp only [atTop] at h
      split_ifs at h <;> exact absurd h (by
        first | exact DeclaredAt.not_nil | exact DeclaredAt.not_skipped)

end Pending

/-- A declaration in a rule is one of its block or one behind it. -/
theorem Piece.DeclaredAt.rule_inv {prelude : Prelude} {closed : Bool} {body rest : List Piece}
    (h : DeclaredAt name between raw (.rule prelude body closed :: rest) front back) :
    (∃ more behind, DeclaredAt name between raw body more behind ∧
        back = behind ++ ((if closed then [Bracket.curly.close] else []) ++ Piece.sources rest)) ∨
      ∃ more, DeclaredAt name between raw rest more back := by
  cases h with
  | behind _ later => exact Or.inr ⟨_, later⟩
  | inside _ _ _ deeper => exact Or.inl ⟨_, _, deeper, rfl⟩

theorem endsDeclaration_close (rest : Text) : EndsDeclaration (Bracket.curly.close :: rest) := by
  rintro c ⟨⟩
  exact Or.inr rfl

/-- A declaration of a block ends at a semicolon, at the end of its block or at the end of the sheet. -/
theorem ends_blockPieces {enclosing : Option Bracket} {post : Text} {cs : List Component}
    (h : Stands enclosing post cs) (hpost : EndsDeclaration post) {pending : Pending}
    (hat : DeclaredAt name between raw (blockPieces pending cs) front back) :
    EndsDeclaration (back ++ post) := by
  induction h generalizing pending front back with
  | nil =>
      rw [Pending.eq_nil_of_declaredAt_atEnd hat]
      exact hpost
  | token stands _ _ ih =>
      rw [blockPieces_token] at hat
      rcases hat.append_inv with ⟨behind, hpieces, rfl⟩ | ⟨more, hrest⟩
      · obtain ⟨hkind, rfl⟩ := Pending.semicolon_of_declaredAt_inBlock hpieces
        rw [stands.text_of_semicolon hkind]
        rintro c ⟨⟩
        exact Or.inl rfl
      · exact ih hpost hrest
  | @closed enclosing post opening body rest stands inside behind ihbody ih =>
      by_cases hrule : opening = .bracket .curly ∧ ∃ prelude, pending.prelude? = some prelude
      · obtain ⟨rfl, prelude, hprelude⟩ := hrule
        rw [blockPieces_rule hprelude] at hat
        rcases hat.rule_inv with ⟨more, behind, hbody, rfl⟩ | ⟨more, hrest⟩
        · have hends := ihbody (endsDeclaration_close _) hbody
          simpa [sources_blockPieces, Pending.source, Opening.brackets] using hends
        · exact ih hpost hrest
      · rw [blockPieces_extend hrule] at hat
        exact ih hpost hat
  | @unclosed enclosing opening body stands inside ihbody =>
      by_cases hrule : opening = .bracket .curly ∧ ∃ prelude, pending.prelude? = some prelude
      · obtain ⟨rfl, prelude, hprelude⟩ := hrule
        rw [blockPieces_rule hprelude] at hat
        rcases hat.rule_inv with ⟨more, behind, hbody, rfl⟩ | ⟨more, hrest⟩
        · have hends := ihbody hpost hbody
          simpa [blockPieces, Pending.atEnd] using hends
        · rw [Pending.eq_nil_of_declaredAt_atEnd hrest]
          exact hpost
      · rw [blockPieces_extend hrule] at hat
        rw [Pending.eq_nil_of_declaredAt_atEnd hat]
        exact hpost

/-- A declaration in a rule at the top is one of its block. -/
theorem exists_declaredAt_block {pending : Pending} {body : List Component} {closed : Bool}
    {rest : List Piece}
    (h : DeclaredAt name between raw (pending.ruleAtTop body closed :: rest) front back) :
    (∃ more behind, DeclaredAt name between raw (blockPieces .nothing body) more behind ∧
        back = behind ++ ((if closed then [Bracket.curly.close] else []) ++ Piece.sources rest)) ∨
      ∃ more, DeclaredAt name between raw rest more back := by
  have hskipped : ∀ text, DeclaredAt name between raw (.skipped text :: rest) front back →
      ∃ more, DeclaredAt name between raw rest more back := by
    rintro text (_ | ⟨_, later⟩)
    exact ⟨_, later⟩
  simp only [Pending.ruleAtTop] at h
  split at h
  · split at h
    · exact Or.inr (hskipped _ h)
    · exact h.rule_inv
  · exact Or.inr (hskipped _ h)

/-- Nor is one read when the sheet ends. -/
theorem Pending.not_declaredAt_atEnd {pending : Pending} (hpending : pending.isValue = false) :
    ¬ DeclaredAt name between raw pending.atEnd front back := by
  cases pending with
  | value => cases hpending
  | nothing => exact DeclaredAt.not_nil
  | _ => exact DeclaredAt.not_skipped

/-- So does a declaration of a sheet. -/
theorem ends_sheetPieces {enclosing : Option Bracket} {post : Text} {cs : List Component}
    (h : Stands enclosing post cs) (hpost : EndsDeclaration post) (first : Bool) {pending : Pending}
    (hpending : pending.isValue = false)
    (hat : DeclaredAt name between raw (sheetPieces first pending cs) front back) :
    EndsDeclaration (back ++ post) := by
  induction h generalizing first pending front back with
  | nil => exact absurd hat (Pending.not_declaredAt_atEnd hpending)
  | @token _ _ t rest _ _ _ ih =>
      rw [sheetPieces_token] at hat
      rcases hat.append_inv with ⟨behind, hpieces, -⟩ | ⟨more, hrest⟩
      · exact absurd hpieces (Pending.not_declaredAt_atTop hpending)
      · exact ih hpost _ (Pending.resolvedAll_atTop default first hpending t).2 hrest
  | @closed enclosing post opening body rest stands inside behind _ ih =>
      by_cases hrule : opening = .bracket .curly
      · subst hrule
        rw [sheetPieces_rule] at hat
        rcases exists_declaredAt_block hat with ⟨more, behind, hbody, rfl⟩ | ⟨more, hrest⟩
        · have hends := ends_blockPieces inside (endsDeclaration_close _) hbody
          simpa [sources_sheetPieces, Pending.source, Opening.brackets] using hends
        · exact ih hpost _ rfl hrest
      · rw [sheetPieces_extend _ _ hrule] at hat
        exact ih hpost _ (Pending.isValue_extend hpending _) hat
  | @unclosed enclosing opening body stands inside =>
      by_cases hrule : opening = .bracket .curly
      · subst hrule
        rw [sheetPieces_rule] at hat
        rcases exists_declaredAt_block hat with ⟨more, behind, hbody, rfl⟩ | ⟨more, hrest⟩
        · have hends := ends_blockPieces inside hpost hbody
          simpa [sheetPieces, Pending.atEnd] using hends
        · exact absurd hrest DeclaredAt.not_nil
      · rw [sheetPieces_extend _ _ hrule] at hat
        exact absurd hat (Pending.not_declaredAt_atEnd (Pending.isValue_extend hpending _))

mutual

theorem Piece.exists_declaredAt_of_mem {d : Declaration} (place : Position) : (piece : Piece) →
    d ∈ Item.declarationsOf (piece.items place) → ∃ name between raw front back,
      DeclaredAt name between raw [piece] front back ∧
        d = Declaration.ofSource (place.after front) name between raw
  | .skipped _, h => by cases h
  | .declaration name between raw, h => by
      refine ⟨name, between, raw, [], _, .here [], ?_⟩
      simpa [Piece.items, Item.declarationsOf, Item.declarations] using h
  | .rule prelude body closed, h => by
      obtain ⟨name, between, raw, front, back, hbody, hd⟩ := Piece.exists_declaredAt_of_mem_all
        ((place.after prelude.source).next Bracket.curly.opener) body
        (by simpa [Piece.items, Item.declarationsOf, Item.declarations] using h)
      refine ⟨name, between, raw, _, _, .inside prelude closed [] hbody, ?_⟩
      rw [hd, Position.after_append, Position.after_cons]

/-- Every declaration stands somewhere in the pieces. -/
theorem Piece.exists_declaredAt_of_mem_all {d : Declaration} (place : Position) :
    (pieces : List Piece) → d ∈ Item.declarationsOf (Piece.itemsOf place pieces) →
      ∃ name between raw front back, DeclaredAt name between raw pieces front back ∧
        d = Declaration.ofSource (place.after front) name between raw
  | [], h => by cases h
  | piece :: rest, h => by
      rw [Piece.itemsOf, Item.declarationsOf_append] at h
      rcases List.mem_append.mp h with h | h
      · obtain ⟨name, between, raw, front, back, hpiece, hd⟩ :=
          Piece.exists_declaredAt_of_mem place piece h
        exact ⟨name, between, raw, front, _, hpiece.append, hd⟩
      · obtain ⟨name, between, raw, front, back, hrest, hd⟩ :=
          Piece.exists_declaredAt_of_mem_all (piece.after place) rest h
        refine ⟨name, between, raw, _, back, .behind piece hrest, ?_⟩
        rw [hd, Piece.after_eq, Position.after_append]

end

namespace RawValue

variable (raw : Text)

/-- An important raw value: behind the value stand white space, the last mark and what follows it. -/
theorem exists_behind_eq (h : important raw = true) : ∃ gap more trail : Text,
    behind raw = gap ++ Declaration.importantMark ++ (more ++ trail) ∧
      Text.trim raw = value raw ++ gap ++ (Declaration.importantMark ++ more) ∧
      (∀ c ∈ gap, isWhiteSpace c = true) ∧ (∀ c ∈ trail, isWhiteSpace c = true) ∧
      Text.beforeLast? Declaration.importantMark (Declaration.importantMark ++ more) = some [] := by
  rcases cases raw with ⟨hnot, -⟩ | ⟨-, gap, mark, trail, hbehind, hgap, htrail, hmark, hbare, -⟩
  · rw [h] at hnot
    cases hnot
  obtain ⟨more, rfl⟩ := Text.prefix_of_beforeLast? hmark
  refine ⟨gap, more, trail, by simp [hbehind], ?_, hgap, htrail, hmark⟩
  have hraw : raw = Text.leadingSpace raw ++
      (value raw ++ gap ++ (Declaration.importantMark ++ more)) ++ trail := by
    calc raw = Text.leadingSpace raw ++ value raw ++ behind raw := (eq_append raw).symm
      _ = _ := by simp [hbehind]
  calc Text.trim raw
      = Text.trim (Text.leadingSpace raw ++
          (value raw ++ gap ++ (Declaration.importantMark ++ more)) ++ trail) :=
        congrArg Text.trim hraw
    _ = _ := Text.trim_append Text.isWhiteSpace_of_mem_leadingSpace htrail hbare

/-- White space before a mark is told by the mark. -/
theorem eq_of_gap_append_mark {gap gap' back back' : Text} (hgap : ∀ c ∈ gap, isWhiteSpace c = true)
    (hgap' : ∀ c ∈ gap', isWhiteSpace c = true)
    (h : gap ++ Declaration.importantMark ++ back = gap' ++ Declaration.importantMark ++ back') :
    back = back' := by
  have htrim : ∀ gap back : Text, (∀ c ∈ gap, isWhiteSpace c = true) →
      Text.trimStart (gap ++ Declaration.importantMark ++ back) = Declaration.importantMark ++ back := by
    intro gap back hgap
    rw [List.append_assoc, Text.trimStart_append hgap]
    exact Text.trimStart_of_head (by rintro c ⟨⟩; decide)
  have hback := congrArg Text.trimStart h
  rw [htrim gap back hgap, htrim gap' back' hgap'] at hback
  exact List.append_cancel_left hback

/-- What stands behind the value is white space and a mark with white space around it just if a mark, where
there is one, ends the raw value. -/
theorem isTail_iff : Declaration.IsTail (important raw) (behind raw) ↔
    (important raw = true → Declaration.importantMark <:+ Text.trim raw) := by
  cases himportant : important raw with
  | false =>
      rcases cases raw with ⟨-, -, hwhite, -⟩ | ⟨h, -⟩
      · exact iff_of_true hwhite nofun
      · rw [himportant] at h
        cases h
  | true =>
      obtain ⟨gap, more, trail, hbehind, htrim, hgap, htrail, hmark⟩ := exists_behind_eq raw himportant
      rw [hbehind, htrim]
      constructor
      · rintro ⟨gap', trail', htail, hgap', htrail'⟩ -
        -- what follows the mark is white space, and the trimmed raw value does not end in white space
        have hmore : more ++ trail = trail' := eq_of_gap_append_mark hgap hgap' htail
        have hnil : more = [] := by
          by_contra hne
          have hlast := (Text.bare_trim raw).last (more.getLast hne)
          rw [htrim, ← List.append_assoc, List.getLast?_append_of_ne_nil _ hne] at hlast
          have hwhite : isWhiteSpace (more.getLast hne) = true := by
            refine htrail' _ ?_
            rw [← hmore]
            exact List.mem_append_left _ (List.getLast_mem hne)
          rw [hlast (List.getLast?_eq_some_getLast hne)] at hwhite
          cases hwhite
        rw [hnil, List.append_nil]
        exact List.suffix_append _ _
      · intro hends
        -- the last mark is the one at the end
        obtain ⟨front, hfront⟩ := hends rfl
        have hend : Text.beforeLast? Declaration.importantMark Declaration.importantMark = some [] := by
          decide
        have hsame : value raw ++ gap = front := by
          have hlast := Text.beforeLast?_append hmark (value raw ++ gap)
          rw [← hfront, Text.beforeLast?_append hend front] at hlast
          exact (Option.some.inj hlast).symm
        have hnil : more = [] := by
          rw [hsame] at hfront
          simpa using List.append_cancel_left hfront
        exact ⟨gap, trail, by rw [hnil, List.nil_append], hgap, htrail⟩

end RawValue

/-- Where a declaration is read in a sheet: it is that of a piece with its place, which goes to the end of
the sheet, a semicolon or the end of its block. -/
structure Declaration.ReadAt (d : Declaration) (css name between raw front back : Text) : Prop where
  declaredAt : DeclaredAt name between raw (Piece.ofText css) front back
  text_eq : css = front ++ (name ++ between ++ raw) ++ back
  ends : EndsDeclaration back
  eq_ofSource : d = Declaration.ofSource (Position.start.after front) name between raw

/-- Every declaration is read somewhere in its sheet. -/
theorem Stylesheet.exists_readAt (css : Text) : ∀ d ∈ (Stylesheet.ofText css).declarations,
    ∃ name between raw front back, d.ReadAt css name between raw front back := by
  intro d hd
  rw [Stylesheet.declarations_ofText] at hd
  obtain ⟨name, between, raw, front, back, hat, hsource⟩ :=
    Piece.exists_declaredAt_of_mem_all Position.start (Piece.ofText css) hd
  have hends : EndsDeclaration (back ++ []) :=
    ends_sheetPieces (Component.stands_ofText css) nofun true rfl hat
  rw [List.append_nil] at hends
  refine ⟨name, between, raw, front, back, hat, ?_, hends, hsource⟩
  rw [← hat.sources_eq, Piece.sources_ofText]

/-- From the end of the value to the end of the declaration stands what is behind the value in the raw
value. -/
theorem Declaration.ReadAt.slice?_behind {d : Declaration} {css : Text}
    (h : d.ReadAt css name between raw front back) :
    Text.slice? css d.stop (Text.byteSize (front ++ (name ++ between ++ raw))) =
      some (RawValue.behind raw) := by
  have hparts : front ++ (name ++ between ++ raw) =
      front ++ (name ++ between ++ Text.leadingSpace raw) ++ RawValue.value raw ++ RawValue.behind raw := by
    calc front ++ (name ++ between ++ raw)
        = front ++ (name ++ between ++
            (Text.leadingSpace raw ++ RawValue.value raw ++ RawValue.behind raw)) := by
          rw [RawValue.eq_append]
      _ = _ := by simp
  have hstop : d.stop = Text.byteSize
      (front ++ (name ++ between ++ Text.leadingSpace raw) ++ RawValue.value raw) := by
    rw [h.eq_ofSource, Declaration.stop, Declaration.ofSource_eq, Position.offset_after]
    simp [Position.start, Nat.add_assoc]
  rw [h.text_eq, hstop, hparts]
  exact Text.slice?_append _ _ _

/-- Every declaration of a sheet is read at a place of it, and from the end of its value to its end, which
is that of the sheet, a semicolon or the end of its block, stands nothing but white space if the
declaration is not important. If it is, white space, a mark and what follows the mark stand there. The
declaration is important just if a mark stands somewhere in its trimmed raw value; and nothing is lost,
that is, only white space follows the mark, just if the mark of an important declaration ends it. -/
theorem Stylesheet.declarations_tails (css : Text) : ∀ d ∈ (Stylesheet.ofText css).declarations,
    ∃ name between raw front back, d.ReadAt css name between raw front back ∧
      ∃ tail, Text.slice? css d.stop (Text.byteSize (front ++ (name ++ between ++ raw))) = some tail ∧
        (d.important = false → ∀ c ∈ tail, isWhiteSpace c = true) ∧
        (d.important = true → ∃ gap rest, tail = gap ++ Declaration.importantMark ++ rest ∧
          ∀ c ∈ gap, isWhiteSpace c = true) ∧
        (d.important = true ↔ Declaration.importantMark <:+: Text.trim raw) ∧
        (Declaration.IsTail d.important tail ↔
          (d.important = true → Declaration.importantMark <:+ Text.trim raw)) := by
  intro d hd
  obtain ⟨name, between, raw, front, back, hread⟩ := Stylesheet.exists_readAt css d hd
  have himportant : d.important = RawValue.important raw := by
    rw [hread.eq_ofSource, Declaration.ofSource_eq]
  have htail := RawValue.isTail_iff raw
  refine ⟨name, between, raw, front, back, hread, _, hread.slice?_behind, ?_⟩
  rw [himportant]
  refine ⟨fun hnot => ?_, fun hmark => ?_, RawValue.important_iff raw, htail⟩
  · rw [hnot] at htail
    exact htail.mpr nofun
  · obtain ⟨gap, more, trail, hbehind, -, hgap, -⟩ := RawValue.exists_behind_eq raw hmark
    exact ⟨gap, more ++ trail, hbehind, hgap⟩

/-- An important declaration with white space on both sides of its mark. -/
theorem Stylesheet.declarations_tails_marked :
    let css := "p\x7b margin: 0 auto !important ;\x7d".toList
    let d : Declaration := ⟨"margin".toList, "0 auto".toList, true, 11, ⟨1, 4⟩⟩
    d ∈ (Stylesheet.ofText css).declarations ∧
      ∃ name between raw front back, d.ReadAt css name between raw front back ∧
        ∃ tail, Text.slice? css d.stop (Text.byteSize (front ++ (name ++ between ++ raw))) = some tail ∧
          Declaration.IsTail true tail := by
  intro css d
  let value := " 0 auto !important ".toList
  have hcomponents : Component.ofText css = [.token ⟨.ident, ['p']⟩, .block (.bracket .curly)
      [.token ⟨.whitespace, [' ']⟩, .token ⟨.ident, "margin".toList⟩, .token ⟨.colon, [':']⟩,
        .token ⟨.whitespace, [' ']⟩, .token ⟨.other, ['0']⟩, .token ⟨.whitespace, [' ']⟩,
        .token ⟨.ident, "auto".toList⟩, .token ⟨.whitespace, [' ']⟩, .token ⟨.other, ['!']⟩,
        .token ⟨.ident, "important".toList⟩, .token ⟨.whitespace, [' ']⟩, .token ⟨.semicolon, [';']⟩]
      true] := by
    rfl
  have hpieces : Piece.ofText css = [.rule (.selector ['p'])
      [.skipped [' '], .declaration "margin".toList [':'] value, .skipped [';']] true] := by
    rw [Piece.ofText, hcomponents]
    rfl
  have hd : d ∈ (Stylesheet.ofText css).declarations := by decide +kernel
  obtain ⟨name, between, raw, front, back, hread, tail, hslice, -, -, -, htail⟩ :=
    Stylesheet.declarations_tails css d hd
  -- The sheet has one declaration only, so this is the raw value.
  have hraw : raw = value := by
    have hat := hread.declaredAt
    rw [hpieces] at hat
    rcases hat with _ | ⟨_, later⟩ | ⟨_, _, _, deeper⟩
    · exact absurd later DeclaredAt.not_nil
    · rcases deeper with _ | ⟨_, here⟩
      rcases here with _ | ⟨_, later⟩
      · rfl
      · exact absurd later DeclaredAt.not_skipped
  have hends : Declaration.importantMark <:+ Text.trim raw := by
    rw [hraw]
    decide +kernel
  exact ⟨hd, name, between, raw, front, back, hread, tail, hslice, htail.mpr fun _ => hends⟩

/-- A mark that does not end the value: what follows it is lost. -/
theorem Stylesheet.declarations_tails_ne :
    let css := "a\x7bb:c!important d\x7d".toList
    let d : Declaration := ⟨"b".toList, "c".toList, true, 4, ⟨1, 3⟩⟩
    let front := "a\x7b".toList
    let raw := "c!important d".toList
    d ∈ (Stylesheet.ofText css).declarations ∧
      d.ReadAt css "b".toList ":".toList raw front "\x7d".toList ∧
      Text.slice? css d.stop (Text.byteSize (front ++ ("b".toList ++ ":".toList ++ raw))) =
        some "!important d".toList ∧
      ¬ Declaration.IsTail d.important "!important d".toList := by
  intro css d front raw
  have hcomponents : Component.ofText css = [.token ⟨.ident, ['a']⟩, .block (.bracket .curly)
      [.token ⟨.ident, ['b']⟩, .token ⟨.colon, [':']⟩, .token ⟨.ident, ['c']⟩, .token ⟨.other, ['!']⟩,
        .token ⟨.ident, "important".toList⟩, .token ⟨.whitespace, [' ']⟩, .token ⟨.ident, ['d']⟩]
      true] := by
    rfl
  have hpieces : Piece.ofText css =
      [.rule (.selector ['a']) [.declaration ['b'] [':'] raw] true] := by
    rw [Piece.ofText, hcomponents]
    rfl
  have hat : DeclaredAt ['b'] [':'] raw (Piece.ofText css) front [Bracket.curly.close] := by
    rw [hpieces]
    exact .inside (.selector ['a']) true [] (.here [])
  have hread : d.ReadAt css ['b'] [':'] raw front [Bracket.curly.close] :=
    ⟨hat, by decide +kernel, endsDeclaration_close [], by decide +kernel⟩
  have himportant : RawValue.important raw = true := by decide +kernel
  have hbehind : RawValue.behind raw = "!important d".toList := by decide +kernel
  have htail := RawValue.isTail_iff raw
  rw [himportant, hbehind] at htail
  have hmark : ¬ (Declaration.importantMark <:+ Text.trim raw) := by decide +kernel
  exact ⟨by decide +kernel, hread, by decide +kernel, fun h => hmark (htail.mp h rfl)⟩

end FluidSizing
