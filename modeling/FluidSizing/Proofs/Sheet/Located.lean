import FluidSizing.Proofs.Processing
import FluidSizing.Proofs.Sheet.Tails
import FluidSizing.Proofs.Text.Location

/-! The places that declarations name. In front of the value of a declaration stand its name, white space
and comments, and a colon: they are read as these tokens from the place of the name on
(`Declaration.Heads`), which is kept up while a block is cut into pieces (`Pending.heads_inBlock`). The place
is that of the name, by the line ends before it (`Stylesheet.exists_locatedAt`), and the places follow one
another in the order of the source (`process_locations`). -/

namespace FluidSizing

open Component (Stands sources)
open Piece (DeclaredAt)

/-- A name, white space and comments, and a colon: what stands in front of the value of a declaration, as
the tokens that it is read as, with a text behind. -/
def Declaration.Heads (name between behind : Text) : Prop :=
  ∃ trivia : List Token, (∀ t ∈ trivia, t.kind.isTrivia = true) ∧
    between = Token.spelling trivia ++ [':'] ∧
    Token.tokenize (name ++ between ++ behind) =
      ⟨.ident, name⟩ :: (trivia ++ ⟨.colon, [':']⟩ :: Token.tokenize behind)

variable {name between raw front back : Text}

namespace Pending

/-- What has been read of a declaration is a name with white space and comments behind it, and perhaps the
colon. -/
def Heads (pending : Pending) (behind : Text) : Prop :=
  match pending with
  | named name between => ∃ trivia : List Token, (∀ t ∈ trivia, t.kind.isTrivia = true) ∧
      between = Token.spelling trivia ∧
      Token.tokenize (name ++ between ++ behind) =
        ⟨.ident, name⟩ :: (trivia ++ Token.tokenize behind)
  | value name between raw => Declaration.Heads name between (raw ++ behind)
  | _ => True

variable {pending : Pending} {t : Token} {behind text : Text}

theorem heads_nothing (behind : Text) : nothing.Heads behind := trivial

theorem heads_extend (h : pending.Heads (text ++ behind)) : (pending.extend text).Heads behind := by
  cases pending with
  | value name between raw =>
      show Declaration.Heads name between (raw ++ text ++ behind)
      rw [List.append_assoc]
      exact h
  | _ => exact trivial

/-- A token in a block: what is read then still starts like a declaration if it may become one. -/
theorem heads_inBlock (ht : t.StandsBefore behind) (h : pending.Heads (t.text ++ behind)) :
    (pending.inBlock t).2.Heads behind := by
  cases pending with
  | nothing =>
      simp only [inBlock]
      split_ifs with htrivia hkeyword hident
      · exact trivial
      · exact trivial
      · refine ⟨[], List.forall_mem_nil _, rfl, ?_⟩
        obtain ⟨kind, text⟩ := t
        obtain rfl : kind = .ident := hident
        simpa using ht.tokenize
      · exact trivial
  | named name between =>
      obtain ⟨trivia, htrivia, hbetween, htokens⟩ := h
      rw [ht.tokenize] at htokens
      simp only [inBlock]
      split_ifs with hkind hcolon hsemicolon
      · refine ⟨trivia ++ [t], ?_, ?_, ?_⟩
        · intro u hu
          rcases List.mem_append.mp hu with hu | hu
          · exact htrivia u hu
          · rw [List.mem_singleton.mp hu]
            exact hkind
        · simp [hbetween, Token.spelling]
        · simpa using htokens
      · have htext : t.text = [':'] := ht.text_of_separator? (by rw [hcolon]; rfl)
        obtain ⟨kind, text⟩ := t
        obtain rfl : kind = .colon := hcolon
        obtain rfl : text = [':'] := htext
        refine ⟨trivia, htrivia, by rw [hbetween], ?_⟩
        simpa using htokens
      · exact trivial
      · exact trivial
  | value name between raw =>
      simp only [inBlock]
      split_ifs
      · exact trivial
      · exact heads_extend h
  | _ =>
      simp only [inBlock]
      split_ifs <;> exact trivial

/-- Only a value that is being read becomes a declaration. -/
theorem eq_value_of_declaredAt_inBlock (h : DeclaredAt name between raw (pending.inBlock t).1 front back) :
    pending = value name between raw := by
  cases pending with
  | value =>
      simp only [inBlock] at h
      split_ifs at h
      · cases h with
        | here => rfl
        | behind _ later => exact absurd later DeclaredAt.not_skipped
      · cases h
  | _ =>
      simp only [inBlock] at h
      split_ifs at h <;> exact absurd h (by
        first | exact DeclaredAt.not_nil | exact DeclaredAt.not_skipped)

theorem eq_value_of_declaredAt_atEnd (h : DeclaredAt name between raw pending.atEnd front back) :
    pending = value name between raw := by
  cases pending with
  | nothing => cases h
  | value =>
      cases h with
      | here => rfl
      | behind _ later => cases later
  | _ => exact absurd h DeclaredAt.not_skipped

theorem heads_of_declaredAt_atEnd (hheads : pending.Heads behind)
    (h : DeclaredAt name between raw pending.atEnd front back) :
    Declaration.Heads name between (raw ++ (back ++ behind)) := by
  rw [eq_nil_of_declaredAt_atEnd h]
  rw [eq_value_of_declaredAt_atEnd h] at hheads
  exact hheads

/-- A declaration that a token ends has its name in front of its value; nothing more has been read then. -/
theorem heads_of_declaredAt_inBlock (hheads : pending.Heads (t.text ++ behind))
    (h : DeclaredAt name between raw (pending.inBlock t).1 front back) :
    Declaration.Heads name between (raw ++ (back ++ behind)) ∧ (pending.inBlock t).2 = nothing := by
  obtain ⟨hkind, hback⟩ := semicolon_of_declaredAt_inBlock h
  obtain rfl := eq_value_of_declaredAt_inBlock h
  refine ⟨hback ▸ hheads, ?_⟩
  simp only [inBlock, hkind, if_true]

end Pending

/-- Every declaration of a block has its name and a colon in front of its value. -/
theorem heads_blockPieces {enclosing : Option Bracket} {post : Text} {cs : List Component}
    (h : Stands enclosing post cs) {pending : Pending} (hpending : pending.Heads (sources cs ++ post))
    (hat : DeclaredAt name between raw (blockPieces pending cs) front back) :
    Declaration.Heads name between (raw ++ (back ++ post)) := by
  induction h generalizing pending front back with
  | nil => exact Pending.heads_of_declaredAt_atEnd hpending hat
  | @token _ post t rest stands _ _ ih =>
      rw [Component.sources_cons, Component.source, List.append_assoc] at hpending
      rw [blockPieces_token] at hat
      rcases hat.append_inv with ⟨behind, hpieces, rfl⟩ | ⟨more, hrest⟩
      · obtain ⟨hheads, hnext⟩ := Pending.heads_of_declaredAt_inBlock hpending hpieces
        rw [hnext, sources_blockPieces, Pending.source, List.nil_append, List.append_assoc]
        exact hheads
      · exact ih (Pending.heads_inBlock stands hpending) hrest
  | @closed enclosing post opening body rest stands inside behind ihbody ih =>
      rw [Component.sources_cons, List.append_assoc] at hpending
      by_cases hrule : opening = .bracket .curly ∧ ∃ prelude, pending.prelude? = some prelude
      · obtain ⟨rfl, prelude, hprelude⟩ := hrule
        rw [blockPieces_rule hprelude] at hat
        rcases hat.rule_inv with ⟨more, behind, hbody, rfl⟩ | ⟨more, hrest⟩
        · have hheads := ihbody (Pending.heads_nothing _) hbody
          simpa [sources_blockPieces, Pending.source, Opening.brackets] using hheads
        · exact ih (Pending.heads_nothing _) hrest
      · rw [blockPieces_extend hrule] at hat
        exact ih (Pending.heads_extend hpending) hat
  | @unclosed enclosing opening body stands inside ihbody =>
      rw [Component.sources_cons, List.append_assoc] at hpending
      by_cases hrule : opening = .bracket .curly ∧ ∃ prelude, pending.prelude? = some prelude
      · obtain ⟨rfl, prelude, hprelude⟩ := hrule
        rw [blockPieces_rule hprelude] at hat
        rcases hat.rule_inv with ⟨more, behind, hbody, rfl⟩ | ⟨more, hrest⟩
        · have hheads := ihbody (Pending.heads_nothing _) hbody
          simpa [blockPieces, Pending.atEnd] using hheads
        · exact Pending.heads_of_declaredAt_atEnd (Pending.heads_nothing _) hrest
      · rw [blockPieces_extend hrule] at hat
        exact Pending.heads_of_declaredAt_atEnd (Pending.heads_extend hpending) hat

/-- Every declaration of a sheet has its name and a colon in front of its value. -/
theorem heads_sheetPieces {enclosing : Option Bracket} {post : Text} {cs : List Component}
    (h : Stands enclosing post cs) (first : Bool) {pending : Pending} (hpending : pending.isValue = false)
    (hat : DeclaredAt name between raw (sheetPieces first pending cs) front back) :
    Declaration.Heads name between (raw ++ (back ++ post)) := by
  induction h generalizing first pending front back with
  | nil => exact absurd hat (Pending.not_declaredAt_atEnd hpending)
  | @token _ _ t rest _ _ _ ih =>
      rw [sheetPieces_token] at hat
      rcases hat.append_inv with ⟨behind, hpieces, -⟩ | ⟨more, hrest⟩
      · exact absurd hpieces (Pending.not_declaredAt_atTop hpending)
      · exact ih _ (Pending.resolvedAll_atTop default first hpending t).2 hrest
  | @closed enclosing post opening body rest stands inside behind _ ih =>
      by_cases hrule : opening = .bracket .curly
      · subst hrule
        rw [sheetPieces_rule] at hat
        rcases exists_declaredAt_block hat with ⟨more, behind, hbody, rfl⟩ | ⟨more, hrest⟩
        · have hheads := heads_blockPieces inside (Pending.heads_nothing _) hbody
          simpa [sources_sheetPieces, Pending.source, Opening.brackets] using hheads
        · exact ih _ rfl hrest
      · rw [sheetPieces_extend _ _ hrule] at hat
        exact ih _ (Pending.isValue_extend hpending _) hat
  | @unclosed enclosing opening body stands inside =>
      by_cases hrule : opening = .bracket .curly
      · subst hrule
        rw [sheetPieces_rule] at hat
        rcases exists_declaredAt_block hat with ⟨more, behind, hbody, rfl⟩ | ⟨more, hrest⟩
        · have hheads := heads_blockPieces inside (Pending.heads_nothing _) hbody
          simpa [sheetPieces, Pending.atEnd] using hheads
        · exact absurd hrest DeclaredAt.not_nil
      · rw [sheetPieces_extend _ _ hrule] at hat
        exact absurd hat (Pending.not_declaredAt_atEnd (Pending.isValue_extend hpending _))

/-- Where a declaration stands in a sheet: behind a text, its name with white space and comments behind it,
a colon, white space and its value. From the name on the sheet is read as these tokens; the declaration
names the offset of the value, and the line and the column of the name. -/
structure Declaration.LocatedAt (d : Declaration) (css front name gap space back : Text) : Prop where
  text_eq : css = front ++ (name ++ gap ++ [':'] ++ space ++ d.value ++ back)
  name_eq : d.name = Text.toLowerAscii (Token.unescape name)
  tokens_eq : ∃ trivia : List Token, (∀ t ∈ trivia, t.kind.isTrivia = true) ∧
    gap = Token.spelling trivia ∧
    Token.tokenize (name ++ gap ++ [':'] ++ space ++ d.value ++ back) =
      ⟨.ident, name⟩ :: (trivia ++ ⟨.colon, [':']⟩ :: Token.tokenize (space ++ d.value ++ back))
  space_eq : ∀ c ∈ space, isWhiteSpace c = true
  start_eq : d.start = Text.byteSize (front ++ (name ++ gap ++ [':'] ++ space))
  before_start : Text.byteSize front < d.start
  line_eq : d.location.line = 1 + Text.lineEnds front
  column_eq : d.location.column = 1 + Text.utf16Length (Text.lastLine front)

/-- Every declaration of a sheet names its place. -/
theorem Stylesheet.exists_locatedAt (css : Text) : ∀ d ∈ (Stylesheet.ofText css).declarations,
    ∃ front name gap space back, d.LocatedAt css front name gap space back := by
  intro d hd
  obtain ⟨name, between, raw, front, back, hread⟩ := Stylesheet.exists_readAt css d hd
  have hheads : Declaration.Heads name between (raw ++ (back ++ [])) :=
    heads_sheetPieces (Component.stands_ofText css) true rfl hread.declaredAt
  obtain ⟨trivia, htrivia, rfl, htokens⟩ := hheads
  have hsource := hread.eq_ofSource
  rw [Declaration.ofSource_eq, (Position.location_after front).1, Position.offset_after] at hsource
  have hraw : Text.leadingSpace raw ++ d.value ++ (RawValue.behind raw ++ back) = raw ++ back := by
    rw [hsource, ← List.append_assoc, RawValue.eq_append]
  refine ⟨front, name, Token.spelling trivia, Text.leadingSpace raw, RawValue.behind raw ++ back, ?_⟩
  have hbehind : name ++ Token.spelling trivia ++ [':'] ++ Text.leadingSpace raw ++ d.value ++
      (RawValue.behind raw ++ back) = name ++ (Token.spelling trivia ++ [':']) ++ (raw ++ back) := by
    rw [← hraw]
    simp only [List.append_assoc]
  have hstart : d.start = Text.byteSize (front ++
      (name ++ Token.spelling trivia ++ [':'] ++ Text.leadingSpace raw)) := by
    rw [hsource]
    simp [Position.start]
  refine ⟨?_, by rw [hsource], ⟨trivia, htrivia, rfl, ?_⟩, Text.isWhiteSpace_of_mem_leadingSpace, hstart,
    ?_, by rw [hsource], by rw [hsource]⟩
  · rw [hbehind, hread.text_eq]
    simp only [List.append_assoc]
  · rw [hbehind, hraw]
    rwa [List.append_nil] at htokens
  · have hcolon : (':' : Char).utf8Size = 1 := rfl
    rw [hstart]
    simp only [Text.byteSize_append, Text.byteSize_cons]
    omega

/-- Declarations between two places, in the order of the places that they name. -/
structure Location.Follow (low : Location) (ds : List Declaration) (high : Location) : Prop where
  low_le_high : low ≤ high
  low_le : ∀ d ∈ ds, low ≤ d.location
  le_high : ∀ d ∈ ds, d.location ≤ high
  pairwise : ds.Pairwise fun d e => d.location ≤ e.location

namespace Location.Follow

variable {low middle high : Location} {ds es : List Declaration}

theorem nil (h : low ≤ high) : Follow low [] high := ⟨h, nofun, nofun, .nil⟩

theorem append (h : Follow low ds middle) (h' : Follow middle es high) : Follow low (ds ++ es) high := by
  refine ⟨le_trans h.low_le_high h'.low_le_high, ?_, ?_, ?_⟩
  · intro d hd
    rcases List.mem_append.mp hd with hd | hd
    · exact h.low_le d hd
    · exact le_trans h.low_le_high (h'.low_le d hd)
  · intro d hd
    rcases List.mem_append.mp hd with hd | hd
    · exact le_trans (h.le_high d hd) h'.low_le_high
    · exact h'.le_high d hd
  · refine List.pairwise_append.mpr ⟨h.pairwise, h'.pairwise, fun d hd e he => ?_⟩
    exact le_trans (h.le_high d hd) (h'.low_le e he)

end Location.Follow

open Location (Follow)

mutual

/-- The declarations of a piece name places in it, in their order. -/
theorem Piece.follow (place : Position) : (piece : Piece) →
    Follow place.location (Item.declarationsOf (piece.items place)) (piece.after place).location
  | .skipped text => .nil (Position.location_le_after place text)
  | .declaration name between raw => by
      have hafter := Position.location_le_after place (Piece.declaration name between raw).source
      rw [← Piece.after_eq] at hafter
      have hone : Item.declarationsOf ((Piece.declaration name between raw).items place) =
          [Declaration.ofSource place name between raw] := by
        simp [Piece.items, Item.declarationsOf, Item.declarations]
      rw [hone]
      refine ⟨hafter, ?_, ?_, List.pairwise_singleton ..⟩
      · exact List.forall_mem_singleton.mpr (Location.le_refl _)
      · exact List.forall_mem_singleton.mpr hafter
  | .rule prelude body closed => by
      have hbody := Piece.followAll ((place.after prelude.source).next Bracket.curly.opener) body
      have hfront : place.location ≤ ((place.after prelude.source).next Bracket.curly.opener).location :=
        Location.le_trans (Position.location_le_after _ _) (Position.location_le_next _ _)
      have hback := Position.location_le_after
        (Piece.afterAll ((place.after prelude.source).next Bracket.curly.opener) body)
        (if closed then [Bracket.curly.close] else [])
      have hitems : Item.declarationsOf ((Piece.rule prelude body closed).items place) =
          [] ++ Item.declarationsOf (Piece.itemsOf
            ((place.after prelude.source).next Bracket.curly.opener) body) ++ [] := by
        simp [Piece.items, Item.declarationsOf, Item.declarations]
      rw [hitems, Piece.after]
      exact ((Follow.nil hfront).append hbody).append (.nil hback)

/-- So do those of pieces in a row. -/
theorem Piece.followAll (place : Position) : (pieces : List Piece) →
    Follow place.location (Item.declarationsOf (Piece.itemsOf place pieces))
      (Piece.afterAll place pieces).location
  | [] => .nil (Location.le_refl _)
  | piece :: rest => by
      rw [Piece.itemsOf, Item.declarationsOf_append, Piece.afterAll]
      exact (Piece.follow place piece).append (Piece.followAll (piece.after place) rest)

end

/-- The declarations of a sheet are in the order of the places that they name. -/
theorem Stylesheet.pairwise_location (css : Text) :
    (Stylesheet.ofText css).declarations.Pairwise fun d e => d.location ≤ e.location := by
  rw [Stylesheet.declarations_ofText]
  exact (Piece.followAll Position.start (Piece.ofText css)).pairwise

/-- The places of declarations and warnings are right. In front of the value of every declaration, from a
place on that is before the value, stand its name, white space, comments and one colon; the line and the
column that it names are those of this place, by the line ends and the UTF-16 units before it. So the
warnings about a sheet are in the order of the lines and columns that they name. -/
theorem process_locations (settings : Settings) (css : Text) :
    (∀ d ∈ (Stylesheet.ofText css).declarations,
      ∃ front name gap space back, d.LocatedAt css front name gap space back) ∧
      (process settings css).warnings.Pairwise fun w v => w.location ≤ v.location := by
  refine ⟨Stylesheet.exists_locatedAt css, ?_⟩
  show ((Stylesheet.ofText css).declarations.flatMap (Declaration.warnings settings)).Pairwise _
  have hplace : ∀ d : Declaration, ∀ w ∈ d.warnings settings, w.location = d.location := by
    intro d w hw
    obtain ⟨diagnostic, -, rfl⟩ := List.mem_map.mp hw
    rfl
  refine List.pairwise_flatMap.mpr ⟨?_, ?_⟩
  · intro d _
    refine List.pairwise_of_forall_mem_list fun w hw v hv => ?_
    rw [hplace d w hw, hplace d v hv]
    exact Location.le_refl _
  · refine (Stylesheet.pairwise_location css).imp fun {d e} hle w hw v hv => ?_
    rw [hplace d w hw, hplace e v hv]
    exact hle

end FluidSizing
