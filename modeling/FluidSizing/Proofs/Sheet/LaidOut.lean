import FluidSizing.Proofs.Component.Standing
import FluidSizing.Sheet.Item
import Mathlib.Data.List.Pairwise

/-! Where the values of declarations stand. `LaidOut offset text ds` says that the text, which starts at
a byte offset of the sheet, holds the values of `ds` in this order at the places that the declarations
name, with text before each of them. Every piece lays its declarations out (`Piece.laidOut`), so those
of a sheet, collected rule by rule and sorted, are laid out in it (`laidOut_declarations`). So they are
those of its tree, each once and in the order of the source, with spans that are slices and do not meet
(`Stylesheet.declarations_spans`). -/

namespace FluidSizing

/-- The text at an offset holds the values of declarations at their places, none right behind the one
before. -/
inductive LaidOut : Nat → Text → List Declaration → Prop where
  | nil (offset : Nat) (text : Text) : LaidOut offset text []
  | cons {offset : Nat} {gap rest : Text} {d : Declaration} {ds : List Declaration}
      (gap_ne_nil : gap ≠ []) (start_eq : d.start = offset + Text.byteSize gap)
      (behind : LaidOut d.stop rest ds) : LaidOut offset (gap ++ (d.value ++ rest)) (d :: ds)

namespace LaidOut

variable {offset : Nat} {text : Text} {ds : List Declaration}

theorem prepend {front : Text} (h : LaidOut (offset + Text.byteSize front) text ds) :
    LaidOut offset (front ++ text) ds := by
  cases h with
  | nil => exact .nil _ _
  | @cons _ gap rest d ds hgap hstart behind =>
      rw [← List.append_assoc]
      refine .cons (List.append_ne_nil_of_right_ne_nil _ hgap) ?_ behind
      rw [hstart, Text.byteSize_append, Nat.add_assoc]

theorem append {back : Text} {es : List Declaration} (h : LaidOut offset text ds)
    (hback : LaidOut (offset + Text.byteSize text) back es) :
    LaidOut offset (text ++ back) (ds ++ es) := by
  induction h with
  | nil => exact hback.prepend
  | @cons offset gap rest d ds hgap hstart behind ih =>
      rw [List.append_assoc, List.append_assoc]
      refine .cons hgap hstart (ih ?_)
      have hoffset : d.stop + Text.byteSize rest =
          offset + Text.byteSize (gap ++ (d.value ++ rest)) := by
        simp only [Declaration.stop, hstart, Text.byteSize_append, Nat.add_assoc]
      rw [hoffset]
      exact hback

theorem lt_start (h : LaidOut offset text ds) : ∀ d ∈ ds, offset < d.start := by
  induction h with
  | nil => simp
  | @cons offset gap rest d ds hgap hstart behind ih =>
      have hpos : Text.byteSize gap ≠ 0 := fun hzero => hgap (Text.byteSize_eq_zero_iff.mp hzero)
      have hstop : d.start ≤ d.stop := Nat.le_add_right ..
      intro e he
      rcases List.mem_cons.mp he with rfl | he
      · omega
      · have hlt := ih e he
        omega

/-- Every value ends before the next one starts. -/
theorem pairwise_stop (h : LaidOut offset text ds) : ds.Pairwise fun d e => d.stop < e.start := by
  induction h with
  | nil => exact .nil
  | cons _ _ behind ih => exact .cons behind.lt_start ih

/-- Declarations that are laid out stand in the order of their values. -/
theorem pairwise (h : LaidOut offset text ds) : ds.Pairwise fun d e => d.start < e.start := by
  refine h.pairwise_stop.imp fun {d e} hlt => ?_
  have hstop : d.start ≤ d.stop := Nat.le_add_right ..
  exact Nat.lt_of_le_of_lt hstop hlt

/-- The place of its value tells a declaration from the others. -/
theorem eq_of_start_eq (h : LaidOut offset text ds) {d e : Declaration} (hd : d ∈ ds) (he : e ∈ ds)
    (hstart : d.start = e.start) : d = e := by
  have hne : ds.Pairwise fun d e => d.start ≠ e.start := h.pairwise.imp Nat.ne_of_lt
  have : Std.Symm fun d e : Declaration => d.start ≠ e.start := ⟨fun _ _ h => h.symm⟩
  by_contra hdiff
  exact hne.forall hd he hdiff hstart

/-- A declaration names the place of its value in the whole sheet. -/
theorem slice?_eq (h : LaidOut offset text ds) {source front : Text} (hsource : source = front ++ text)
    (hoffset : offset = Text.byteSize front) :
    ∀ d ∈ ds, Text.slice? source d.start d.stop = some d.value := by
  induction h generalizing front with
  | nil => simp
  | @cons offset gap rest d ds _ hstart _ ih =>
      have hspan : Text.byteSize (front ++ gap) = d.start := by
        rw [hstart, hoffset, Text.byteSize_append]
      have htext : source = front ++ gap ++ d.value ++ rest := by simp [hsource]
      have hrest := ih htext (by rw [Text.byteSize_append, hspan, Declaration.stop])
      refine List.forall_mem_cons.mpr ⟨?_, hrest⟩
      exact Text.slice?_eq_some_iff.mpr ⟨front ++ gap, rest, htext, hspan, by rw [hspan]; rfl⟩

end LaidOut

theorem Text.exists_eq_beforeLast?_append {part text front : Text}
    (h : Text.beforeLast? part text = some front) : ∃ back, text = front ++ back := by
  induction text generalizing front with
  | nil =>
      simp only [beforeLast?] at h
      split at h
      · cases h
        exact ⟨[], rfl⟩
      · cases h
  | cons c rest ih =>
      simp only [beforeLast?] at h
      split at h
      · rename_i middle hmiddle
        cases h
        obtain ⟨back, rfl⟩ := ih hmiddle
        exact ⟨back, rfl⟩
      · split at h
        · cases h
          exact ⟨c :: rest, rfl⟩
        · cases h

theorem Declaration.exists_eq_cutImportant_append (text : Text) :
    ∃ back, text = (Declaration.cutImportant text).1 ++ back := by
  unfold cutImportant
  split
  · rename_i front hfront
    obtain ⟨back, rfl⟩ := Text.exists_eq_beforeLast?_append hfront
    refine ⟨Text.trailingSpace front ++ back, ?_⟩
    rw [← List.append_assoc, Text.trimEnd_append_trailingSpace]
  · exact ⟨[], (List.append_nil text).symm⟩

/-- A declaration is laid out in its text. -/
theorem Declaration.laidOut_ofSource (place : Position) {name : Text} (hname : name ≠ [])
    (between raw : Text) :
    LaidOut place.offset (name ++ between ++ raw) [Declaration.ofSource place name between raw] := by
  obtain ⟨back, hback⟩ := Declaration.exists_eq_cutImportant_append (Text.trim raw)
  have hraw : raw = Text.leadingSpace raw ++ ((Declaration.ofSource place name between raw).value ++
      (back ++ Text.trailingSpace (Text.trimStart raw))) := by
    have htrim := Text.trim_eq raw
    rw [hback] at htrim
    simpa only [Declaration.ofSource, List.append_assoc] using htrim.symm
  have htext : name ++ between ++ raw = (name ++ between ++ Text.leadingSpace raw) ++
      ((Declaration.ofSource place name between raw).value ++
        (back ++ Text.trailingSpace (Text.trimStart raw))) := by
    rw [List.append_assoc _ (Text.leadingSpace raw), ← hraw]
  rw [htext]
  refine .cons ?_ rfl (.nil _ _)
  rw [List.append_assoc]
  exact List.append_ne_nil_of_left_ne_nil hname _

mutual

/-- Every declaration in the piece has a name. -/
def Piece.Named : Piece → Prop
  | .skipped _ => True
  | .declaration name _ _ => name ≠ []
  | .rule _ body _ => Piece.AllNamed body

def Piece.AllNamed : List Piece → Prop
  | [] => True
  | piece :: rest => piece.Named ∧ Piece.AllNamed rest

end

theorem Piece.allNamed_append {ps qs : List Piece} :
    Piece.AllNamed (ps ++ qs) ↔ Piece.AllNamed ps ∧ Piece.AllNamed qs := by
  induction ps with
  | nil => simp [AllNamed]
  | cons p ps ih => simp [AllNamed, ih, and_assoc]

namespace Pending

/-- A name that has been read has characters. -/
def Named : Pending → Prop
  | named name _ => name ≠ []
  | value name _ _ => name ≠ []
  | _ => True

theorem allNamed_atEnd {pending : Pending} (h : pending.Named) : Piece.AllNamed pending.atEnd := by
  cases pending with
  | value name between raw => exact ⟨h, trivial⟩
  | nothing => exact trivial
  | _ => exact ⟨trivial, trivial⟩

theorem named_extend {pending : Pending} (h : pending.Named) (text : Text) :
    (pending.extend text).Named := by
  cases pending with
  | value name between raw => exact h
  | _ => exact trivial

theorem named_inBlock {pending : Pending} (h : pending.Named) {t : Token} (ht : t.text ≠ []) :
    Piece.AllNamed (pending.inBlock t).1 ∧ (pending.inBlock t).2.Named := by
  cases pending <;> simp only [inBlock] <;> split_ifs <;>
    simp_all [Piece.AllNamed, Piece.Named, Named]

theorem named_atTop (first : Bool) {pending : Pending} (h : pending.Named) {t : Token}
    (ht : t.text ≠ []) :
    Piece.AllNamed (pending.atTop first t).1 ∧ (pending.atTop first t).2.Named := by
  cases pending <;> simp only [atTop] <;> (try split_ifs) <;>
    simp_all [Piece.AllNamed, Piece.Named, Named, extend]

end Pending

open Component (Stands)

theorem allNamed_blockPieces_block (opening : Opening) {body rest : List Component} (closed : Bool)
    (hbody : Piece.AllNamed (blockPieces .nothing body))
    (hrest : ∀ pending : Pending, pending.Named → Piece.AllNamed (blockPieces pending rest))
    {pending : Pending} (hpending : pending.Named) :
    Piece.AllNamed (blockPieces pending (.block opening body closed :: rest)) := by
  rw [blockPieces.eq_def]
  dsimp only
  split
  · exact ⟨hbody, hrest .nothing trivial⟩
  · exact hrest _ (Pending.named_extend hpending _)

theorem allNamed_blockPieces {enclosing : Option Bracket} {post : Text} {cs : List Component}
    (h : Stands enclosing post cs) {pending : Pending} (hpending : pending.Named) :
    Piece.AllNamed (blockPieces pending cs) := by
  induction h generalizing pending with
  | nil => exact Pending.allNamed_atEnd hpending
  | token stands _ _ ih =>
      obtain ⟨hpieces, hnext⟩ := Pending.named_inBlock hpending stands.text_ne_nil
      rw [blockPieces]
      exact Piece.allNamed_append.mpr ⟨hpieces, ih hnext⟩
  | closed _ _ _ ihbody ih =>
      exact allNamed_blockPieces_block _ _ (ihbody trivial) (fun _ hp => ih hp) hpending
  | unclosed _ _ ihbody =>
      refine allNamed_blockPieces_block _ _ (ihbody trivial) (fun pending hp => ?_) hpending
      rw [blockPieces]
      exact Pending.allNamed_atEnd hp

theorem named_ruleAtTop {pending : Pending} {body : List Component}
    (hbody : Piece.AllNamed (blockPieces .nothing body)) (closed : Bool) :
    (pending.ruleAtTop body closed).Named := by
  simp only [Pending.ruleAtTop]
  split
  · split
    · exact trivial
    · exact hbody
  · exact trivial

theorem allNamed_sheetPieces_block (opening : Opening) {body rest : List Component} (closed : Bool)
    (hbody : Piece.AllNamed (blockPieces .nothing body))
    (hrest : ∀ (first : Bool) (pending : Pending), pending.Named →
      Piece.AllNamed (sheetPieces first pending rest))
    (first : Bool) {pending : Pending} (hpending : pending.Named) :
    Piece.AllNamed (sheetPieces first pending (.block opening body closed :: rest)) := by
  rw [sheetPieces.eq_def]
  dsimp only
  split
  · exact ⟨named_ruleAtTop hbody closed, hrest _ _ trivial⟩
  · exact hrest _ _ (Pending.named_extend hpending _)

theorem allNamed_sheetPieces {enclosing : Option Bracket} {post : Text} {cs : List Component}
    (h : Stands enclosing post cs) (first : Bool) {pending : Pending} (hpending : pending.Named) :
    Piece.AllNamed (sheetPieces first pending cs) := by
  induction h generalizing first pending with
  | nil => exact Pending.allNamed_atEnd hpending
  | token stands _ _ ih =>
      obtain ⟨hpieces, hnext⟩ := Pending.named_atTop first hpending stands.text_ne_nil
      rw [sheetPieces]
      exact Piece.allNamed_append.mpr ⟨hpieces, ih _ hnext⟩
  | closed _ inside _ _ ih =>
      exact allNamed_sheetPieces_block _ _ (allNamed_blockPieces inside trivial)
        (fun _ _ hp => ih _ hp) first hpending
  | unclosed _ inside _ =>
      refine allNamed_sheetPieces_block _ _ (allNamed_blockPieces inside trivial)
        (fun first pending hp => ?_) first hpending
      rw [sheetPieces]
      exact Pending.allNamed_atEnd hp

/-- The declarations of the pieces of a text have names. -/
theorem Piece.allNamed_ofText (text : Text) : Piece.AllNamed (Piece.ofText text) :=
  allNamed_sheetPieces (Component.stands_ofText text) true trivial

namespace Item

theorem declarationsOf_append (items others : List Item) :
    declarationsOf (items ++ others) = declarationsOf items ++ declarationsOf others := by
  induction items with
  | nil => simp [declarationsOf]
  | cons item items ih => simp [declarationsOf, ih]

theorem collected_cons_perm (item : Item) (rest : List Item) :
    (collected (item :: rest)).Perm
      ((item.declaration?.toList ++ item.inBlock) ++ collected rest) := by
  cases item with
  | declaration d => simp [collected, declaration?, inBlock, inBlocks]
  | rule prelude items =>
      simp only [collected, inBlocks, List.filterMap_cons, declaration?, Option.toList_none,
        List.nil_append]
      exact List.perm_append_comm_assoc ..

mutual

theorem declarations_perm : (item : Item) →
    (item.declaration?.toList ++ item.inBlock).Perm item.declarations
  | .declaration d => by simp [declaration?, inBlock, declarations]
  | .rule _ items => by
      rw [declarations, declaration?, inBlock]
      exact collected_perm items

/-- Collecting rule by rule gives every declaration once. -/
theorem collected_perm : (items : List Item) → (collected items).Perm (declarationsOf items)
  | [] => by simp [collected, declarationsOf, inBlocks]
  | item :: rest => by
      rw [declarationsOf]
      exact (collected_cons_perm item rest).trans
        ((declarations_perm item).append (collected_perm rest))

end

end Item

mutual

/-- The declarations of a piece are laid out in it. -/
theorem Piece.laidOut (place : Position) : (piece : Piece) → piece.Named →
    LaidOut place.offset piece.source (Item.declarationsOf (piece.items place))
  | .skipped text, _ => .nil _ _
  | .declaration name between raw, hname => by
      have h := Declaration.laidOut_ofSource place hname between raw
      simpa [Piece.items, Piece.source, Item.declarationsOf, Item.declarations] using h
  | .rule prelude body closed, hbody => by
      have h := (Piece.allLaidOut ((place.after prelude.source).next Bracket.curly.opener) body
        hbody).append (.nil _ (if closed then [Bracket.curly.close] else []))
      rw [Position.offset_next, Position.offset_after, List.append_nil, Nat.add_assoc] at h
      have hfront : Text.byteSize prelude.source + Bracket.curly.opener.utf8Size =
          Text.byteSize (prelude.source ++ [Bracket.curly.opener]) := by simp
      rw [hfront] at h
      have htext := h.prepend
      simpa [Piece.items, Piece.source, Item.declarationsOf, Item.declarations] using htext

/-- The declarations of pieces in a row are laid out in them. -/
theorem Piece.allLaidOut (place : Position) : (pieces : List Piece) → Piece.AllNamed pieces →
    LaidOut place.offset (Piece.sources pieces) (Item.declarationsOf (Piece.itemsOf place pieces))
  | [], _ => .nil _ _
  | piece :: rest, hnamed => by
      have hpiece := Piece.laidOut place piece hnamed.1
      have hrest := Piece.allLaidOut (piece.after place) rest hnamed.2
      rw [Piece.after_eq, Position.offset_after] at hrest
      rw [Piece.itemsOf, Item.declarationsOf_append, Piece.sources_cons, Piece.after_eq]
      exact hpiece.append hrest

end

theorem Piece.laidOut_ofText (text : Text) :
    LaidOut 0 text (Item.declarationsOf (Stylesheet.ofText text).rules) := by
  have h := Piece.allLaidOut Position.start (Piece.ofText text) (Piece.allNamed_ofText text)
  rw [Piece.sources_ofText] at h
  exact h

/-- Sorting the declarations that were collected rule by rule gives them in the order of the source. -/
theorem Stylesheet.declarations_ofText (text : Text) :
    (Stylesheet.ofText text).declarations = Item.declarationsOf (Stylesheet.ofText text).rules := by
  have hlt := (Piece.laidOut_ofText text).pairwise
  have hsorted : (Stylesheet.ofText text).declarations.Pairwise
      fun d e => decide (d.start ≤ e.start) = true :=
    List.pairwise_mergeSort
      (fun a b c hab hbc => by simp only [decide_eq_true_eq] at *; omega)
      (fun a b => by simp only [Bool.or_eq_true, decide_eq_true_eq]; omega) _
  have hperm : (Stylesheet.ofText text).declarations.Perm
      (Item.declarationsOf (Stylesheet.ofText text).rules) :=
    (List.mergeSort_perm _ _).trans (Item.collected_perm _)
  refine hperm.eq_of_pairwise ?_ hsorted (hlt.imp fun h => decide_eq_true (Nat.le_of_lt h))
  intro d e hd he hde hed
  simp only [decide_eq_true_eq] at hde hed
  exact (Piece.laidOut_ofText text).eq_of_start_eq (hperm.subset hd) he (Nat.le_antisymm hde hed)

/-- The declarations of a sheet are laid out in it. -/
theorem laidOut_declarations (text : Text) :
    LaidOut 0 text (Stylesheet.ofText text).declarations := by
  rw [Stylesheet.declarations_ofText]
  exact Piece.laidOut_ofText text

/-- The declarations of a sheet are all those of its tree, each once, in the order of the source. The span
of each is the slice of the sheet that is its value; the spans are disjoint and their starts increase. -/
theorem Stylesheet.declarations_spans (css : Text) :
    let ds := (Stylesheet.ofText css).declarations
    ds = Item.declarationsOf (Stylesheet.ofText css).rules ∧ ds.Nodup ∧
      (∀ d ∈ ds, Text.slice? css d.start d.stop = some d.value) ∧
      ds.Pairwise fun d e => d.stop ≤ e.start ∧ d.start < e.start := by
  intro ds
  have h : LaidOut 0 css ds := laidOut_declarations css
  refine ⟨Stylesheet.declarations_ofText css, ?_, h.slice?_eq (List.nil_append css).symm rfl, ?_⟩
  · -- equal declarations start at one place
    exact h.pairwise.imp fun hlt heq => Nat.ne_of_lt hlt (congrArg Declaration.start heq)
  · have hstop : ds.Pairwise fun d e => d.stop ≤ e.start := h.pairwise_stop.imp Nat.le_of_lt
    exact hstop.and h.pairwise

end FluidSizing
