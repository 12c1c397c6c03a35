import FluidSizing.Proofs.Sheet.Rewriting
import FluidSizing.Proofs.Token.Letters

/-! Style sheets as they are written. A tree of rules, each with its heading and with declarations and
rules in its block, is written without any white space but that in headings, and reading the text gives
the tree again with every declaration at its place (`Stylesheet.ofText_written`). The values may hold
anything that is closed at their end and that ends no declaration before it: blocks, strings, comments,
URLs and what is broken. -/

namespace FluidSizing

open Component (Stands sources ofText)
open Token (Apart)

namespace Written

/-- The second word of a heading, behind a space. -/
def wordBehind : Option Letters → Text
  | none => []
  | some word => ' ' :: word.text

/-- What is written before a block: a class, or a keyword other than `@charset`, and maybe a word behind
it. -/
inductive Heading where
  | ofClass (name : Letters) (behind : Option Letters)
  | ofKeyword (name : Letters) (behind : Option Letters)
      (not_charset : Text.toLowerAscii name.text ≠ "charset".toList)

def Heading.text : Heading → Text
  | ofClass name behind => '.' :: name.text ++ wordBehind behind
  | ofKeyword name behind _ => '@' :: name.text ++ wordBehind behind

/-- A value that can be written between a colon and a semicolon: trimmed, without a mark of importance and
without backslashes, with nothing left open at its end, and without a semicolon or an unmatched closing
bracket that would end the declaration. -/
structure Value where
  text : Text
  trimmed : Text.trim text = text
  unmarked : ¬ (Declaration.importantMark <:+: text)
  unescaped : '\\' ∉ text
  closed : ∀ c ∈ (ofText text).getLast?, c.isOpen = false
  whole : Whole text

/-- A declaration with its name in small letters. -/
structure Property where
  name : Letters
  isLower : ∀ c ∈ name.text, c.isLower = true
  value : Value
  important : Bool

namespace Property

variable (p : Property)

/-- The mark, if the declaration is important. -/
def mark : Text := if p.important then Declaration.importantMark else []

def text : Text := p.name.text ++ ':' :: (p.value.text ++ p.mark) ++ [';']

/-- The declaration at a place. Its value starts behind the colon. -/
def declaration (place : Position) : Declaration where
  name := p.name.text
  value := p.value.text
  important := p.important
  start := (place.after (p.name.text ++ [':'])).offset
  location := place.location

end Property

inductive Entry where
  | property (property : Property)
  | rule (heading : Heading) (entries : List Entry)

mutual

def Entry.text : Entry → Text
  | .property p => p.text
  | .rule heading entries =>
      heading.text ++ Bracket.curly.opener :: Entry.texts entries ++ [Bracket.curly.close]

def Entry.texts : List Entry → Text
  | [] => []
  | entry :: rest => entry.text ++ Entry.texts rest

end

mutual

def Entry.item (place : Position) : Entry → Item
  | .property p => .declaration (p.declaration place)
  | .rule heading entries =>
      .rule heading.text (Entry.items ((place.after heading.text).next Bracket.curly.opener) entries)

def Entry.items (place : Position) : List Entry → List Item
  | [] => []
  | entry :: rest => entry.item place :: Entry.items (place.after entry.text) rest

end

/-- A rule with its heading and its block. -/
structure Rule where
  heading : Heading
  entries : List Entry

def Rule.entry (rule : Rule) : Entry := .rule rule.heading rule.entries

namespace Property

variable (p : Property)

def markComponents : List Component :=
  if p.important then [.token ⟨.other, ['!']⟩, .token ⟨.ident, "important".toList⟩] else []

def components : List Component :=
  .token ⟨.ident, p.name.text⟩ :: .token ⟨.colon, [':']⟩ ::
    (ofText p.value.text ++ p.markComponents ++ [.token ⟨.semicolon, [';']⟩])

def pieces : List Piece :=
  [.declaration p.name.text [':'] (p.value.text ++ p.mark), .skipped [';']]

@[simp] theorem sources_markComponents : sources p.markComponents = p.mark := by
  unfold markComponents mark
  split <;> rfl

@[simp] theorem sources_components : sources p.components = p.text := by
  simp [components, Component.source, Component.source_ofText, text]

theorem ne_semicolon_of_mem_mark : ∀ t, Component.token t ∈ p.markComponents → t.kind ≠ .semicolon := by
  intro t ht
  unfold markComponents at ht
  split at ht
  · simp only [List.mem_cons, Component.token.injEq, List.not_mem_nil, or_false] at ht
    rcases ht with rfl | rfl <;> decide
  · cases ht

/-- Behind a value neither a mark nor a semicolon goes on with it. -/
theorem apart_mark (rest : Text) :
    Apart (p.mark ++ ';' :: rest) ∧ ∀ c ∈ (p.mark ++ ';' :: rest).head?, Token.isBlank c = false := by
  unfold mark
  split
  · refine ⟨⟨?_, rfl⟩, ?_⟩ <;> rintro c ⟨⟩ <;> decide
  · refine ⟨Token.apart_semicolon rest, ?_⟩
    rintro c ⟨⟩
    decide

theorem stands_markComponents (rest : Text) : Stands (some .curly) (';' :: rest) p.markComponents := by
  unfold markComponents
  split
  · let word : Letters := ⟨"important".toList, by decide, List.all_eq_true.mp (by decide)⟩
    exact .token ⟨'!', [], rfl, rfl⟩ rfl
      (.token (word.standsBefore (Token.apart_semicolon rest)) rfl (.nil _ _))
  · exact .nil _ _

/-- A declaration ends with its semicolon, so it stands before any text. -/
theorem stands (post : Text) : Stands (some .curly) post p.components := by
  have hvalue : Stands (some .curly) (p.mark ++ ';' :: post) (ofText p.value.text) := by
    obtain ⟨hpost, hhead⟩ := p.apart_mark post
    exact (Component.stands_of_closed p.value.closed p.value.unescaped hpost
      fun _ _ _ => hhead).inBlock p.value.whole
  have hbehind : Stands (some .curly) post
      (ofText p.value.text ++ p.markComponents ++ [.token ⟨.semicolon, [';']⟩]) := by
    refine Component.stands_append.mpr ⟨Component.stands_append.mpr ⟨?_, ?_⟩,
      .token (Token.standsBefore_semicolon _) rfl (.nil _ _)⟩
    · simpa [Component.source] using hvalue
    · simpa [Component.source] using p.stands_markComponents post
  refine .token ?_ rfl (.token ⟨':', [], rfl, rfl⟩ rfl hbehind)
  exact p.name.standsBefore (Token.apart_cons (by decide) (by decide) (by decide) _)

theorem blockPieces_components (rest : List Component) :
    blockPieces .nothing (p.components ++ rest) = p.pieces ++ blockPieces .nothing rest := by
  have hrs : ∀ t, Component.token t ∈ ofText p.value.text ++ p.markComponents → t.kind ≠ .semicolon := by
    intro t ht
    rcases List.mem_append.mp ht with ht | ht
    · exact ne_semicolon p.value.whole t ht
    · exact p.ne_semicolon_of_mem_mark t ht
  have hvalue := blockPieces_value p.name.text [':'] [] hrs (.token ⟨.semicolon, [';']⟩ :: rest)
  rw [List.nil_append, Component.sources_append, Component.source_ofText, sources_markComponents,
    blockPieces_semicolon] at hvalue
  simp only [components, List.cons_append, List.append_assoc, List.nil_append] at hvalue ⊢
  rw [blockPieces_token, blockPieces_token]
  simp [Pending.inBlock, Token.Kind.isTrivia, hvalue, pieces]

/-- The declaration that is read is the one that is written. -/
theorem ofSource_eq (place : Position) :
    Declaration.ofSource place p.name.text [':'] (p.value.text ++ p.mark) = p.declaration place := by
  have hvalue : p.value.text.Bare := p.value.trimmed ▸ Text.bare_trim p.value.text
  have hraw : (p.value.text ++ p.mark).Bare := by
    unfold mark
    split
    · constructor
      · intro c hc
        rw [List.head?_append, Option.mem_def, Option.or_eq_some_iff] at hc
        rcases hc with hc | ⟨-, hc⟩
        · exact hvalue.head c hc
        · cases hc
          decide
      · rw [List.getLast?_append_of_ne_nil _ (by decide)]
        rintro c ⟨⟩
        decide
    · rwa [List.append_nil]
  have hcut : Declaration.cutImportant (Text.trim (p.value.text ++ p.mark)) =
      (p.value.text, p.important) := by
    rw [hraw.trim_eq, mark]
    split
    · rename_i himportant
      rw [Declaration.cutImportant_append (by decide), Text.trimEnd_of_last hvalue.last, himportant]
    · rename_i himportant
      rw [List.append_nil, Declaration.cutImportant_of_not_infix p.value.unmarked,
        Bool.eq_false_iff.mpr himportant]
  have hname : Text.toLowerAscii (Token.unescape p.name.text) = p.name.text := by
    rw [p.name.unescape_text, Text.toLowerAscii_of_isLower p.isLower]
  rw [Declaration.ofSource, hcut, hname, hraw.leadingSpace_eq, declaration, Position.offset_after,
    List.append_nil]

end Property

def componentsBehind : Option Letters → List Component
  | none => []
  | some word => [.token ⟨.whitespace, [' ']⟩, .token ⟨.ident, word.text⟩]

@[simp] theorem sources_componentsBehind (behind : Option Letters) :
    sources (componentsBehind behind) = wordBehind behind := by
  cases behind <;> simp [componentsBehind, wordBehind, Component.source]

theorem apart_curly (rest : Text) : Apart (Bracket.curly.opener :: rest) :=
  Token.apart_cons (by decide) (by decide) (by decide) rest

/-- The second word of a heading goes on with no name, and neither does the block. -/
theorem apart_wordBehind (behind : Option Letters) (rest : Text) :
    Apart (wordBehind behind ++ Bracket.curly.opener :: rest) := by
  cases behind with
  | none => exact apart_curly rest
  | some word => exact Token.apart_of_isBlank (by decide) _

theorem stands_componentsBehind (enclosing : Option Bracket) (behind : Option Letters) (rest : Text) :
    Stands enclosing (Bracket.curly.opener :: rest) (componentsBehind behind) := by
  cases behind with
  | none => exact .nil _ _
  | some word =>
      have hword := word.standsBefore (apart_curly rest)
      refine .token ⟨' ', [], rfl, ?_⟩ rfl (.token hword rfl (.nil _ _))
      obtain ⟨c, more, htext, hc, -⟩ := word.exists_cons
      have hblank : Token.isBlank c = false := Token.isBlank_of_isAlpha hc
      simp [Component.source, htext, Token.scan, hblank, show Token.isBlank ' ' = true by decide]

namespace Heading

variable {enclosing : Option Bracket} (heading : Heading)

def components : Heading → List Component
  | ofClass name behind =>
      .token ⟨.other, ['.']⟩ :: .token ⟨.ident, name.text⟩ :: componentsBehind behind
  | ofKeyword name behind _ => .token ⟨.atKeyword, '@' :: name.text⟩ :: componentsBehind behind

/-- What is read of a rule before its block. -/
def pending : Heading → Pending
  | ofClass name behind => .selector ('.' :: name.text ++ wordBehind behind)
  | ofKeyword name behind _ => .atRule ('@' :: name.text) (wordBehind behind)

def prelude : Heading → Prelude
  | ofClass name behind => .selector ('.' :: name.text ++ wordBehind behind)
  | ofKeyword name behind _ => .atRule ('@' :: name.text) (wordBehind behind)

@[simp] theorem sources_components : sources heading.components = heading.text := by
  cases heading with
  | ofClass name behind =>
      cases behind <;> simp [components, componentsBehind, text, wordBehind, Component.source]
  | ofKeyword name behind =>
      cases behind <;> simp [components, componentsBehind, text, wordBehind, Component.source]

@[simp] theorem source_prelude : heading.prelude.source = heading.text := by
  cases heading <;> simp [prelude, Prelude.source, text]

@[simp] theorem prelude?_pending : heading.pending.prelude? = some heading.prelude := by
  cases heading <;> rfl

/-- A heading stands before a block in curly brackets. -/
theorem stands (rest : Text) : Stands enclosing (Bracket.curly.opener :: rest) heading.components := by
  cases heading with
  | ofClass name behind =>
      have hbehind := stands_componentsBehind enclosing behind rest
      refine .token ⟨'.', [], rfl, ?_⟩ rfl (.token ?_ rfl hbehind)
      · rfl
      · rw [sources_componentsBehind]
        exact name.standsBefore (apart_wordBehind behind rest)
  | ofKeyword name behind =>
      refine .token ?_ rfl (stands_componentsBehind enclosing behind rest)
      rw [sources_componentsBehind]
      exact name.standsBefore_keyword (apart_wordBehind behind rest)

theorem blockPieces_components (rest : List Component) :
    blockPieces .nothing (heading.components ++ rest) = blockPieces heading.pending rest := by
  cases heading with
  | ofClass name behind =>
      cases behind <;> simp [components, componentsBehind, blockPieces_token, Pending.inBlock,
        Token.Kind.isTrivia, pending, wordBehind]
  | ofKeyword name behind =>
      cases behind <;> simp [components, componentsBehind, blockPieces_token, Pending.inBlock,
        Token.Kind.isTrivia, pending, wordBehind]

theorem sheetPieces_components (first : Bool) (rest : List Component) :
    sheetPieces first .nothing (heading.components ++ rest) = sheetPieces false heading.pending rest := by
  cases heading with
  | ofClass name behind =>
      cases behind <;> simp [components, componentsBehind, sheetPieces, Pending.atTop,
        Token.Kind.isTrivia, Pending.extend, Pending.source, pending, wordBehind]
  | ofKeyword name behind not_charset =>
      have hcharset : Pending.isCharset ('@' :: name.text) = false := by
        rw [Pending.isCharset, List.drop_one, List.tail_cons, name.unescape_text]
        exact decide_eq_false not_charset
      cases behind <;> simp [components, componentsBehind, sheetPieces, Pending.atTop,
        Token.Kind.isTrivia, hcharset, pending, wordBehind]

/-- A heading has no white space at its ends, so it is reported as it is written. -/
theorem render_prelude : heading.prelude.render = heading.text := by
  cases heading with
  | ofClass name behind =>
      refine Text.Bare.trim_eq ⟨by rintro c ⟨⟩; decide, ?_⟩
      cases behind with
      | none =>
          rw [wordBehind, List.append_nil, List.getLast?_cons_of_ne_nil name.ne_nil]
          exact name.bare.last
      | some word =>
          rw [wordBehind, List.getLast?_append_of_ne_nil _ (List.cons_ne_nil _ _),
            List.getLast?_cons_of_ne_nil word.ne_nil]
          exact word.bare.last
  | ofKeyword name behind =>
      rw [prelude, Prelude.render, List.drop_one, List.tail_cons, name.unescape_text]
      cases behind with
      | none =>
          have htrim : Text.trim [] = [] := rfl
          simp [htrim, text, wordBehind]
      | some word =>
          have htrim : Text.trim ([' '] ++ word.text ++ []) = word.text :=
            Text.trim_append (List.forall_mem_singleton.mpr (by decide)) (by simp) word.bare
          rw [List.append_nil, List.singleton_append] at htrim
          simp [wordBehind, htrim, word.ne_nil, text]

theorem isBlank_prelude : Pending.isBlank heading.prelude = false := by
  have hrender := heading.render_prelude
  cases heading with
  | ofClass name behind =>
      have htrim : Text.trim ('.' :: name.text ++ wordBehind behind) =
          '.' :: name.text ++ wordBehind behind := hrender
      rw [prelude, Pending.isBlank, htrim]
      rfl
  | ofKeyword => rfl

end Heading

mutual

def Entry.components : Entry → List Component
  | .property p => p.components
  | .rule heading entries =>
      heading.components ++ [.block (.bracket .curly) (Entry.allComponents entries) true]

def Entry.allComponents : List Entry → List Component
  | [] => []
  | entry :: rest => entry.components ++ Entry.allComponents rest

end

mutual

def Entry.pieces : Entry → List Piece
  | .property p => p.pieces
  | .rule heading entries => [.rule heading.prelude (Entry.allPieces entries) true]

def Entry.allPieces : List Entry → List Piece
  | [] => []
  | entry :: rest => entry.pieces ++ Entry.allPieces rest

end

mutual

theorem Entry.sources_components : (entry : Entry) → sources entry.components = entry.text
  | .property p => by rw [Entry.components, p.sources_components, Entry.text]
  | .rule heading entries => by
      simp [Entry.components, Component.source, Entry.sources_allComponents entries, Entry.text,
        Opening.text, Opening.brackets]

/-- The component values of entries spell them. -/
theorem Entry.sources_allComponents :
    (entries : List Entry) → sources (Entry.allComponents entries) = Entry.texts entries
  | [] => by simp [Entry.allComponents, Entry.texts]
  | entry :: rest => by
      rw [Entry.allComponents, Component.sources_append, Entry.sources_components entry,
        Entry.sources_allComponents rest, Entry.texts]

end

mutual

theorem Entry.stands (post : Text) : (entry : Entry) → Stands (some .curly) post entry.components
  | .property p => p.stands post
  | .rule heading entries => by
      refine Component.stands_append.mpr ⟨?_, .closed ⟨'\x7b', [], rfl, rfl⟩ ?_ (.nil _ _)⟩
      · simpa [Component.source, Opening.text, Opening.brackets] using heading.stands _
      · exact Entry.allStands _ entries

/-- Entries end with a semicolon or a bracket, so they stand before any text. -/
theorem Entry.allStands (post : Text) :
    (entries : List Entry) → Stands (some .curly) post (Entry.allComponents entries)
  | [] => .nil _ _
  | entry :: rest =>
      Component.stands_append.mpr ⟨Entry.stands _ entry, Entry.allStands post rest⟩

end

mutual

theorem Entry.blockPieces_components (rest : List Component) : (entry : Entry) →
    blockPieces .nothing (entry.components ++ rest) = entry.pieces ++ blockPieces .nothing rest
  | .property p => p.blockPieces_components rest
  | .rule heading entries => by
      have hbody : blockPieces .nothing (Entry.allComponents entries) = Entry.allPieces entries := by
        simpa [blockPieces, Pending.atEnd] using Entry.blockPieces_allComponents [] entries
      rw [Entry.components, List.append_assoc, heading.blockPieces_components, List.singleton_append,
        blockPieces_rule heading.prelude?_pending, hbody, Entry.pieces, List.singleton_append]

/-- The component values of entries fall into the pieces of the entries. -/
theorem Entry.blockPieces_allComponents (rest : List Component) : (entries : List Entry) →
    blockPieces .nothing (Entry.allComponents entries ++ rest) =
      Entry.allPieces entries ++ blockPieces .nothing rest
  | [] => rfl
  | entry :: others => by
      rw [Entry.allComponents, List.append_assoc, Entry.blockPieces_components _ entry,
        Entry.blockPieces_allComponents rest others, Entry.allPieces, List.append_assoc]

end

mutual

theorem Entry.sources_pieces : (entry : Entry) → Piece.sources entry.pieces = entry.text
  | .property p => by simp [Entry.pieces, Property.pieces, Piece.source, Entry.text, Property.text]
  | .rule heading entries => by
      simp [Entry.pieces, Piece.source, Entry.sources_allPieces entries, Entry.text]

/-- The pieces of entries spell them. -/
theorem Entry.sources_allPieces :
    (entries : List Entry) → Piece.sources (Entry.allPieces entries) = Entry.texts entries
  | [] => by simp [Entry.allPieces, Entry.texts]
  | entry :: rest => by
      rw [Entry.allPieces, Piece.sources_append, Entry.sources_pieces entry,
        Entry.sources_allPieces rest, Entry.texts]

end

mutual

theorem Entry.itemsOf_pieces (place : Position) : (entry : Entry) →
    Piece.itemsOf place entry.pieces = [entry.item place]
  | .property p => by
      simp [Entry.pieces, Property.pieces, Piece.itemsOf, Piece.items, p.ofSource_eq, Entry.item]
  | .rule heading entries => by
      simp [Entry.pieces, Piece.itemsOf, Piece.items, heading.render_prelude,
        Entry.itemsOf_allPieces _ entries, Entry.item]

/-- The pieces of entries are their items at the places where the entries are written. -/
theorem Entry.itemsOf_allPieces (place : Position) : (entries : List Entry) →
    Piece.itemsOf place (Entry.allPieces entries) = Entry.items place entries
  | [] => by simp [Entry.allPieces, Piece.itemsOf, Entry.items]
  | entry :: rest => by
      rw [Entry.allPieces, Piece.itemsOf_append, Entry.itemsOf_pieces place entry, Entry.sources_pieces,
        Entry.itemsOf_allPieces _ rest, Entry.items, List.singleton_append]

end

end Written

open Written

/-- A sheet reads back the rules that are written. -/
theorem Piece.ofText_entries (rules : List Written.Rule) :
    Piece.ofText (Entry.texts (rules.map Rule.entry)) = Entry.allPieces (rules.map Rule.entry) := by
  have hstands := (Entry.allStands [] (rules.map Rule.entry)).unenclosed
  have hread := Component.ofText_sources hstands
  rw [Entry.sources_allComponents] at hread
  rw [Piece.ofText, hread]
  clear hstands hread
  generalize true = first
  induction rules generalizing first with
  | nil => rfl
  | cons rule rules ih =>
      have hbody : blockPieces .nothing (Entry.allComponents rule.entries) =
          Entry.allPieces rule.entries := by
        simpa [blockPieces, Pending.atEnd] using Entry.blockPieces_allComponents [] rule.entries
      rw [List.map_cons, Entry.allComponents, Entry.allPieces, Rule.entry, Entry.components,
        Entry.pieces, List.append_assoc, rule.heading.sheetPieces_components]
      simp [sheetPieces, Pending.ruleAtTop, rule.heading.isBlank_prelude, Component.pieces, hbody, ih]

/-- Reading undoes writing: the sheet has just the rules that are written, nested the same way, with
their declarations in order, and lists all declarations in the order of the text. -/
theorem Stylesheet.ofText_written (rules : List Written.Rule) :
    let sheet := Stylesheet.ofText (Entry.texts (rules.map Rule.entry))
    sheet.rules = Entry.items Position.start (rules.map Rule.entry) ∧
      sheet.declarations =
        Item.declarationsOf (Entry.items Position.start (rules.map Rule.entry)) := by
  intro sheet
  have hrules : sheet.rules = Entry.items Position.start (rules.map Rule.entry) := by
    rw [← Entry.itemsOf_allPieces, ← Piece.ofText_entries]
    rfl
  refine ⟨hrules, ?_⟩
  rw [← hrules]
  exact Stylesheet.declarations_ofText _

/-- A value with a broken string, a comment, a URL and a block, which hold what ends a declaration
elsewhere. -/
theorem Stylesheet.ofText_written_broken :
    let text := "'q\n/*;*/ url(;) \x7bb:c;\x7d '\x7d'".toList
    (Stylesheet.ofText (".a\x7bx:".toList ++ text ++ "!important;\x7d".toList)).rules =
      [.rule ".a".toList [.declaration ⟨"x".toList, text, true, 5, ⟨1, 4⟩⟩]] := by
  intro text
  have whole : Whole text := by
    unfold Whole
    decide +kernel
  let value : Written.Value := ⟨text, by decide +kernel, by decide +kernel, by decide +kernel,
    by decide +kernel, whole⟩
  let property : Property := ⟨⟨['x'], by decide, List.all_eq_true.mp (by decide)⟩,
    List.all_eq_true.mp (by decide), value, true⟩
  let heading : Heading := .ofClass ⟨['a'], by decide, List.all_eq_true.mp (by decide)⟩ none
  exact (Stylesheet.ofText_written [⟨heading, [.property property]⟩]).1

end FluidSizing
