import FluidSizing.Sheet.Read
import FluidSizing.Text.Position

/-! Style sheets as rules with declarations and nested rules in the order of the source, and all their
declarations in one list, which are collected rule by rule and then sorted. The value of a declaration is
the raw text trimmed; at `!important` it is cut off, and the declaration is important. The place behind a
piece is read off its parts; `Piece.after_eq` says that it is the place behind its text. -/

namespace FluidSizing

/-- A declaration: its name in small letters, its value, and where in the sheet the value (as a byte
offset) and the name stand. -/
structure Declaration where
  name : Text
  value : Text
  important : Bool
  start : Nat
  location : Location
  deriving DecidableEq, Repr

namespace Declaration

def stop (declaration : Declaration) : Nat := declaration.start + Text.byteSize declaration.value

def render (declaration : Declaration) : Text :=
  declaration.name ++ ": ".toList ++ declaration.value ++
    if declaration.important then " !important".toList else []

def importantMark : Text := "!important".toList

/-- The value without the mark and what follows it, and whether the mark is there. -/
def cutImportant (value : Text) : Text × Bool :=
  match Text.beforeLast? importantMark value with
  | some front => (Text.trimEnd front, true)
  | none => (value, false)

/-- The declaration at a place, from its name, the text up to its value, and its raw value. -/
def ofSource (place : Position) (name between raw : Text) : Declaration :=
  let (value, important) := cutImportant (Text.trim raw)
  { name := Text.toLowerAscii (Token.unescape name)
    value := value
    important := important
    start := place.offset + Text.byteSize (name ++ between ++ Text.leadingSpace raw)
    location := place.location }

end Declaration

/-- A declaration, or a rule with its prelude and what its block holds. -/
inductive Item where
  | declaration (declaration : Declaration)
  | rule (prelude : Text) (items : List Item)
  deriving Repr, Inhabited

mutual

def Item.decEq : (item other : Item) → Decidable (item = other)
  | .declaration d, .declaration e => decidable_of_iff (d = e) (by simp)
  | .rule prelude items, .rule prelude' items' =>
    have := Item.decEqAll items items'
    decidable_of_iff (prelude = prelude' ∧ items = items') (by simp)
  | .declaration _, .rule .. => isFalse nofun
  | .rule .., .declaration _ => isFalse nofun

def Item.decEqAll : (items others : List Item) → Decidable (items = others)
  | [], [] => isTrue rfl
  | item :: items, other :: others =>
    have := Item.decEq item other
    have := Item.decEqAll items others
    decidable_of_iff (item = other ∧ items = others) (by simp)
  | [], _ :: _ => isFalse nofun
  | _ :: _, [] => isFalse nofun

end

instance : DecidableEq Item := Item.decEq

mutual

/-- The place behind a piece that stands at a place. -/
def Piece.after (place : Position) : Piece → Position
  | .skipped text => place.after text
  | .declaration name between raw => ((place.after name).after between).after raw
  | .rule prelude body closed =>
    (Piece.afterAll ((place.after prelude.source).next Bracket.curly.opener) body).after
      (if closed then [Bracket.curly.close] else [])

def Piece.afterAll (place : Position) : List Piece → Position
  | [] => place
  | piece :: rest => Piece.afterAll (piece.after place) rest

end

mutual

theorem Piece.after_eq (place : Position) : (piece : Piece) → piece.after place = place.after piece.source
  | .skipped text => by simp [Piece.after, Piece.source]
  | .declaration name between raw => by simp [Piece.after, Piece.source]
  | .rule prelude body closed => by
    simp [Piece.after, Piece.source, Piece.afterAll_eq]

theorem Piece.afterAll_eq (place : Position) :
    (pieces : List Piece) → Piece.afterAll place pieces = place.after (Piece.sources pieces)
  | [] => by simp [Piece.afterAll]
  | piece :: rest => by
    simp [Piece.afterAll, Piece.after_eq place piece, Piece.afterAll_eq _ rest]

end

mutual

/-- The item of a piece at a place. -/
def Piece.items (place : Position) : Piece → List Item
  | .skipped _ => []
  | .declaration name between raw =>
    [.declaration (Declaration.ofSource place name between raw)]
  | .rule prelude body _ =>
    [.rule prelude.render
      (Piece.itemsOf ((place.after prelude.source).next Bracket.curly.opener) body)]

def Piece.itemsOf (place : Position) : List Piece → List Item
  | [] => []
  | piece :: rest => piece.items place ++ Piece.itemsOf (piece.after place) rest

end

mutual

/-- The declarations of an item, in the order of the source. -/
def Item.declarations : Item → List Declaration
  | .declaration d => [d]
  | .rule _ items => Item.declarationsOf items

def Item.declarationsOf : List Item → List Declaration
  | [] => []
  | item :: rest => item.declarations ++ Item.declarationsOf rest

end

namespace Item

def declaration? : Item → Option Declaration
  | declaration d => some d
  | rule .. => none

end Item

mutual

/-- The declarations in the block of a rule: its own, then those of the rules in it. -/
def Item.inBlock : Item → List Declaration
  | .declaration _ => []
  | .rule _ items => items.filterMap Item.declaration? ++ Item.inBlocks items

def Item.inBlocks : List Item → List Declaration
  | [] => []
  | item :: rest => item.inBlock ++ Item.inBlocks rest

end

/-- The declarations among items, then those in the blocks of the rules among them. -/
def Item.collected (items : List Item) : List Declaration :=
  items.filterMap Item.declaration? ++ Item.inBlocks items

/-- A style sheet: its rules in the order of the source. -/
structure Stylesheet where
  rules : List Item
  deriving Repr, Inhabited

namespace Stylesheet

/-- The style sheet that a text spells. Every text spells one. -/
def ofText (text : Text) : Stylesheet := ⟨Piece.itemsOf Position.start (Piece.ofText text)⟩

/-- All declarations, those of nested rules too, in the order of their values. -/
def declarations (sheet : Stylesheet) : List Declaration :=
  (Item.collected sheet.rules).mergeSort fun d e => decide (d.start ≤ e.start)

end Stylesheet

end FluidSizing
