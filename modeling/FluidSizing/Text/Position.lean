import FluidSizing.Text

/-! Places in a text as readers of it count them: lines that end with a line feed, a form feed, a
carriage return or the pair of carriage return and line feed, and columns in UTF-16 units. The place
after a text is read off its characters alone (`Position.after`), so the place after a longer text
is reached from the place inside it (`Position.after_append`). -/

namespace FluidSizing

/-- A place for readers: line and column, both counted from one. -/
structure Location where
  line : Nat
  column : Nat
  deriving DecidableEq, Repr, Inhabited

def Location.render (location : Location) : Text :=
  Text.ofNat location.line ++ ':' :: Text.ofNat location.column

/-- A place in a text. `afterReturn` holds right after a carriage return, where a line feed belongs to
the same line end. -/
structure Position where
  offset : Nat
  location : Location
  afterReturn : Bool
  deriving DecidableEq, Repr

namespace Position

def start : Position := ⟨0, ⟨1, 1⟩, false⟩

/-- The number of UTF-16 units of a character. -/
def utf16Size (c : Char) : Nat := if c.toNat < 0x10000 then 1 else 2

/-- The place behind a character that stands at this place. -/
def next (place : Position) (c : Char) : Position :=
  let offset := place.offset + c.utf8Size
  if c = '\n' && place.afterReturn then ⟨offset, place.location, false⟩
  else if c = '\n' || c = '\r' || c = '\x0c' then
    ⟨offset, ⟨place.location.line + 1, 1⟩, c = '\r'⟩
  else ⟨offset, ⟨place.location.line, place.location.column + utf16Size c⟩, false⟩

def after (place : Position) (text : Text) : Position := text.foldl next place

@[simp] theorem after_nil (place : Position) : place.after [] = place := rfl

@[simp] theorem after_cons (place : Position) (c : Char) (t : Text) :
    place.after (c :: t) = (place.next c).after t := rfl

@[simp] theorem after_append (place : Position) (t u : Text) :
    place.after (t ++ u) = (place.after t).after u :=
  List.foldl_append

@[simp] theorem offset_next (place : Position) (c : Char) :
    (place.next c).offset = place.offset + c.utf8Size := by
  unfold next
  split
  · rfl
  · split <;> rfl

theorem offset_after (place : Position) (t : Text) :
    (place.after t).offset = place.offset + Text.byteSize t := by
  induction t generalizing place with
  | nil => rfl
  | cons c t ih => rw [after_cons, ih, offset_next, Text.byteSize_cons, Nat.add_assoc]

end Position

end FluidSizing
