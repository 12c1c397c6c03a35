/-! Texts as lists of characters, measured in the bytes of their UTF-8 form. Offsets into a text count
bytes, so an offset past the end or inside a character names no place. `splitAt?_eq_some_iff` says
that a split exists exactly where the text is two parts of the given sizes; a slice is two splits, and
edits replace slices. White space is what has the property White_Space; `trim_eq` splits a text into its
leading white space, its trimmed form and its trailing white space. -/

namespace FluidSizing

abbrev Text := List Char

namespace Text

/-- The number of bytes of the UTF-8 form. -/
def byteSize : Text → Nat
  | [] => 0
  | c :: rest => c.utf8Size + byteSize rest

@[simp] theorem byteSize_nil : byteSize [] = 0 := rfl

@[simp] theorem byteSize_cons (c : Char) (t : Text) :
    byteSize (c :: t) = c.utf8Size + byteSize t := rfl

@[simp] theorem byteSize_append (t u : Text) : byteSize (t ++ u) = byteSize t + byteSize u := by
  induction t with
  | nil => simp
  | cons c t ih => simp [ih, Nat.add_assoc]

theorem byteSize_eq_zero_iff {t : Text} : byteSize t = 0 ↔ t = [] := by
  cases t with
  | nil => simp
  | cons c t =>
    have := c.utf8Size_pos
    simp only [byteSize_cons, reduceCtorEq, iff_false]
    omega

/-- The two parts of a text around a byte offset, if the offset stands between two characters or at
either end. -/
def splitAt? : Text → Nat → Option (Text × Text)
  | text, 0 => some ([], text)
  | [], _ + 1 => none
  | c :: rest, n + 1 =>
    if c.utf8Size ≤ n + 1 then
      (splitAt? rest (n + 1 - c.utf8Size)).map fun (front, back) => (c :: front, back)
    else none

@[simp] theorem splitAt?_zero (t : Text) : splitAt? t 0 = some ([], t) := by
  cases t <;> rfl

theorem splitAt?_byteSize (t u : Text) : splitAt? (t ++ u) (byteSize t) = some (t, u) := by
  induction t with
  | nil => cases u <;> rfl
  | cons c t ih =>
    have hc := c.utf8Size_pos
    obtain ⟨n, hn⟩ : ∃ n, byteSize (c :: t) = n + 1 := ⟨byteSize (c :: t) - 1, by simp; omega⟩
    have hsub : n + 1 - c.utf8Size = byteSize t := by rw [← hn]; simp
    have hle : c.utf8Size ≤ n + 1 := by rw [← hn]; simp
    rw [hn, List.cons_append, splitAt?, if_pos hle, hsub, ih]
    rfl

theorem splitAt?_eq_some_iff {text front back : Text} {offset : Nat} :
    splitAt? text offset = some (front, back) ↔ text = front ++ back ∧ byteSize front = offset := by
  constructor
  · intro h
    induction text generalizing front back offset with
    | nil =>
      cases offset with
      | zero => cases h; simp
      | succ n => simp [splitAt?] at h
    | cons c rest ih =>
      cases offset with
      | zero => cases h; simp
      | succ n =>
        simp only [splitAt?] at h
        split at h
        · obtain ⟨⟨f, b⟩, hsplit, heq⟩ := Option.map_eq_some_iff.1 h
          cases heq
          obtain ⟨rfl, hsize⟩ := ih hsplit
          refine ⟨rfl, ?_⟩
          simp only [byteSize_cons]
          omega
        · cases h
  · rintro ⟨rfl, rfl⟩
    exact splitAt?_byteSize front back

/-- The text between two byte offsets, if both are places of the text and in order. -/
def slice? (text : Text) (start stop : Nat) : Option Text :=
  if start ≤ stop then
    (splitAt? text start).bind fun (_, back) => (splitAt? back (stop - start)).map Prod.fst
  else none

theorem slice?_eq_some_iff {text middle : Text} {start stop : Nat} :
    slice? text start stop = some middle ↔
      ∃ front back, text = front ++ middle ++ back ∧ byteSize front = start ∧
        byteSize front + byteSize middle = stop := by
  unfold slice?
  constructor
  · intro h
    split at h
    · obtain ⟨⟨front, rest⟩, hfront, hrest⟩ := Option.bind_eq_some_iff.1 h
      obtain ⟨⟨m, back⟩, hback, hm⟩ := Option.map_eq_some_iff.1 hrest
      obtain rfl : m = middle := hm
      obtain ⟨rfl, hstart⟩ := splitAt?_eq_some_iff.1 hfront
      obtain ⟨rfl, hstop⟩ := splitAt?_eq_some_iff.1 hback
      exact ⟨front, back, by simp, hstart, by omega⟩
    · cases h
  · rintro ⟨front, back, rfl, rfl, rfl⟩
    have hle : byteSize front ≤ byteSize front + byteSize middle := Nat.le_add_right ..
    have hsub : byteSize front + byteSize middle - byteSize front = byteSize middle := by omega
    simp only [hle, ↓reduceIte, List.append_assoc, splitAt?_byteSize, Option.bind_some, hsub,
      Option.map_some]

/-- The text from a byte offset to the end, if the offset is a place of the text. -/
def drop? (text : Text) (start : Nat) : Option Text :=
  (splitAt? text start).map Prod.snd

/-- The text before the last occurrence of `part`, if there is one. -/
def beforeLast? (part : Text) : Text → Option Text
  | [] => if part.isEmpty then some [] else none
  | c :: rest =>
    match beforeLast? part rest with
    | some front => some (c :: front)
    | none => if part.isPrefixOf (c :: rest) then some [] else none

def toLowerAscii (text : Text) : Text := text.map Char.toLower

def ofNat (n : Nat) : Text := Nat.toDigits 10 n

end Text

/-- The property White_Space: the controls U+0009 to U+000D and U+0085, the line and paragraph
separators and every space separator. -/
def isWhiteSpace (c : Char) : Bool :=
  let n := c.toNat
  (0x09 ≤ n && n ≤ 0x0D) || n = 0x20 || n = 0x85 || n = 0xA0 || n = 0x1680 ||
    (0x2000 ≤ n && n ≤ 0x200A) || n = 0x2028 || n = 0x2029 || n = 0x202F || n = 0x205F ||
    n = 0x3000

namespace Text

def trimStart (text : Text) : Text := text.dropWhile isWhiteSpace

def trimEnd (text : Text) : Text := (text.reverse.dropWhile isWhiteSpace).reverse

def trim (text : Text) : Text := trimEnd (trimStart text)

def leadingSpace (text : Text) : Text := text.takeWhile isWhiteSpace

def trailingSpace (text : Text) : Text := (text.reverse.takeWhile isWhiteSpace).reverse

theorem leadingSpace_append_trimStart (t : Text) : leadingSpace t ++ trimStart t = t :=
  List.takeWhile_append_dropWhile

theorem trimEnd_append_trailingSpace (t : Text) : trimEnd t ++ trailingSpace t = t := by
  simp only [trimEnd, trailingSpace, ← List.reverse_append, List.takeWhile_append_dropWhile,
    List.reverse_reverse]

theorem trim_eq (t : Text) : leadingSpace t ++ trim t ++ trailingSpace (trimStart t) = t := by
  rw [List.append_assoc, trim, trimEnd_append_trailingSpace, leadingSpace_append_trimStart]

end Text

/-- The replacement of the bytes from `start` to `stop`. -/
structure Edit where
  start : Nat
  stop : Nat
  replacement : Text
  deriving DecidableEq, Repr

namespace Edit

/-- Edits in the order of their starts; those with one start stay in the order given. -/
def inOrder (edits : List Edit) : List Edit :=
  edits.mergeSort fun a b => decide (a.start ≤ b.start)

/-- Whether an edit applies when everything before `cursor` is settled: its span is a slice of the
source that starts at the cursor or later. -/
def applies (source : Text) (cursor : Nat) (edit : Edit) : Bool :=
  (Text.slice? source cursor edit.start).isSome &&
    (Text.slice? source edit.start edit.stop).isSome

end Edit

namespace Text

/-- The source from `cursor` on with edits, in the order of their starts, applied. -/
def spliceFrom (source : Text) (cursor : Nat) : List Edit → Text
  | [] => (drop? source cursor).getD []
  | edit :: rest =>
    if edit.applies source cursor then
      (slice? source cursor edit.start).getD [] ++ edit.replacement ++
        spliceFrom source edit.stop rest
    else spliceFrom source cursor rest

/-- The source with edits applied, in whatever order they are given. -/
def splice (source : Text) (edits : List Edit) : Text :=
  spliceFrom source 0 (Edit.inOrder edits)

@[simp] theorem splice_nil (source : Text) : splice source [] = source := by
  simp [splice, Edit.inOrder, spliceFrom, drop?]

end Text

end FluidSizing
