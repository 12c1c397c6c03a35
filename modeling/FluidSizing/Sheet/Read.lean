import FluidSizing.Component

/-! Style sheets cut into pieces: declarations, rules with the pieces of their blocks, and what is skipped.
What has been read of the next piece is kept as `Pending`. In a block a name and a colon start a
declaration, which ends at a semicolon; anything else up to a block in curly brackets is the prelude of a
rule, and a semicolon before the block drops it. At the top a semicolon is part of a prelude, and rules
are dropped whose prelude is blank or starts like a declaration of a custom property; a first rule with
the keyword `@charset` is dropped too. `sources_ofText` says that the pieces of a text, in order, spell
it. -/

namespace FluidSizing

/-- What stands before the block of a rule: selectors, or a keyword with `@` and what follows it. -/
inductive Prelude where
  | selector (text : Text)
  | atRule (keyword text : Text)
  deriving DecidableEq, Repr

namespace Prelude

def source : Prelude → Text
  | selector text => text
  | atRule keyword text => keyword ++ text

/-- The prelude of a rule as it is reported: trimmed, and with the escapes of a keyword resolved. -/
def render : Prelude → Text
  | selector text => Text.trim text
  | atRule keyword text =>
    let rest := Text.trim text
    '@' :: Token.unescape (keyword.drop 1) ++ if rest.isEmpty then [] else ' ' :: rest

end Prelude

/-- A piece of a sheet or of a block. A declaration is its name, everything up to its colon with the colon,
and its raw value; `closed` is false for a block that the text leaves open. -/
inductive Piece where
  | skipped (text : Text)
  | declaration (name between raw : Text)
  | rule (prelude : Prelude) (body : List Piece) (closed : Bool)
  deriving Repr, Inhabited

mutual

def Piece.source : Piece → Text
  | .skipped text => text
  | .declaration name between raw => name ++ between ++ raw
  | .rule prelude body closed =>
    prelude.source ++ Bracket.curly.opener :: Piece.sources body ++
      if closed then [Bracket.curly.close] else []

def Piece.sources : List Piece → Text
  | [] => []
  | piece :: rest => piece.source ++ Piece.sources rest

end

namespace Piece

@[simp] theorem sources_nil : sources [] = [] := by simp [sources]

@[simp] theorem sources_cons (p : Piece) (ps : List Piece) :
    sources (p :: ps) = p.source ++ sources ps := by simp [sources]

@[simp] theorem sources_append (ps qs : List Piece) :
    sources (ps ++ qs) = sources ps ++ sources qs := by
  induction ps with
  | nil => simp
  | cons p ps ih => simp [ih]

end Piece

/-- What has been read of a piece: nothing, a name with blanks and comments behind it, the name, the text
up to the colon and part of the value of a declaration, a keyword with part of a prelude, part of a
selector, or part of something to drop, which may end at a semicolon. -/
inductive Pending where
  | nothing
  | named (name between : Text)
  | value (name between raw : Text)
  | atRule (keyword text : Text)
  | selector (text : Text)
  | dropped (endsAtSemicolon : Bool) (text : Text)
  deriving DecidableEq, Repr

namespace Pending

def source : Pending → Text
  | nothing => []
  | named name between => name ++ between
  | value name between raw => name ++ between ++ raw
  | atRule keyword text => keyword ++ text
  | selector text => text
  | dropped _ text => text

/-- The pieces read when the block or the sheet ends. -/
def atEnd : Pending → List Piece
  | nothing => []
  | value name between raw => [.declaration name between raw]
  | pending => [.skipped pending.source]

/-- A token inside a block: the pieces it ends, and what is read then. -/
def inBlock (pending : Pending) (t : Token) : List Piece × Pending :=
  match pending with
  | nothing =>
    if t.kind.isTrivia || t.kind = .semicolon then ([.skipped t.text], nothing)
    else if t.kind = .atKeyword then ([], atRule t.text [])
    else if t.kind = .ident then ([], named t.text [])
    else ([], selector t.text)
  | named name between =>
    if t.kind.isTrivia then ([], named name (between ++ t.text))
    else if t.kind = .colon then ([], value name (between ++ t.text) [])
    else if t.kind = .semicolon then ([.skipped (name ++ between ++ t.text)], nothing)
    else ([], selector (name ++ between ++ t.text))
  | value name between raw =>
    if t.kind = .semicolon then ([.declaration name between raw, .skipped t.text], nothing)
    else ([], value name between (raw ++ t.text))
  | atRule keyword text =>
    if t.kind = .semicolon then ([.skipped (keyword ++ text ++ t.text)], nothing)
    else ([], atRule keyword (text ++ t.text))
  | selector text =>
    if t.kind = .semicolon then ([.skipped (text ++ t.text)], nothing)
    else ([], selector (text ++ t.text))
  | dropped endsAtSemicolon text =>
    if t.kind = .semicolon then ([.skipped (text ++ t.text)], nothing)
    else ([], dropped endsAtSemicolon (text ++ t.text))

/-- Text that neither ends a piece nor tells which one it is: part of a value or of a prelude. -/
def extend (pending : Pending) (text : Text) : Pending :=
  match pending with
  | value name between raw => value name between (raw ++ text)
  | atRule keyword prelude => atRule keyword (prelude ++ text)
  | dropped endsAtSemicolon front => dropped endsAtSemicolon (front ++ text)
  | pending => selector (pending.source ++ text)

/-- The prelude, if a block in curly brackets belongs to a rule. -/
def prelude? : Pending → Option Prelude
  | value .. => none
  | dropped .. => none
  | atRule keyword text => some (.atRule keyword text)
  | pending => some (.selector pending.source)

@[simp] theorem sources_atEnd (pending : Pending) :
    Piece.sources pending.atEnd = pending.source := by
  cases pending <;> simp [atEnd, source, Piece.source]

theorem sources_inBlock (pending : Pending) (t : Token) :
    Piece.sources (pending.inBlock t).1 ++ (pending.inBlock t).2.source =
      pending.source ++ t.text := by
  cases pending <;> simp only [inBlock] <;> repeat' split
  all_goals simp [source, Piece.source]

@[simp] theorem source_extend (pending : Pending) (text : Text) :
    (pending.extend text).source = pending.source ++ text := by
  cases pending <;> simp [extend, source]

theorem source_of_prelude? {pending : Pending} {prelude : Prelude}
    (h : pending.prelude? = some prelude) : prelude.source = pending.source := by
  cases pending <;> simp only [prelude?, Option.some.injEq, reduceCtorEq] at h
  all_goals
    subst h
    rfl

end Pending

mutual

/-- The pieces inside a block, if the component value is one. -/
def Component.pieces : Component → List Piece
  | .token _ => []
  | .block _ body _ => blockPieces .nothing body

/-- The pieces of a block behind what has been read of the first of them. -/
def blockPieces (pending : Pending) : List Component → List Piece
  | [] => pending.atEnd
  | .token t :: rest =>
    let (pieces, next) := pending.inBlock t
    pieces ++ blockPieces next rest
  | .block opening body closed :: rest =>
    match opening, pending.prelude? with
    | .bracket .curly, some prelude =>
      .rule prelude (Component.pieces (.block opening body closed)) closed ::
        blockPieces .nothing rest
    | _, _ => blockPieces (pending.extend (Component.source (.block opening body closed))) rest

end

mutual

theorem source_rule_pieces {prelude : Prelude} {pending : Pending} {body : List Component}
    {closed : Bool} (h : prelude.source = pending.source) :
    (Piece.rule prelude (Component.pieces (.block (.bracket .curly) body closed)) closed).source =
      pending.source ++ Component.source (.block (.bracket .curly) body closed) := by
  simp [Component.pieces, Piece.source, Component.source, Opening.text, Opening.brackets, h,
    sources_blockPieces .nothing body, Pending.source]

/-- The pieces of a block spell it. -/
theorem sources_blockPieces (pending : Pending) : (components : List Component) →
    Piece.sources (blockPieces pending components) = pending.source ++ Component.sources components
  | [] => by simp [blockPieces]
  | .token t :: rest => by
    rw [blockPieces, Piece.sources_append, sources_blockPieces _ rest, ← List.append_assoc,
      Pending.sources_inBlock]
    simp [Component.source]
  | .block opening body closed :: rest => by
    rw [blockPieces.eq_def]
    dsimp only
    split
    · rename_i prelude hprelude
      rw [Piece.sources_cons, source_rule_pieces (Pending.source_of_prelude? hprelude),
        sources_blockPieces .nothing rest]
      simp [Pending.source]
    · rw [sources_blockPieces _ rest]
      simp

end

namespace Pending

/-- Whether a spelled name is that of a custom property. -/
def isCustomProperty (name : Text) : Bool := ['-', '-'].isPrefixOf (Token.unescape name)

/-- Whether a spelled keyword is `@charset`, in any case. -/
def isCharset (keyword : Text) : Bool :=
  Text.toLowerAscii (Token.unescape (keyword.drop 1)) = ['c', 'h', 'a', 'r', 's', 'e', 't']

/-- A token at the top: the pieces it ends, and what is read then. `first` holds before the first rule. -/
def atTop (first : Bool) (pending : Pending) (t : Token) : List Piece × Pending :=
  match pending with
  | nothing =>
    if t.kind.isTrivia || t.kind = .commentOpen || t.kind = .commentClose then
      ([.skipped t.text], nothing)
    else if t.kind = .atKeyword then
      ([], if first && isCharset t.text then dropped true t.text else atRule t.text [])
    else if t.kind = .ident then ([], named t.text [])
    else ([], selector t.text)
  | named name between =>
    if t.kind.isTrivia then ([], named name (between ++ t.text))
    else if t.kind = .colon && isCustomProperty name then
      ([], dropped false (name ++ between ++ t.text))
    else ([], selector (name ++ between ++ t.text))
  | atRule keyword text =>
    if t.kind = .semicolon then ([.skipped (keyword ++ text ++ t.text)], nothing)
    else ([], atRule keyword (text ++ t.text))
  | dropped endsAtSemicolon text =>
    if t.kind = .semicolon && endsAtSemicolon then ([.skipped (text ++ t.text)], nothing)
    else ([], dropped endsAtSemicolon (text ++ t.text))
  | pending => ([], pending.extend t.text)

/-- Whether the prelude of a rule is a selector without text. -/
def isBlank : Prelude → Bool
  | .selector text => (Text.trim text).isEmpty
  | .atRule .. => false

/-- A block in curly brackets at the top. A rule with a blank selector is dropped. -/
def ruleAtTop (pending : Pending) (body : List Component) (closed : Bool) : Piece :=
  let block : Component := .block (.bracket .curly) body closed
  match pending.prelude? with
  | some prelude =>
    if isBlank prelude then .skipped (pending.source ++ block.source)
    else .rule prelude block.pieces closed
  | none => .skipped (pending.source ++ block.source)

theorem sources_atTop (first : Bool) (pending : Pending) (t : Token) :
    Piece.sources (pending.atTop first t).1 ++ (pending.atTop first t).2.source =
      pending.source ++ t.text := by
  cases pending <;> simp only [atTop] <;> repeat' split
  all_goals simp [source, extend, Piece.source]

theorem source_ruleAtTop (pending : Pending) (body : List Component) (closed : Bool) :
    (pending.ruleAtTop body closed).source =
      pending.source ++ Component.source (.block (.bracket .curly) body closed) := by
  simp only [ruleAtTop]
  split
  · rename_i prelude hprelude
    split
    · simp [Piece.source]
    · exact source_rule_pieces (source_of_prelude? hprelude)
  · simp [Piece.source]

end Pending

/-- The pieces of a sheet behind what has been read of the first of them. -/
def sheetPieces (first : Bool) (pending : Pending) : List Component → List Piece
  | [] => pending.atEnd
  | .token t :: rest =>
    let (pieces, next) := pending.atTop first t
    pieces ++ sheetPieces (first && next = .nothing) next rest
  | .block opening body closed :: rest =>
    match opening with
    | .bracket .curly => pending.ruleAtTop body closed :: sheetPieces false .nothing rest
    | _ => sheetPieces false (pending.extend (Component.source (.block opening body closed))) rest

/-- The pieces of a sheet spell it. -/
theorem sources_sheetPieces (first : Bool) (pending : Pending) (components : List Component) :
    Piece.sources (sheetPieces first pending components) =
      pending.source ++ Component.sources components := by
  induction components generalizing first pending with
  | nil => simp [sheetPieces]
  | cons component rest ih =>
    cases component with
    | token t =>
      rw [sheetPieces, Piece.sources_append, ih, ← List.append_assoc, Pending.sources_atTop]
      simp [Component.source]
    | block opening body closed =>
      rw [sheetPieces.eq_def]
      dsimp only
      split
      · rw [Piece.sources_cons, Pending.source_ruleAtTop, ih]
        simp [Pending.source]
      · rw [ih]
        simp

def Piece.ofText (text : Text) : List Piece := sheetPieces true .nothing (Component.ofText text)

/-- The pieces of a text spell it. -/
theorem Piece.sources_ofText (text : Text) : Piece.sources (Piece.ofText text) = text := by
  rw [Piece.ofText, sources_sheetPieces, Component.source_ofText]
  rfl

end FluidSizing
