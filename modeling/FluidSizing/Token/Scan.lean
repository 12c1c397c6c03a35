import FluidSizing.Token.Basic
import FluidSizing.Token.Name

/-! Cutting a text into tokens. `scan` looks at a character and what follows it and gives the kind of
the token and how many characters behind the first belong to it. `spelling_tokenize` says that nothing
is lost, and `wellSpelled_of_mem_tokenize` that brackets are tokens of their own. -/

namespace FluidSizing

namespace Token

/-- A character of a quoted string, or an escape; a newline may be escaped too. -/
def stringStep (quote c : Char) (rest : Text) : Option Nat :=
  if c = quote || isNewline c then none
  else if c = '\\' then
    some (if startsNewline rest then newlineLength rest else escapeLength rest)
  else some 0

/-- A quoted string behind its first quote. It ends at the other quote or at the end of the text, and is
broken by a newline. -/
def scanString (quote : Char) (rest : Text) : Kind × Nat :=
  let inside := spanLength (stringStep quote) 0 rest
  match rest.drop inside with
  | [] => (.string, inside)
  | c :: _ => if c = quote then (.string, inside + 1) else (.other, inside)

/-- The number of characters of a comment behind its opening mark. -/
def commentLength : Text → Nat
  | [] => 0
  | c :: rest =>
    if c = '*' && rest.head? = some '/' then 2 else 1 + commentLength rest

/-- The parts of an unquoted URL: white space before it, the URL, white space behind it, and what
follows once it cannot be a URL any more. -/
inductive UrlPart where
  | padding
  | body
  | ending
  | broken
  deriving DecidableEq, Repr

/-- The characters that break an unquoted URL: quotes, an opening parenthesis and control characters. -/
def breaksUrl (c : Char) : Bool :=
  c = '\x22' || c = '\x27' || c = '(' || (0x01 ≤ c.toNat && c.toNat ≤ 0x08) || c = '\x0b' ||
    (0x0E ≤ c.toNat && c.toNat ≤ 0x1F) || c = '\x7f'

/-- A character inside a URL: the part that follows, and how many more characters are taken with it. -/
def urlBodyStep (c : Char) (rest : Text) : UrlPart × Nat :=
  if isBlank c then (.ending, 0)
  else if breaksUrl c then (.broken, 0)
  else if c = '\\' then
    if startsNewline rest then (.broken, 0) else (.body, escapeLength rest)
  else (.body, 0)

/-- A character of an unquoted URL other than the closing parenthesis. -/
def urlStep (part : UrlPart) (c : Char) (rest : Text) : UrlPart × Nat :=
  match part with
  | .padding => if isBlank c then (.padding, 0) else urlBodyStep c rest
  | .body => urlBodyStep c rest
  | .ending => if isBlank c then (.ending, 0) else (.broken, 0)
  | .broken =>
    if c = '\\' && (rest.head? = some '\\' || rest.head? = some ')') then (.broken, 1)
    else (.broken, 0)

/-- The number of characters of an unquoted URL, the closing parenthesis included. -/
def urlLength : UrlPart → Nat → Text → Nat
  | _, _, [] => 0
  | part, skip + 1, _ :: rest => 1 + urlLength part skip rest
  | part, 0, c :: rest =>
    if c = ')' then 1
    else
      let (next, more) := urlStep part c rest
      1 + urlLength next more rest

/-- Whether the first character behind white space is a quote. -/
def startsQuote (text : Text) : Bool :=
  match text.dropWhile isBlank with
  | c :: _ => c = '\x22' || c = '\x27'
  | [] => false

/-- Whether a spelled name denotes `url`, in any case. -/
def isUrl (spelling : Text) : Bool := Text.toLowerAscii (unescape spelling) = ['u', 'r', 'l']

/-- A token that starts with a name: a name, a function with its opening parenthesis, or an unquoted
URL. -/
def scanNamed (c : Char) (rest : Text) : Kind × Nat :=
  let more := nameLength (c :: rest) - 1
  match rest.drop more with
  | '(' :: inside =>
    if isUrl (c :: rest.take more) && !startsQuote inside then
      (.other, more + 1 + urlLength .padding 0 inside)
    else (.function, more + 1)
  | _ => (.ident, more)

def kindOfChar (c : Char) : Kind :=
  if c = ',' then .comma
  else if c = ':' then .colon
  else if c = ';' then .semicolon
  else if c = '/' then .slash
  else if c = '(' then .opening .round
  else if c = '[' then .opening .square
  else if c = '\x7b' then .opening .curly
  else if c = ')' then .closing .round
  else if c = ']' then .closing .square
  else if c = '\x7d' then .closing .curly
  else .other

/-- The kind of the token that starts with a character, and the number of its further characters. A
digit takes the name behind it along. -/
def scan (c : Char) (rest : Text) : Kind × Nat :=
  if isBlank c then (.whitespace, (rest.takeWhile isBlank).length)
  else if c = '\x22' || c = '\x27' then scanString c rest
  else if c = '/' && rest.head? = some '*' then (.comment, 1 + commentLength (rest.drop 1))
  else if c = '-' && ['-', '>'].isPrefixOf rest then (.commentClose, 2)
  else if c = '<' && ['!', '-', '-'].isPrefixOf rest then (.commentOpen, 3)
  else if c = '@' && startsName rest then (.atKeyword, nameLength rest)
  else if c = '#' && startsName rest then (.other, nameLength rest)
  else if startsName (c :: rest) then scanNamed c rest
  else if c.isDigit then (.other, nameLength rest)
  else (kindOfChar c, 0)

/-- The tokens of a text behind its first `skip` characters. -/
def tokenizeFrom : Nat → Text → List Token
  | _, [] => []
  | skip + 1, _ :: rest => tokenizeFrom skip rest
  | 0, c :: rest =>
    let (kind, more) := scan c rest
    ⟨kind, c :: rest.take more⟩ :: tokenizeFrom more rest

def tokenize (text : Text) : List Token := tokenizeFrom 0 text

theorem tokenizeFrom_eq_tokenize_drop (skip : Nat) (text : Text) :
    tokenizeFrom skip text = tokenize (text.drop skip) := by
  induction text generalizing skip with
  | nil => cases skip <;> rfl
  | cons c rest ih =>
    cases skip with
    | zero => rfl
    | succ skip => exact ih skip

@[simp] theorem tokenize_nil : tokenize [] = [] := rfl

theorem tokenize_cons (c : Char) (rest : Text) :
    tokenize (c :: rest) =
      ⟨(scan c rest).1, c :: rest.take (scan c rest).2⟩ :: tokenize (rest.drop (scan c rest).2) := by
  rw [← tokenizeFrom_eq_tokenize_drop]
  rfl

theorem spelling_tokenizeFrom (skip : Nat) (text : Text) :
    spelling (tokenizeFrom skip text) = text.drop skip := by
  induction text generalizing skip with
  | nil => cases skip <;> rfl
  | cons c rest ih =>
    cases skip with
    | zero =>
      have h := ih (scan c rest).2
      simp only [spelling] at h
      simp [tokenizeFrom, spelling, h]
    | succ skip => exact ih skip

/-- The tokens of a text spell it. -/
theorem spelling_tokenize (text : Text) : spelling (tokenize text) = text :=
  spelling_tokenizeFrom 0 text

theorem wellSpelled_kindOfChar (c : Char) : WellSpelled ⟨kindOfChar c, [c]⟩ := by
  unfold kindOfChar
  repeat' split
  all_goals simp_all [WellSpelled, Bracket.opener, Bracket.close]

theorem wellSpelled_scanString (quote : Char) (rest text : Text) :
    WellSpelled ⟨(scanString quote rest).1, text⟩ := by
  unfold scanString
  dsimp only
  repeat' split
  all_goals exact trivial

theorem wellSpelled_scanNamed (c : Char) (rest : Text) :
    WellSpelled ⟨(scanNamed c rest).1, c :: rest.take (scanNamed c rest).2⟩ := by
  unfold scanNamed
  dsimp only
  split
  · rename_i inside hrest
    split
    · exact trivial
    · exact ⟨c :: rest.take (nameLength (c :: rest) - 1), by
        rw [List.take_add, hrest]
        rfl⟩
  · exact trivial

theorem wellSpelled_scan (c : Char) (rest : Text) :
    WellSpelled ⟨(scan c rest).1, c :: rest.take (scan c rest).2⟩ := by
  unfold scan
  repeat' split
  all_goals first
    | exact trivial
    | exact wellSpelled_scanString _ _ _
    | exact wellSpelled_scanNamed _ _
    | exact wellSpelled_kindOfChar _

theorem wellSpelled_of_mem_tokenizeFrom {t : Token} (skip : Nat) (text : Text)
    (ht : t ∈ tokenizeFrom skip text) : t.WellSpelled := by
  induction text generalizing skip with
  | nil => cases skip <;> cases ht
  | cons c rest ih =>
    cases skip with
    | succ skip => exact ih skip ht
    | zero =>
      rw [tokenizeFrom] at ht
      rcases List.mem_cons.1 ht with rfl | ht
      · exact wellSpelled_scan c rest
      · exact ih _ ht

/-- The tokens of a text are spelled as their kinds ask for. -/
theorem wellSpelled_of_mem_tokenize {t : Token} {text : Text} (ht : t ∈ tokenize text) :
    t.WellSpelled :=
  wellSpelled_of_mem_tokenizeFrom 0 text ht

end Token

end FluidSizing
