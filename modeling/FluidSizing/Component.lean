import FluidSizing.Token.Scan

/-! Component values: tokens and bracketed blocks of them. A closing bracket closes the innermost open
block if it is its own, and is an ordinary token otherwise; the end of the text closes every block.
`source_ofText` says that the component values of a text spell it. -/

namespace FluidSizing

/-- What opens a block: a bracket, or a name with a parenthesis. -/
inductive Opening where
  | bracket (bracket : Bracket)
  | call (name : Text)
  deriving DecidableEq, Repr

namespace Opening

def brackets : Opening → Bracket
  | bracket b => b
  | call _ => .round

def text : Opening → Text
  | bracket b => [b.opener]
  | call name => name ++ [Bracket.round.opener]

end Opening

/-- A token, or the tokens between an opening and its closing bracket. `closed` is false where the text
ends first. -/
inductive Component where
  | token (token : Token)
  | block (opening : Opening) (body : List Component) (closed : Bool)

namespace Component

mutual

def source : Component → Text
  | token t => t.text
  | block opening body closed =>
    opening.text ++ sources body ++ if closed then [opening.brackets.close] else []

def sources : List Component → Text
  | [] => []
  | c :: rest => source c ++ sources rest

end

@[simp] theorem sources_nil : sources [] = [] := by simp [sources]

@[simp] theorem sources_cons (c : Component) (cs : List Component) :
    sources (c :: cs) = source c ++ sources cs := by simp [sources]

@[simp] theorem sources_append (cs ds : List Component) :
    sources (cs ++ ds) = sources cs ++ sources ds := by
  induction cs with
  | nil => simp
  | cons c cs ih => simp [ih]

/-- A block whose end has not been seen, with the component values before it, the last one first. -/
structure Frame where
  opening : Opening
  before : List Component

namespace Frame

def close (frame : Frame) (body : List Component) (closed : Bool) : List Component :=
  block frame.opening body.reverse closed :: frame.before

def source (frame : Frame) : Text := sources frame.before.reverse ++ frame.opening.text

end Frame

/-- Component values that are being put together: the open blocks, the innermost first, and the values
behind the last opening, the last one first. -/
structure Builder where
  frames : List Frame
  items : List Component

namespace Builder

def empty : Builder := ⟨[], []⟩

def source (builder : Builder) : Text :=
  builder.frames.reverse.flatMap Frame.source ++ sources builder.items.reverse

/-- A token that neither opens nor closes a block. -/
def add (builder : Builder) (t : Token) : Builder :=
  ⟨builder.frames, token t :: builder.items⟩

def begin (builder : Builder) (opening : Opening) : Builder :=
  ⟨⟨opening, builder.items⟩ :: builder.frames, []⟩

def closing (builder : Builder) (bracket : Bracket) (t : Token) : Builder :=
  match builder.frames with
  | [] => builder.add t
  | frame :: frames =>
    if frame.opening.brackets = bracket then ⟨frames, frame.close builder.items true⟩
    else builder.add t

def push (builder : Builder) (t : Token) : Builder :=
  match t.kind with
  | .function => builder.begin (.call t.text.dropLast)
  | .opening bracket => builder.begin (.bracket bracket)
  | .closing bracket => builder.closing bracket t
  | _ => builder.add t

/-- The component values at the end of the text, where every open block ends. -/
def finish (builder : Builder) : List Component :=
  (builder.frames.foldl (fun items frame => frame.close items false) builder.items).reverse

theorem source_add (builder : Builder) (t : Token) :
    (builder.add t).source = builder.source ++ t.text := by
  simp [source, add, Component.source]

theorem source_begin (builder : Builder) (opening : Opening) :
    (builder.begin opening).source = builder.source ++ opening.text := by
  simp [source, begin, Frame.source]

theorem source_closing (builder : Builder) (bracket : Bracket) (t : Token)
    (ht : t.text = [bracket.close]) :
    (builder.closing bracket t).source = builder.source ++ t.text := by
  rcases builder with ⟨_ | ⟨frame, frames⟩, items⟩
  · exact source_add _ t
  · simp only [closing]
    split
    · rename_i hbracket
      simp [source, Frame.close, Frame.source, Component.source, ht, hbracket]
    · exact source_add _ t

/-- Every token adds its text. -/
theorem source_push (builder : Builder) {t : Token} (ht : t.WellSpelled) :
    (builder.push t).source = builder.source ++ t.text := by
  unfold push
  split <;> rename_i hkind <;> simp only [Token.WellSpelled, hkind] at ht
  · obtain ⟨name, ht⟩ := ht
    simp [source_begin, Opening.text, ht]
  · simp [source_begin, Opening.text, ht]
  · exact source_closing builder _ t ht
  · exact source_add builder t

theorem source_foldl_push (tokens : List Token) (builder : Builder)
    (h : ∀ t ∈ tokens, t.WellSpelled) :
    (tokens.foldl push builder).source = builder.source ++ Token.spelling tokens := by
  induction tokens generalizing builder with
  | nil => simp [Token.spelling]
  | cons t tokens ih =>
    rw [List.foldl_cons, ih _ fun u hu => h u (List.mem_cons_of_mem t hu),
      source_push builder (h t List.mem_cons_self)]
    simp [Token.spelling]

/-- The end of the text adds nothing. -/
theorem sources_finish (builder : Builder) : sources builder.finish = builder.source := by
  rcases builder with ⟨frames, items⟩
  induction frames generalizing items with
  | nil => simp [finish, source]
  | cons frame frames ih =>
    have h := ih (frame.close items false)
    simp only [finish, List.foldl_cons] at h ⊢
    rw [h]
    simp [source, Frame.close, Frame.source, Component.source]

end Builder

def ofTokens (tokens : List Token) : List Component :=
  (tokens.foldl Builder.push Builder.empty).finish

def ofText (text : Text) : List Component := ofTokens (Token.tokenize text)

/-- The component values of a text spell it. -/
theorem source_ofText (text : Text) : sources (ofText text) = text := by
  rw [ofText, ofTokens, Builder.sources_finish,
    Builder.source_foldl_push _ _ fun _ => Token.wellSpelled_of_mem_tokenize,
    Token.spelling_tokenize]
  simp [Builder.source, Builder.empty]

end Component

end FluidSizing
