import FluidSizing.Proofs.Component.Standing

/-! What a text leaves open. The brackets still open behind tokens are a stack, which a closing bracket
changes only if it is that of the innermost open one. In a value the parentheses among them are calls
and groups as long as no square or curly bracket is around them: those are text of a word, with
everything inside. The same number is counted over the component values of the text
(`openCalls_ofText`). -/

namespace FluidSizing

namespace Token

/-- The open brackets behind a token, the innermost first. -/
def nest (brackets : List Bracket) (t : Token) : List Bracket :=
  match t.kind with
  | .function => .round :: brackets
  | .opening bracket => bracket :: brackets
  | .closing bracket => if brackets.head? = some bracket then brackets.tail else brackets
  | _ => brackets

/-- The open brackets at the end of a text, the innermost first. -/
def openBrackets (text : Text) : List Bracket := (tokenize text).foldl nest []

/-- The number of calls and groups in parentheses of a value that are open at the end of its text. -/
def openCalls (text : Text) : Nat :=
  ((openBrackets text).reverse.takeWhile fun bracket => bracket = .round).length

theorem nest_of_isFlat {brackets : List Bracket} {t : Token}
    (hflat : t.kind.isFlat brackets.head? = true) : nest brackets t = brackets := by
  obtain ⟨kind, text⟩ := t
  cases kind with
  | function => cases hflat
  | opening bracket => cases hflat
  | closing bracket =>
      have hne : brackets.head? ≠ some bracket := by simpa [Kind.isFlat] using hflat
      simp only [nest, if_neg hne]
  | _ => rfl

theorem nest_token (brackets : List Bracket) (opening : Opening) :
    nest brackets opening.token = opening.brackets :: brackets := by
  cases opening <;> rfl

theorem nest_close (brackets : List Bracket) (bracket : Bracket) :
    nest (bracket :: brackets) ⟨.closing bracket, [bracket.close]⟩ = brackets := by
  simp [nest]

end Token

namespace Component

mutual

/-- The brackets that a component value leaves open, the outermost first. -/
def leftOpen : Component → List Bracket
  | token _ => []
  | block opening body closed => if closed then [] else opening.brackets :: allLeftOpen body

/-- The brackets that component values in a row leave open, the outermost first. -/
def allLeftOpen : List Component → List Bracket
  | [] => []
  | c :: rest => leftOpen c ++ allLeftOpen rest

end

/-- The number of calls and groups that component values of a value leave open. -/
def openCalls (cs : List Component) : Nat :=
  ((allLeftOpen cs).takeWhile fun bracket => bracket = .round).length

@[simp] theorem openCalls_nil : openCalls [] = 0 := by simp [openCalls, allLeftOpen]

@[simp] theorem openCalls_token (t : Token) (rest : List Component) :
    openCalls (token t :: rest) = openCalls rest := by
  simp [openCalls, allLeftOpen, leftOpen]

@[simp] theorem openCalls_closed (opening : Opening) (body rest : List Component) :
    openCalls (block opening body true :: rest) = openCalls rest := by
  simp [openCalls, allLeftOpen, leftOpen]

theorem openCalls_unclosed (opening : Opening) (body : List Component) :
    openCalls [block opening body false] =
      if opening.brackets = .round then openCalls body + 1 else 0 := by
  simp only [openCalls, allLeftOpen, leftOpen, Bool.false_eq_true, if_false, List.append_nil,
    List.takeWhile_cons, decide_eq_true_eq]
  split <;> rfl

/-- Component values that something follows leave nothing open. -/
theorem Stands.allLeftOpen_eq_nil {enclosing : Option Bracket} {post : Text} {cs : List Component}
    (h : Stands enclosing post cs) (hne : post ≠ []) : allLeftOpen cs = [] := by
  induction h with
  | nil => simp [allLeftOpen]
  | token _ _ _ ih => simp [allLeftOpen, leftOpen, ih hne]
  | closed _ _ _ _ ih => simp [allLeftOpen, leftOpen, ih hne]
  | unclosed => exact absurd rfl hne

theorem Stands.openCalls_eq_zero {enclosing : Option Bracket} {post : Text} {cs : List Component}
    (h : Stands enclosing post cs) (hne : post ≠ []) : openCalls cs = 0 := by
  rw [openCalls, h.allLeftOpen_eq_nil hne]
  rfl

/-- Tokens that spell component values which stand open the brackets that these leave open. -/
theorem Stands.foldl_nest {enclosing : Option Bracket} {post : Text} {cs : List Component}
    (h : Stands enclosing post cs) (brackets : List Bracket) (hhead : brackets.head? = enclosing) :
    (Token.tokenize (sources cs ++ post)).foldl Token.nest brackets =
      (Token.tokenize post).foldl Token.nest ((allLeftOpen cs).reverse ++ brackets) := by
  induction h generalizing brackets with
  | nil => simp [allLeftOpen]
  | @token enclosing post t rest stands flat _ ih =>
      subst hhead
      rw [sources_cons, source, List.append_assoc, stands.tokenize, List.foldl_cons,
        Token.nest_of_isFlat flat, ih brackets rfl]
      simp [allLeftOpen, leftOpen]
  | @closed enclosing post opening body rest stands inside _ ihbody ih =>
      have htext : sources (block opening body true :: rest) ++ post =
          opening.token.text ++
            (sources body ++ opening.brackets.close :: (sources rest ++ post)) := by
        simp [source]
      have hclose := (Token.standsBefore_close opening.brackets (sources rest ++ post)).tokenize
      rw [List.singleton_append] at hclose
      rw [htext, stands.tokenize, List.foldl_cons, Token.nest_token, ihbody _ rfl,
        inside.allLeftOpen_eq_nil (List.cons_ne_nil _ _), hclose, List.foldl_cons,
        List.reverse_nil, List.nil_append, Token.nest_close, ih brackets hhead]
      simp [allLeftOpen, leftOpen]
  | @unclosed enclosing opening body stands _ ihbody =>
      have hbody := ihbody (opening.brackets :: brackets) rfl
      have htext : sources [block opening body false] ++ [] = opening.token.text ++ sources body := by
        simp [source]
      rw [List.append_nil] at hbody
      rw [htext, stands.tokenize, List.foldl_cons, Token.nest_token, hbody]
      simp [allLeftOpen, leftOpen]

/-- The open calls of a text are those that its component values leave open. -/
theorem openCalls_ofText (text : Text) : openCalls (ofText text) = Token.openCalls text := by
  have hfold := (stands_ofText text).foldl_nest [] rfl
  rw [List.append_nil, source_ofText] at hfold
  rw [openCalls, Token.openCalls, Token.openBrackets, hfold]
  simp

end Component
end FluidSizing
