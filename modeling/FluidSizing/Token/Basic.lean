import FluidSizing.Text

/-! Tokens of style sheets: pieces of source text by kind. A token keeps its spelling, so the tokens of
a text spell it. -/

namespace FluidSizing

inductive Bracket where
  | round
  | square
  | curly
  deriving DecidableEq, Repr

namespace Bracket

def opener : Bracket → Char
  | round => '('
  | square => '['
  | curly => '\x7b'

def close : Bracket → Char
  | round => ')'
  | square => ']'
  | curly => '\x7d'

end Bracket

namespace Token

/-- What a token is. Numbers, hashes, unquoted URLs, broken strings and single characters without a role
are all `other`; a name directly followed by a parenthesis is a `function` together with it. -/
inductive Kind where
  | whitespace
  | comment
  | string
  | comma
  | colon
  | semicolon
  | slash
  | function
  | opening (bracket : Bracket)
  | closing (bracket : Bracket)
  | ident
  | atKeyword
  | commentOpen
  | commentClose
  | other
  deriving DecidableEq, Repr

end Token

structure Token where
  kind : Token.Kind
  text : Text
  deriving DecidableEq, Repr

namespace Token

/-- Whether a token may stand between other tokens without a meaning of its own. -/
def Kind.isTrivia : Kind → Bool
  | whitespace => true
  | comment => true
  | _ => false

/-- Whether a token is spelled as its kind asks for: a bracket by itself, and a function with a
parenthesis at its end. -/
def WellSpelled (t : Token) : Prop :=
  match t.kind with
  | .function => ∃ name, t.text = name ++ [Bracket.round.opener]
  | .opening bracket => t.text = [bracket.opener]
  | .closing bracket => t.text = [bracket.close]
  | _ => True

def spelling (tokens : List Token) : Text := tokens.flatMap Token.text

end Token

end FluidSizing
