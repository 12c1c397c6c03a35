import FluidSizing.Component
import FluidSizing.Value.Node

/-! Reading the value of a declaration. Tokens that nothing separates make one word, and a word directly
before a parenthesis names the function; square and curly brackets with everything inside are part of a
word. While a list of nodes is read it is kept with the last node first. -/

namespace FluidSizing

namespace Value

/-- White space behind the nodes: it belongs to a separator that has none yet. -/
def pushSpace (nodes : List Node) (text : Text) : List Node :=
  match nodes with
  | .divider separator before [] :: rest => .divider separator before text :: rest
  | _ => .space text :: nodes

/-- A separator, which takes the white space before it. -/
def pushDivider (nodes : List Node) (separator : Char) : List Node :=
  match nodes with
  | .space before :: rest => .divider separator before [] :: rest
  | _ => .divider separator [] [] :: nodes

/-- Text of a word, which continues the word before it. -/
def pushWord (nodes : List Node) (text : Text) : List Node :=
  match nodes with
  | .word front :: rest => .word (front ++ text) :: rest
  | _ => .word text :: nodes

/-- A token outside of brackets. -/
def pushToken (nodes : List Node) (t : Token) : List Node :=
  match t.kind with
  | .whitespace => pushSpace nodes t.text
  | .comma => pushDivider nodes ','
  | .colon => pushDivider nodes ':'
  | .slash => pushDivider nodes '/'
  | .string => .quoted t.text :: nodes
  | .comment => .comment t.text :: nodes
  | _ => pushWord nodes t.text

/-- The white space at the start of a list of nodes, and what follows. -/
def takeSpace (nodes : List Node) : Text × List Node :=
  match nodes with
  | .space text :: rest => (text, rest)
  | _ => ([], nodes)

/-- The function of a name and the nodes between its parentheses, which are given the last one first.
White space at the ends belongs to the parentheses. -/
def callOf (name : Text) (inside : List Node) : Node :=
  let (before, nodes) := takeSpace inside.reverse
  let (after, nodes) := takeSpace nodes.reverse
  .function name before nodes.reverse after

/-- A group in parentheses behind the nodes. A word before it is its name. -/
def pushGroup (nodes : List Node) (inside : List Node) : List Node :=
  match nodes with
  | .word name :: rest => callOf name inside :: rest
  | _ => callOf [] inside :: nodes

mutual

/-- A component value behind the nodes. -/
def push (nodes : List Node) : Component → List Node
  | .token t => pushToken nodes t
  | .block opening body closed =>
    match opening with
    | .call name => callOf name (pushAll [] body) :: nodes
    | .bracket .round => pushGroup nodes (pushAll [] body)
    | _ => pushWord nodes (Component.source (.block opening body closed))

def pushAll (nodes : List Node) : List Component → List Node
  | [] => nodes
  | c :: rest => pushAll (push nodes c) rest

end

def ofComponents (components : List Component) : Value := (pushAll [] components).reverse

/-- The value that a text spells. Every text spells one. -/
def ofText (text : Text) : Value := ofComponents (Component.ofText text)

end Value

end FluidSizing
