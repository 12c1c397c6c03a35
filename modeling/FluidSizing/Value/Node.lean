import FluidSizing.Text

/-! Values of declarations as trees. A node keeps its spelling: white space beside a separator or inside
the parentheses of a function belongs to them, all other white space is a node of its own. -/

namespace FluidSizing

/-- A node of a value. A function with an empty name is a group in parentheses. -/
inductive Node where
  | word (text : Text)
  | space (text : Text)
  | divider (separator : Char) (before after : Text)
  | quoted (text : Text)
  | comment (text : Text)
  | function (name before : Text) (nodes : List Node) (after : Text)
  deriving Repr, Inhabited

abbrev Value := List Node

namespace Node

/-- Whether the node separates arguments. -/
def isDivider : Node → Bool
  | divider .. => true
  | _ => false

def word? : Node → Option Text
  | word text => some text
  | _ => none

def isFunction : Node → Bool
  | function .. => true
  | _ => false

def isNamed (name : Text) : Node → Bool
  | function n .. => n = name
  | _ => false

end Node

mutual

def Node.render : Node → Text
  | .word text => text
  | .space text => text
  | .divider separator before after => before ++ separator :: after
  | .quoted text => text
  | .comment text => text
  | .function name before nodes after =>
    name ++ '(' :: before ++ Value.render nodes ++ after ++ [')']

def Value.render : Value → Text
  | [] => []
  | node :: rest => node.render ++ Value.render rest

end

namespace Value

@[simp] theorem render_nil : render [] = [] := by simp [render]

@[simp] theorem render_cons (n : Node) (v : Value) : render (n :: v) = n.render ++ render v := by
  simp [render]

@[simp] theorem render_append (v w : Value) : render (v ++ w) = render v ++ render w := by
  induction v with
  | nil => simp
  | cons n v ih => simp [ih]

/-- The places of the arguments: of the nodes that are not separators. -/
def argumentIndices (nodes : List Node) : List Nat :=
  (nodes.zipIdx.filter fun (node, _) => !node.isDivider).map Prod.snd

/-- The arguments: the nodes that are not separators. -/
def arguments (nodes : List Node) : List Node := nodes.filter fun node => !node.isDivider

def words (nodes : List Node) : List Text := nodes.filterMap Node.word?

end Value

end FluidSizing
