import FluidSizing.Value.Node

/-! Visiting the nodes of a value, a function before its arguments. `Value.walkFrom` may replace children of
a function when it arrives there, which may depend on all that has been visited before, and then goes on
into the new children; it does so at a limited number of functions, so it ends whatever the new children
are. `Value.walk` looks at the function alone and replaces at most one child of each. -/

namespace FluidSizing

mutual

def Node.preorder : Node → List Node
  | .function name before nodes after => .function name before nodes after :: Value.preorder nodes
  | node => [node]

/-- All nodes of a value, a function before its arguments. -/
def Value.preorder : Value → List Node
  | [] => []
  | node :: rest => node.preorder ++ Value.preorder rest

end

namespace Value

def containsFunction (value : Value) (name : Text) : Bool :=
  value.preorder.any (Node.isNamed name)

/-- Puts nodes in the place of children, one after the other: the children there are then, and for each
replacement the child that was there before, if there was one. -/
def substitute : List (Nat × Node) → List Node → List Node × List (Option Node)
  | [], nodes => (nodes, [])
  | (index, node) :: changes, nodes =>
    let others := substitute changes (nodes.set index node)
    (others.1, nodes[index]? :: others.2)

/-- A walk that could replace children of `limit` functions: the nodes behind it, the number of functions
it still could have changed, the functions as they were on arrival, and for each replacement the child
that was there before, if there was one. -/
structure Walk (limit : Nat) where
  nodes : List Node
  left : Nat
  left_le : left ≤ limit
  visited : List Node
  replaced : List (Option Node)

private theorem lex_of_le_of_lt {a b c d : Nat} (hab : a ≤ b) (hcd : c < d) :
    Prod.Lex (· < ·) (· < ·) (a, c) (b, d) := by
  rcases Nat.lt_or_eq_of_le hab with h | rfl
  · exact .left _ _ h
  · exact .right _ hcd

/-- Visits the functions of a value. `choose` gets the functions visited before, the last one first, and
the function arrived at, and names the places of children and the nodes to put there. -/
def walkFrom (choose : List Node → Node → List (Nat × Node)) (limit : Nat) (seen : List Node) :
    List Node → Walk limit
  | [] => ⟨[], limit, Nat.le_refl _, [], []⟩
  | .function name before nodes after :: rest =>
    match limit, choose seen (.function name before nodes after) with
    | limit + 1, change :: changes =>
      let inside := walkFrom choose limit (.function name before nodes after :: seen)
        (substitute (change :: changes) nodes).1
      let behind := walkFrom choose inside.left
        (inside.visited.reverse ++ .function name before nodes after :: seen) rest
      ⟨.function name before inside.nodes after :: behind.nodes, behind.left,
        Nat.le_succ_of_le (Nat.le_trans behind.left_le inside.left_le),
        .function name before nodes after :: inside.visited ++ behind.visited,
        (substitute (change :: changes) nodes).2 ++ (inside.replaced ++ behind.replaced)⟩
    | limit, _ =>
      let inside := walkFrom choose limit (.function name before nodes after :: seen) nodes
      let behind := walkFrom choose inside.left
        (inside.visited.reverse ++ .function name before nodes after :: seen) rest
      ⟨.function name before inside.nodes after :: behind.nodes, behind.left,
        Nat.le_trans behind.left_le inside.left_le,
        .function name before nodes after :: inside.visited ++ behind.visited,
        inside.replaced ++ behind.replaced⟩
  | node :: rest =>
    let behind := walkFrom choose limit seen rest
    ⟨node :: behind.nodes, behind.left, behind.left_le, behind.visited, behind.replaced⟩
termination_by nodes => (limit, sizeOf nodes)
decreasing_by
  · exact .left _ _ (Nat.lt_succ_self _)
  · exact .left _ _ (Nat.lt_succ_of_le inside.left_le)
  · exact .right _ (by simp only [List.cons.sizeOf_spec, Node.function.sizeOf_spec]; omega)
  · exact lex_of_le_of_lt inside.left_le (by simp only [List.cons.sizeOf_spec]; omega)
  · exact .right _ (by simp only [List.cons.sizeOf_spec]; omega)

/-- Visits the functions of a value, where at most one child of a function is replaced and that depends on
the name and the children of the function only. -/
def walk (choose : Text → List Node → Option (Nat × Node)) (limit : Nat) (value : Value) : Walk limit :=
  walkFrom (fun _ function =>
    match function with
    | .function name _ nodes _ => (choose name nodes).toList
    | _ => []) limit [] value

def functions (value : Value) : List Node := (walk (fun _ _ => none) 0 value).visited

end Value

end FluidSizing
