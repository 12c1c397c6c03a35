import FluidSizing.Value.Walk

/-! Places in a value. A place is a gap between the nodes of a value, at the top or inside functions, and
`Place.fill` is the value with nodes there. The text before and behind a place does not depend on what
stands there (`Place.render_fill`), every node of a value is one at a place (`Value.mem_preorder_iff`), and
a child of a function at a place is a node at a place of its own (`Place.exists_child`). -/

namespace FluidSizing

namespace Value

/-- The functions of a value, each before those inside it. -/
def functionNodes (value : Value) : List Node := value.preorder.filter Node.isFunction

@[simp] theorem functionNodes_nil : functionNodes [] = [] := rfl

theorem preorder_append (front back : List Node) :
    preorder (front ++ back) = preorder front ++ preorder back := by
  induction front with
  | nil => simp [preorder]
  | cons n front ih => simp [preorder, ih]

@[simp] theorem functionNodes_append (front back : List Node) :
    functionNodes (front ++ back) = functionNodes front ++ functionNodes back := by
  simp [functionNodes, preorder_append]

@[simp] theorem functionNodes_function (name before : Text) (nodes : List Node) (after : Text)
    (rest : List Node) : functionNodes (.function name before nodes after :: rest) =
      .function name before nodes after :: (functionNodes nodes ++ functionNodes rest) := by
  simp only [functionNodes, preorder, Node.preorder, List.cons_append]
  rw [List.filter_cons_of_pos rfl, List.filter_append]

theorem functionNodes_leaf {n : Node} (hn : n.isFunction = false) (rest : List Node) :
    functionNodes (n :: rest) = functionNodes rest := by
  cases n with
  | function => cases hn
  | _ => simp [functionNodes, preorder, Node.preorder, Node.isFunction]

end Value

/-- A gap between the nodes of a value. -/
inductive Place where
  | here (front back : List Node)
  | inside (front : List Node) (name before : Text) (place : Place) (after : Text) (back : List Node)

namespace Place

def fill : Place → List Node → Value
  | here front back, nodes => front ++ (nodes ++ back)
  | inside front name before place after back, nodes =>
    front ++ .function name before (place.fill nodes) after :: back

def front : Place → Text
  | here front _ => Value.render front
  | inside front name before place _ _ => Value.render front ++ (name ++ '(' :: (before ++ place.front))

def back : Place → Text
  | here _ back => Value.render back
  | inside _ _ _ place after back => place.back ++ (after ++ ')' :: Value.render back)

/-- The number of functions that begin before the place. -/
def passed : Place → Nat
  | here front _ => (Value.functionNodes front).length
  | inside front _ _ place _ _ => (Value.functionNodes front).length + (place.passed + 1)

/-- A place in the gap of another. -/
def comp : Place → Place → Place
  | here front back, here front' back' => here (front ++ front') (back' ++ back)
  | here front back, inside front' name before place after back' =>
    inside (front ++ front') name before place after (back' ++ back)
  | inside front name before place after back, other =>
    inside front name before (place.comp other) after back

def behind (nodes : List Node) : Place := here nodes []

def ahead (nodes : List Node) : Place := here [] nodes

/-- The place of the children of a function, which stands before other nodes. -/
def children (name before after : Text) (rest : List Node) : Place :=
  inside [] name before (here [] []) after rest

theorem render_fill (place : Place) (nodes : List Node) :
    (place.fill nodes).render = place.front ++ (Value.render nodes ++ place.back) := by
  induction place with
  | here front back => simp [fill, Place.front, Place.back]
  | inside front name before place after back ih =>
      simp [fill, Place.front, Place.back, Node.render, ih]

@[simp] theorem fill_comp (place other : Place) (nodes : List Node) :
    (place.comp other).fill nodes = place.fill (other.fill nodes) := by
  induction place with
  | here front back => cases other <;> simp [comp, fill]
  | inside front name before place after back ih => simp [comp, fill, ih]

@[simp] theorem passed_comp (place other : Place) :
    (place.comp other).passed = place.passed + other.passed := by
  induction place with
  | here front back => cases other <;> simp [comp, passed, Nat.add_assoc]
  | inside front name before place after back ih => simp [comp, passed, ih]; omega

@[simp] theorem fill_behind (front nodes : List Node) : (behind front).fill nodes = front ++ nodes := by
  simp [behind, fill]

@[simp] theorem passed_behind (front : List Node) :
    (behind front).passed = (Value.functionNodes front).length := rfl

@[simp] theorem fill_ahead (back nodes : List Node) : (ahead back).fill nodes = nodes ++ back := rfl

@[simp] theorem passed_ahead (back : List Node) : (ahead back).passed = 0 := rfl

@[simp] theorem fill_children (name before after : Text) (rest nodes : List Node) :
    (children name before after rest).fill nodes = .function name before nodes after :: rest := by
  simp [children, fill]

@[simp] theorem passed_children (name before after : Text) (rest : List Node) :
    (children name before after rest).passed = 1 := rfl

/-- The functions of a value are those that begin before a place, those at the place and those behind
it. The functions around the place are what they are by what stands there, their number is not. -/
theorem exists_functionNodes (place : Place) (nodes : List Node) : ∃ earlier later,
    earlier.length = place.passed ∧
      (place.fill nodes).functionNodes = earlier ++ (Value.functionNodes nodes ++ later) := by
  induction place with
  | here front back =>
      exact ⟨Value.functionNodes front, Value.functionNodes back, rfl, by simp [fill]⟩
  | inside front name before place after back ih =>
      obtain ⟨earlier, later, hlength, hnodes⟩ := ih
      refine ⟨Value.functionNodes front ++ .function name before (place.fill nodes) after :: earlier,
        later ++ Value.functionNodes back, ?_, ?_⟩
      · simp [passed, hlength]
      · simp [fill, hnodes]

/-- A child of a function at a place is a node at a place, where any other node can stand. -/
theorem exists_child (place : Place) (name before : Text) {nodes : List Node} (after : Text) {index : Nat}
    {old : Node} (hold : nodes[index]? = some old) :
    ∃ child : Place, place.fill [.function name before nodes after] = child.fill [old] ∧
      ∀ node, place.fill [.function name before (nodes.set index node) after] = child.fill [node] := by
  obtain ⟨hlt, hget⟩ := List.getElem?_eq_some_iff.mp hold
  have hnodes : nodes = nodes.take index ++ old :: nodes.drop (index + 1) := by
    rw [← hget, List.getElem_cons_drop, List.take_append_drop]
  refine ⟨place.comp ((children name before after []).comp
    (here (nodes.take index) (nodes.drop (index + 1)))), ?_, fun node => ?_⟩
  · simp only [fill_comp, fill_children]
    rw [fill, List.singleton_append, ← hnodes]
  · simp only [fill_comp, fill_children]
    rw [fill, List.singleton_append, List.set_eq_take_append_cons_drop, if_pos hlt]

end Place

mutual

theorem Node.exists_place_of_mem_preorder {m : Node} : (n : Node) → m ∈ n.preorder →
    ∃ place : Place, [n] = place.fill [m]
  | .word _, h | .space _, h | .divider .., h | .quoted _, h | .comment _, h => by
      rw [Node.preorder] at h
      · rw [List.mem_singleton.mp h]
        exact ⟨.here [] [], rfl⟩
      all_goals exact nofun
  | .function name before nodes after, h => by
      rw [Node.preorder] at h
      rcases List.mem_cons.mp h with rfl | h
      · exact ⟨.here [] [], rfl⟩
      · obtain ⟨place, rfl⟩ := Value.exists_place_of_mem_preorder nodes h
        exact ⟨.inside [] name before place after [], rfl⟩

theorem Value.exists_place_of_mem_preorder {m : Node} : (value : Value) → m ∈ value.preorder →
    ∃ place : Place, value = place.fill [m]
  | [], h => by simp [Value.preorder] at h
  | n :: rest, h => by
      rw [Value.preorder] at h
      rcases List.mem_append.mp h with h | h
      · obtain ⟨place, hplace⟩ := Node.exists_place_of_mem_preorder n h
        refine ⟨(Place.ahead rest).comp place, ?_⟩
        rw [Place.fill_comp, ← hplace]
        rfl
      · obtain ⟨place, hplace⟩ := Value.exists_place_of_mem_preorder rest h
        refine ⟨(Place.behind [n]).comp place, ?_⟩
        rw [Place.fill_comp, ← hplace]
        simp

end

theorem Place.mem_preorder_fill (place : Place) (n : Node) : n ∈ (place.fill [n]).preorder := by
  have hself : n ∈ n.preorder := by cases n <;> simp [Node.preorder]
  induction place with
  | here front back => simp [fill, Value.preorder_append, Value.preorder, hself]
  | inside front name before place after back ih =>
      simp [fill, Value.preorder_append, Value.preorder, Node.preorder, ih]

/-- The nodes of a value are what stands at its places. -/
theorem Value.mem_preorder_iff {value : Value} {n : Node} :
    n ∈ value.preorder ↔ ∃ place : Place, value = place.fill [n] := by
  refine ⟨Value.exists_place_of_mem_preorder value, ?_⟩
  rintro ⟨place, rfl⟩
  exact place.mem_preorder_fill n

end FluidSizing
