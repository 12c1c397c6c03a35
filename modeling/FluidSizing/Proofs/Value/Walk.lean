import FluidSizing.Proofs.Value.Place

/-! What a walk does to a value. At any time the function visited next is the one that begins behind as many
functions of the value, as it then is, as have been visited (`Tour.Visits`, `visits_walkFrom`); so behind a
replacement the walk goes on into the new child. A walk that replaces nothing where it arrives changes
nothing (`walkFrom_quiet`), and one that replaces one child of one function changes the text of that child
and nothing else (`walkFrom_once_fill`, `Place.exists_child`). -/

namespace FluidSizing

/-- What happens where a walk arrives at a function, with the number of functions it could change before and
behind it: the children it goes on into, and the children that were replaced. -/
inductive Arrival (choose : List Node → Node → List (Nat × Node)) (seen : List Node)
    (name before : Text) (nodes : List Node) (after : Text) :
    Nat → Nat → List Node → List (Option Node) → Prop where
  | keep {limit : Nat}
      (keeps : limit = 0 ∨ choose seen (.function name before nodes after) = []) :
      Arrival choose seen name before nodes after limit limit nodes []
  | replace {limit : Nat} (change : Nat × Node) (changes : List (Nat × Node))
      (chosen : choose seen (.function name before nodes after) = change :: changes) :
      Arrival choose seen name before nodes after (limit + 1) limit
        (Value.substitute (change :: changes) nodes).1 (Value.substitute (change :: changes) nodes).2

/-- Where a walk is: the replacements it can still make, the functions visited, the last one first, and the
value as it is now. -/
structure Tour where
  left : Nat
  seen : List Node
  value : Value

/-- A walk goes on from one state to another, with the children that were replaced. The function it arrives
at next is the one with as many functions before it as have been visited. -/
inductive Tour.Visits (choose : List Node → Node → List (Nat × Node)) :
    Tour → List (Option Node) → Tour → Prop where
  | done (tour : Tour) : Visits choose tour [] tour
  | next {place : Place} {limit left : Nat} {seen : List Node} {name before : Text}
      {nodes children : List Node} {after : Text} {olds others : List (Option Node)} {tour : Tour}
      (passed : place.passed = seen.length)
      (arrival : Arrival choose seen name before nodes after limit left children olds)
      (later : Visits choose ⟨left, .function name before nodes after :: seen,
        place.fill [.function name before children after]⟩ others tour) :
      Visits choose ⟨limit, seen, place.fill [.function name before nodes after]⟩ (olds ++ others) tour

variable {choose : List Node → Node → List (Nat × Node)}

theorem Tour.Visits.trans {first second third : Tour} {olds others : List (Option Node)}
    (h : Visits choose first olds second) (h' : Visits choose second others third) :
    Visits choose first (olds ++ others) third := by
  induction h with
  | done => exact h'
  | next passed arrival _ ih =>
      rw [List.append_assoc]
      exact .next passed arrival (ih h')

namespace Value

open Tour (Visits)

variable {limit : Nat} {seen : List Node}

/-! One step of a walk. -/

@[simp] theorem walkFrom_nil : walkFrom choose limit seen [] = ⟨[], limit, Nat.le_refl _, [], []⟩ := by
  simp [walkFrom]

theorem walkFrom_leaf (choose : List Node → Node → List (Nat × Node)) (limit : Nat) (seen : List Node)
    {n : Node} (hn : n.isFunction = false) (rest : List Node) :
    let behind := walkFrom choose limit seen rest
    let walk := walkFrom choose limit seen (n :: rest)
    walk.nodes = n :: behind.nodes ∧ walk.left = behind.left ∧ walk.visited = behind.visited ∧
      walk.replaced = behind.replaced := by
  cases n with
  | function => cases hn
  | _ => simp [walkFrom]

/-- At a function the walk goes on into the children it then has, and behind it. -/
theorem walkFrom_function {name before : Text} {nodes children : List Node} {after : Text} {left : Nat}
    {olds : List (Option Node)}
    (h : Arrival choose seen name before nodes after limit left children olds) (rest : List Node) :
    let function := Node.function name before nodes after
    let inside := walkFrom choose left (function :: seen) children
    let behind := walkFrom choose inside.left (inside.visited.reverse ++ function :: seen) rest
    let walk := walkFrom choose limit seen (function :: rest)
    walk.nodes = .function name before inside.nodes after :: behind.nodes ∧ walk.left = behind.left ∧
      walk.visited = function :: (inside.visited ++ behind.visited) ∧
      walk.replaced = olds ++ (inside.replaced ++ behind.replaced) := by
  cases h with
  | keep keeps =>
      rcases keeps with rfl | hnone
      · simp [walkFrom]
      · simp [walkFrom, hnone]
  | replace change changes chosen => simp [walkFrom, chosen]

/-- Walks end, so what is kept by every step holds of them: by the walk inside a function and the walk
behind it, or by the walk behind another node. -/
theorem walkFrom_induction (choose : List Node → Node → List (Nat × Node))
    {motive : Nat → List Node → List Node → Prop}
    (nil : ∀ limit seen, motive limit seen [])
    (leaf : ∀ limit seen n rest, n.isFunction = false → motive limit seen rest →
      motive limit seen (n :: rest))
    (function : ∀ limit seen name before nodes after rest left children olds,
      Arrival choose seen name before nodes after limit left children olds →
      motive left (.function name before nodes after :: seen) children →
      motive (walkFrom choose left (.function name before nodes after :: seen) children).left
        ((walkFrom choose left (.function name before nodes after :: seen) children).visited.reverse ++
          .function name before nodes after :: seen) rest →
      motive limit seen (.function name before nodes after :: rest))
    (limit : Nat) (seen nodes : List Node) : motive limit seen nodes := by
  induction limit, seen, nodes using walkFrom.induct choose with
  | case1 limit seen => exact nil limit seen
  | case2 seen name before nodes after rest limit change changes hchoose inside ihinside ihbehind =>
      exact function _ _ _ _ _ _ _ _ _ _ (.replace change changes hchoose) ihinside ihbehind
  | case3 seen name before nodes after rest limit inside hkeeps ihinside ihbehind =>
      have hkeep : limit = 0 ∨ choose seen (.function name before nodes after) = [] := by
        cases hchoose : choose seen (.function name before nodes after) with
        | nil => exact Or.inr rfl
        | cons change changes =>
            cases limit with
            | zero => exact Or.inl rfl
            | succ left => exact (hkeeps left change changes rfl hchoose).elim
      exact function _ _ _ _ _ _ _ _ _ _ (.keep hkeep) ihinside ihbehind
  | case4 limit seen n rest hn ih =>
      refine leaf limit seen n rest ?_ ih
      cases n with
      | function => exact (hn _ _ _ _ rfl).elim
      | _ => rfl

/-! Whole walks. -/

/-- A walk visits as many functions as there are in the end: a function keeps standing where it was
visited. -/
theorem length_visited_walkFrom (choose : List Node → Node → List (Nat × Node)) (limit : Nat)
    (seen nodes : List Node) :
    (walkFrom choose limit seen nodes).visited.length =
      (functionNodes (walkFrom choose limit seen nodes).nodes).length := by
  induction limit, seen, nodes using walkFrom_induction choose with
  | nil => simp
  | leaf limit seen n rest hn ih =>
      obtain ⟨hnodes, -, hvisited, -⟩ :=
        walkFrom_leaf choose limit seen hn rest
      rw [hnodes, hvisited, functionNodes_leaf hn, ih]
  | function limit seen name before nodes after rest left children olds harrival ihinside ihbehind =>
      obtain ⟨hnodes, -, hvisited, -⟩ := walkFrom_function harrival rest
      rw [hnodes, hvisited, functionNodes_function, List.length_cons, List.length_append, ihinside,
        ihbehind, List.length_cons, List.length_append]

/-- Walking over nodes at a place goes on from function to function of the whole value. -/
theorem visits_walkFrom (choose : List Node → Node → List (Nat × Node)) (limit : Nat)
    (seen nodes : List Node) (place : Place) (hplace : place.passed = seen.length) :
    let walk := walkFrom choose limit seen nodes
    Visits choose ⟨limit, seen, place.fill nodes⟩ walk.replaced
      ⟨walk.left, walk.visited.reverse ++ seen, place.fill walk.nodes⟩ := by
  -- the functions inside of a function and those behind it are at places of their own in the value
  induction limit, seen, nodes using walkFrom_induction choose generalizing place with
  | nil limit seen => simpa using Visits.done _
  | leaf limit seen n rest hn ih =>
      obtain ⟨hnodes, hleft, hvisited, hreplaced⟩ :=
        walkFrom_leaf choose limit seen hn rest
      have hbehind := ih (place.comp (.behind [n])) (by simp [hplace, functionNodes_leaf hn])
      intro walk
      simp only [walk, hnodes, hleft, hvisited, hreplaced]
      simpa using hbehind
  | function limit seen name before nodes after rest left children olds harrival ihinside ihbehind =>
      obtain ⟨hnodes, hleft, hvisited, hreplaced⟩ := walkFrom_function harrival rest
      have hlength :=
        length_visited_walkFrom choose left (.function name before nodes after :: seen) children
      have hinside := ihinside (place.comp (.children name before after rest)) (by simp [hplace])
      have hbehind := ihbehind (place.comp (.behind [.function name before (walkFrom choose left
          (.function name before nodes after :: seen) children).nodes after])) (by
        simp [hplace, hlength]
        omega)
      simp only [Place.fill_comp, Place.fill_children, Place.fill_behind, List.singleton_append]
        at hinside hbehind
      have hahead : (place.comp (.ahead rest)).passed = seen.length := by simp [hplace]
      have hnext := Visits.next hahead harrival
        (by simpa only [Place.fill_comp, Place.fill_ahead, List.singleton_append]
          using hinside.trans hbehind)
      intro walk
      simp only [walk, hnodes, hleft, hvisited, hreplaced]
      simpa using hnext

/-- Where nothing is replaced nothing is changed, and every function is visited. -/
theorem walkFrom_quiet (limit : Nat) (seen nodes : List Node)
    (h : ∀ visited function, seen.length ≤ visited.length →
      visited.length < seen.length + (functionNodes nodes).length → choose visited function = []) :
    let walk := walkFrom choose limit seen nodes
    walk.nodes = nodes ∧ walk.left = limit ∧ walk.visited = functionNodes nodes ∧ walk.replaced = [] := by
  induction limit, seen, nodes using walkFrom_induction choose with
  | nil => simp
  | leaf limit seen n rest hn ih =>
      rw [functionNodes_leaf hn] at h ⊢
      obtain ⟨hnodes, hleft, hvisited, hreplaced⟩ :=
        walkFrom_leaf choose limit seen hn rest
      obtain ⟨hnodes', hleft', hvisited', hreplaced'⟩ := ih h
      exact ⟨by rw [hnodes, hnodes'], hleft.trans hleft', hvisited.trans hvisited',
        hreplaced.trans hreplaced'⟩
  | function limit seen name before nodes after rest left children olds harrival ihinside ihbehind =>
      rw [functionNodes_function, List.length_cons, List.length_append] at h
      obtain ⟨hnodes, hleft, hvisited, hreplaced⟩ := walkFrom_function harrival rest
      cases harrival with
      | replace change changes chosen =>
          rw [h seen _ (Nat.le_refl _) (by omega)] at chosen
          cases chosen
      | keep keeps =>
          obtain ⟨hnodes', hleft', hvisited', hreplaced'⟩ := ihinside fun visited function hle hlt => by
            rw [List.length_cons] at hle hlt
            exact h visited function (by omega) (by omega)
          rw [hleft', hvisited'] at hnodes hleft hvisited hreplaced ihbehind
          obtain ⟨hnodes'', hleft'', hvisited'', hreplaced''⟩ := ihbehind fun visited function hle hlt => by
            rw [List.length_append, List.length_reverse, List.length_cons] at hle hlt
            exact h visited function (by omega) (by omega)
          refine ⟨by rw [hnodes, hnodes', hnodes''], hleft.trans hleft'', ?_, ?_⟩
          · rw [hvisited, hvisited'', functionNodes_function]
          · rw [hreplaced, hreplaced', hreplaced'']
            rfl

/-- A walk over nodes in a row is one over the first and, from there, one over the others. -/
theorem walkFrom_append (limit : Nat) (seen front back : List Node) {left : Nat} {visited : List Node}
    (hleft : (walkFrom choose limit seen front).left = left)
    (hvisited : (walkFrom choose limit seen front).visited = visited) :
    let first := walkFrom choose limit seen front
    let second := walkFrom choose left (visited.reverse ++ seen) back
    let walk := walkFrom choose limit seen (front ++ back)
    walk.nodes = first.nodes ++ second.nodes ∧ walk.left = second.left ∧
      walk.visited = visited ++ second.visited ∧ walk.replaced = first.replaced ++ second.replaced := by
  induction limit, seen, front using walkFrom_induction choose generalizing left visited with
  | nil =>
      rw [walkFrom_nil] at hleft hvisited
      subst hleft hvisited
      simp
  | leaf limit seen n rest hn ih =>
      obtain ⟨hnodes, hl, hv, hreplaced⟩ :=
        walkFrom_leaf choose limit seen hn rest
      obtain ⟨hnodes', hl', hv', hreplaced'⟩ :=
        walkFrom_leaf choose limit seen hn (rest ++ back)
      obtain ⟨ihnodes, ihleft, ihvisited, ihreplaced⟩ := ih (hl.symm.trans hleft) (hv.symm.trans hvisited)
      refine ⟨?_, hl'.trans ihleft, hv'.trans ihvisited, ?_⟩
      · rw [List.cons_append, hnodes', ihnodes, hnodes, List.cons_append]
      · rw [List.cons_append, hreplaced', ihreplaced, hreplaced]
  | function limit seen name before nodes after rest _ children olds harrival ihinside ihbehind =>
      obtain ⟨hnodes, hl, hv, hreplaced⟩ := walkFrom_function harrival rest
      obtain ⟨hnodes', hl', hv', hreplaced'⟩ := walkFrom_function harrival (rest ++ back)
      obtain ⟨ihnodes, ihleft, ihvisited, ihreplaced⟩ := ihbehind (hl.symm.trans hleft) rfl
      have hseen := hv.symm.trans hvisited
      subst hseen
      simp only [List.reverse_cons, List.reverse_append, List.append_assoc, List.singleton_append]
      refine ⟨?_, hl'.trans ihleft, ?_, ?_⟩
      · rw [List.cons_append, hnodes', ihnodes, hnodes, List.cons_append]
      · rw [List.cons_append, hv', ihvisited]
        simp
      · rw [List.cons_append, hreplaced', ihreplaced, hreplaced]
        simp

/-- What a walk does that replaces one child of the function it arrives at behind `count` others. -/
def once (count index : Nat) (node : Node) (seen : List Node) (_ : Node) : List (Nat × Node) :=
  if seen.length = count then [(index, node)] else []

section Once

variable (count index : Nat) (node : Node) (limit : Nat) (seen : List Node)

theorem once_eq_nil {count : Nat} {seen : List Node} (h : seen.length ≠ count) (function : Node) :
    once count index node seen function = [] := if_neg h

/-- Such a walk changes nothing before the function whose child it replaces. -/
theorem walkFrom_once_before (nodes : List Node) (h : seen.length + (functionNodes nodes).length ≤ count) :
    let walk := walkFrom (once count index node) limit seen nodes
    walk.nodes = nodes ∧ walk.left = limit ∧ walk.visited = functionNodes nodes ∧ walk.replaced = [] :=
  walkFrom_quiet limit seen nodes fun _ function _ hlt => once_eq_nil index node (by omega) function

/-- Such a walk changes nothing behind the function whose child it replaced. -/
theorem walkFrom_once_behind (nodes : List Node) (h : count < seen.length) :
    let walk := walkFrom (once count index node) limit seen nodes
    walk.nodes = nodes ∧ walk.left = limit ∧ walk.visited = functionNodes nodes ∧ walk.replaced = [] :=
  walkFrom_quiet limit seen nodes fun _ function hle _ => once_eq_nil index node (by omega) function

/-- At the function it replaces the child and goes on into the children there are then. -/
theorem walkFrom_once_function (name before : Text) (nodes : List Node) (after : Text) (rest : List Node)
    (h : seen.length = count) :
    let walk :=
      walkFrom (once count index node) (limit + 1) seen (.function name before nodes after :: rest)
    walk.nodes = .function name before (nodes.set index node) after :: rest ∧ walk.left = limit ∧
      walk.visited = .function name before nodes after ::
        (functionNodes (nodes.set index node) ++ functionNodes rest) ∧
      walk.replaced = [nodes[index]?] := by
  have harrival : Arrival (once count index node) seen name before nodes after (limit + 1) limit
      (nodes.set index node) [nodes[index]?] :=
    .replace (index, node) [] (if_pos h)
  obtain ⟨hnodes, hleft, hvisited, hreplaced⟩ := walkFrom_function harrival rest
  obtain ⟨hnodes', hleft', hvisited', hreplaced'⟩ :=
    walkFrom_once_behind count index node limit (.function name before nodes after :: seen)
      (nodes.set index node) (Nat.lt_succ_of_le (Nat.le_of_eq h.symm))
  rw [hleft', hvisited'] at hnodes hleft hvisited hreplaced
  obtain ⟨hnodes'', hleft'', hvisited'', hreplaced''⟩ :=
    walkFrom_once_behind count index node limit ((functionNodes (nodes.set index node)).reverse ++
      .function name before nodes after :: seen) rest (by simp; omega)
  refine ⟨by rw [hnodes, hnodes', hnodes''], hleft.trans hleft'', by rw [hvisited, hvisited''], ?_⟩
  rw [hreplaced, hreplaced', hreplaced'']
  rfl

/-- Replacing a child of the function at a place changes the function at the place and nothing else. The
function is visited as it was, and then the functions inside it as they are now. -/
theorem walkFrom_once_fill (place : Place) (name before : Text) (nodes : List Node) (after : Text)
    (h : seen.length + place.passed = count) :
    let walk := walkFrom (once count index node) (limit + 1) seen
      (place.fill [.function name before nodes after])
    walk.nodes = place.fill [.function name before (nodes.set index node) after] ∧
      walk.left = limit ∧ walk.replaced = [nodes[index]?] ∧ ∃ earlier later,
        earlier.length = place.passed ∧
        (place.fill [.function name before nodes after]).functionNodes =
          earlier ++ .function name before nodes after :: (functionNodes nodes ++ later) ∧
        walk.visited = earlier ++ .function name before nodes after ::
          (functionNodes (nodes.set index node) ++ later) := by
  -- the walk keeps the nodes before the place and the functions around it, and those behind it
  induction place generalizing seen with
  | here front back =>
      rw [Place.passed] at h
      obtain ⟨hfront, hl, hv, hr⟩ :=
        walkFrom_once_before count index node (limit + 1) seen front (Nat.le_of_eq h)
      obtain ⟨hnodes, hleft, hvisited, hreplaced⟩ :=
        walkFrom_append (limit + 1) seen front (.function name before nodes after :: back) hl hv
      obtain ⟨hnodes', hleft', hvisited', hreplaced'⟩ := walkFrom_once_function count index node limit
        ((functionNodes front).reverse ++ seen) name before nodes after back
        (by rw [List.length_append, List.length_reverse]; omega)
      intro walk
      simp only [walk, Place.fill, List.singleton_append]
      refine ⟨?_, hleft.trans hleft', ?_, functionNodes front, functionNodes back, rfl, by simp, ?_⟩
      · rw [hnodes, hfront, hnodes']
      · rw [hreplaced, hr, hreplaced', List.nil_append]
      · rw [hvisited, hvisited']
  | inside front outer before' place after' back ih =>
      rw [Place.passed] at h
      obtain ⟨hfront, hl, hv, hr⟩ := walkFrom_once_before count index node (limit + 1) seen front (by omega)
      obtain ⟨hnodes, hleft, hvisited, hreplaced⟩ := walkFrom_append (limit + 1) seen front
        (.function outer before' (place.fill [.function name before nodes after]) after' :: back) hl hv
      have harrival : Arrival (once count index node) ((functionNodes front).reverse ++ seen) outer before'
          (place.fill [.function name before nodes after]) after' (limit + 1) (limit + 1) _ [] :=
        .keep (Or.inr (once_eq_nil index node
          (by rw [List.length_append, List.length_reverse]; omega) _))
      obtain ⟨hnodes', hleft', hvisited', hreplaced'⟩ := walkFrom_function harrival back
      obtain ⟨ihnodes, ihleft, ihreplaced, earlier, later, hlength, hold, hnew⟩ :=
        ih (.function outer before' (place.fill [.function name before nodes after]) after' ::
          ((functionNodes front).reverse ++ seen)) (by simp; omega)
      rw [ihleft] at hnodes' hleft' hvisited' hreplaced'
      obtain ⟨hnodes'', hleft'', hvisited'', hreplaced''⟩ :=
        walkFrom_once_behind count index node limit ((walkFrom (once count index node) (limit + 1)
          (.function outer before' (place.fill [.function name before nodes after]) after' ::
            ((functionNodes front).reverse ++ seen))
          (place.fill [.function name before nodes after])).visited.reverse ++
          .function outer before' (place.fill [.function name before nodes after]) after' ::
            ((functionNodes front).reverse ++ seen)) back (by rw [hnew]; simp; omega)
      intro walk
      simp only [walk, Place.fill]
      refine ⟨?_, hleft.trans (hleft'.trans hleft''), ?_,
        functionNodes front ++ .function outer before' (place.fill [.function name before nodes after])
          after' :: earlier, later ++ functionNodes back, ?_, ?_, ?_⟩
      · rw [hnodes, hfront, hnodes', ihnodes, hnodes'']
      · rw [hreplaced, hr, hreplaced', ihreplaced, hreplaced'']
        rfl
      · simp [Place.passed, hlength]
      · simp [hold]
      · rw [hvisited, hvisited', hvisited'', hnew]
        simp

end Once

/-! The text of a value. -/

/-- The text changes in one place after the other, each time from the text of the node that is replaced to
that of another one. -/
inductive Edited : Text → List (Option Node) → Text → Prop where
  | done (text : Text) : Edited text [] text
  | missed {text text' : Text} {olds : List (Option Node)} (later : Edited text olds text') :
      Edited text (none :: olds) text'
  | replaced {front back text' : Text} {old new : Node} {olds : List (Option Node)}
      (later : Edited (front ++ (new.render ++ back)) olds text') :
      Edited (front ++ (old.render ++ back)) (some old :: olds) text'

theorem Edited.trans {text text' text'' : Text} {olds others : List (Option Node)}
    (h : Edited text olds text') (h' : Edited text' others text'') :
    Edited text (olds ++ others) text'' := by
  induction h with
  | done => exact h'
  | missed _ ih => exact .missed (ih h')
  | replaced _ ih => exact .replaced (ih h')

theorem edited_substitute (place : Place) (name before after : Text) (changes : List (Nat × Node))
    (nodes : List Node) :
    Edited (place.fill [.function name before nodes after]).render (substitute changes nodes).2
      (place.fill [.function name before (substitute changes nodes).1 after]).render := by
  induction changes generalizing nodes with
  | nil => exact .done _
  | cons change changes ih =>
      obtain ⟨index, node⟩ := change
      have hothers := ih (nodes.set index node)
      rw [substitute]
      cases hold : nodes[index]? with
      | none =>
          rw [List.set_eq_of_length_le (List.getElem?_eq_none_iff.mp hold)] at hothers ⊢
          exact .missed hothers
      | some old =>
          obtain ⟨child, hbefore, hafter⟩ := place.exists_child name before after hold
          rw [hafter, Place.render_fill, render_cons, render_nil, List.append_nil] at hothers
          rw [hbefore, Place.render_fill, render_cons, render_nil, List.append_nil]
          exact .replaced hothers

theorem edited_of_visits {tour tour' : Tour} {olds : List (Option Node)}
    (h : Visits choose tour olds tour') : Edited tour.value.render olds tour'.value.render := by
  induction h with
  | done tour => exact .done _
  | next passed arrival _ ih =>
      cases arrival with
      | keep => exact ih
      | replace => exact (edited_substitute _ _ _ _ _ _).trans ih

theorem functions_eq_functionNodes (value : Value) : value.functions = value.functionNodes := by
  refine (walkFrom_quiet 0 [] value fun _ function _ _ => ?_).2.2.1
  cases function <;> rfl

/-- The functions before the place and those behind it do not depend on the child that is put there. -/
theorem exists_visited_once (place : Place) (name before : Text) (nodes : List Node) (after : Text) :
    ∃ earlier later, (place.fill [.function name before nodes after]).functionNodes =
        earlier ++ .function name before nodes after :: (functionNodes nodes ++ later) ∧
      ∀ index node limit, (walkFrom (once place.passed index node) (limit + 1) []
        (place.fill [.function name before nodes after])).visited =
          earlier ++ .function name before nodes after ::
            (functionNodes (nodes.set index node) ++ later) := by
  obtain ⟨earlier, later, hlength, hfunctions⟩ :=
    place.exists_functionNodes [.function name before nodes after]
  rw [functionNodes_function, functionNodes_nil, List.append_nil, List.cons_append] at hfunctions
  refine ⟨earlier, later, hfunctions, fun index node limit => ?_⟩
  obtain ⟨-, -, -, earlier', later', hlength', hold, hvisited⟩ :=
    walkFrom_once_fill place.passed index node limit [] place name before nodes after (Nat.zero_add _)
  obtain ⟨rfl, htail⟩ := List.append_inj (hfunctions.symm.trans hold) (hlength.trans hlength'.symm)
  rw [List.cons.injEq, List.append_cancel_left_eq] at htail
  rw [hvisited, htail.2]

/-- Substitution is local. A walk that replaces nothing leaves the value as it is and visits its functions
in order. One that replaces a child of one function, which can stand at any place, changes the text of that
child and no other, and goes on into the new child. Whatever a walk replaces, it arrives at one function
after the other of the value as it is by then, and changes the text of one child after the other. -/
theorem walkFrom_substitution (value : Value) :
    (∀ choose limit, (∀ seen function, choose seen function = []) →
      let walk := walkFrom choose limit [] value
      walk.nodes = value ∧ walk.visited = value.preorder.filter Node.isFunction ∧ walk.replaced = []) ∧
    (∀ name, value.containsFunction name ↔ ∃ function ∈ value.functions, function.isNamed name) ∧
    (∀ n, n ∈ value.preorder ↔ ∃ place : Place, value = place.fill [n]) ∧
    (∀ (place : Place) name before nodes after,
      value = place.fill [.function name before nodes after] →
      (∃ earlier later, value.preorder.filter Node.isFunction =
          earlier ++ .function name before nodes after :: (functionNodes nodes ++ later) ∧
        ∀ index node limit, let walk := walkFrom (once place.passed index node) (limit + 1) [] value
          walk.nodes = place.fill [.function name before (nodes.set index node) after] ∧
          walk.replaced = [nodes[index]?] ∧
          walk.visited = earlier ++ .function name before nodes after ::
            (functionNodes (nodes.set index node) ++ later)) ∧
      (∀ index, nodes[index]? = none →
        ∀ node, place.fill [.function name before (nodes.set index node) after] = value) ∧
      ∀ index old, nodes[index]? = some old → ∃ front back,
        value.render = front ++ (old.render ++ back) ∧
        ∀ node, (place.fill [.function name before (nodes.set index node) after]).render =
          front ++ (node.render ++ back)) ∧
    ∀ choose limit, let walk := walkFrom choose limit [] value
      Visits choose ⟨limit, [], value⟩ walk.replaced ⟨walk.left, walk.visited.reverse, walk.nodes⟩ ∧
      walk.visited.length = (functionNodes walk.nodes).length ∧
      Edited value.render walk.replaced (render walk.nodes) := by
  refine ⟨fun choose limit hquiet => ?quiet, fun name => ?contains, fun n => mem_preorder_iff,
    fun place name before nodes after hvalue => ⟨?once, fun index hold node => ?missed,
      fun index old hold => ?text⟩, fun choose limit => ?run⟩
  case quiet =>
    obtain ⟨hnodes, -, hvisited, hreplaced⟩ :=
      walkFrom_quiet limit [] value fun seen function _ _ => hquiet seen function
    exact ⟨hnodes, hvisited, hreplaced⟩
  case contains =>
    rw [functions_eq_functionNodes, containsFunction, List.any_eq_true, functionNodes]
    constructor
    · rintro ⟨n, hn, hname⟩
      refine ⟨n, List.mem_filter.mpr ⟨hn, ?_⟩, hname⟩
      cases n with
      | function => rfl
      | _ => cases hname
    · rintro ⟨n, hn, hname⟩
      exact ⟨n, (List.mem_filter.mp hn).1, hname⟩
  case once =>
    subst hvalue
    obtain ⟨earlier, later, hfunctions, hvisited⟩ := exists_visited_once place name before nodes after
    refine ⟨earlier, later, hfunctions, fun index node limit => ?_⟩
    obtain ⟨hnodes, -, hreplaced, -⟩ :=
      walkFrom_once_fill place.passed index node limit [] place name before nodes after (Nat.zero_add _)
    exact ⟨hnodes, hreplaced, hvisited index node limit⟩
  case missed =>
    rw [hvalue, List.set_eq_of_length_le (List.getElem?_eq_none_iff.mp hold)]
  case text =>
    subst hvalue
    obtain ⟨child, hbefore, hafter⟩ := place.exists_child name before after hold
    refine ⟨child.front, child.back, ?_, fun node => ?_⟩
    · rw [hbefore, Place.render_fill, render_cons, render_nil, List.append_nil]
    · rw [hafter, Place.render_fill, render_cons, render_nil, List.append_nil]
  case run =>
    have hvisits := visits_walkFrom choose limit [] value (.here [] []) rfl
    simp only [Place.fill, List.nil_append, List.append_nil] at hvisits
    exact ⟨hvisits, length_visited_walkFrom choose limit [] value, edited_of_visits hvisits⟩

end Value

end FluidSizing
