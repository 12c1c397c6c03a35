import FluidSizing.Fluid.Resolution
import FluidSizing.Proofs.Fluid.Words
import Mathlib.Data.List.Forall2

/-! What decides about a `clamp` function. `outcome_eq_rewritten` says what a replaced call stands
between: two fixed lengths and separators, nothing else. `report_outcome_congr` says that what is
reported depends on the children only through which of them are separators, the lengths they read as and
the arguments of the fluid calls among them. `resolve_function` says all that resolving does to one
function. -/

namespace FluidSizing

namespace Value

theorem arguments_append (xs ys : List Node) :
    arguments (xs ++ ys) = arguments xs ++ arguments ys := List.filter_append ..

theorem arguments_cons_function (name before : Text) (inside : List Node) (after : Text)
    (ys : List Node) :
    arguments (.function name before inside after :: ys) =
      .function name before inside after :: arguments ys := rfl

theorem arguments_eq_map (nodes : List Node) :
    arguments nodes = (nodes.zipIdx.filter fun pair => !pair.1.isDivider).map Prod.fst := by
  have hnodes : nodes.zipIdx.map Prod.fst = nodes := List.zipIdx_map_fst 0 nodes
  conv_lhs => rw [arguments, ← hnodes, List.filter_map]
  rfl

theorem length_argumentIndices (nodes : List Node) :
    (argumentIndices nodes).length = (arguments nodes).length := by
  rw [arguments_eq_map, argumentIndices, List.length_map, List.length_map]

/-- The places of three arguments are where they are. -/
theorem arguments_of_argumentIndices {nodes : List Node} {first middle last : Nat}
    (h : argumentIndices nodes = [first, middle, last]) :
    ∃ x y z, arguments nodes = [x, y, z] ∧ nodes[first]? = some x ∧ nodes[middle]? = some y ∧
      nodes[last]? = some z := by
  have hplace : ∀ pair ∈ nodes.zipIdx.filter fun pair => !pair.1.isDivider,
      nodes[pair.2]? = some pair.1 := fun pair hpair =>
    List.mem_zipIdx_iff_getElem?.mp (List.mem_filter.mp hpair).1
  have hplaces : (nodes.zipIdx.filter fun pair => !pair.1.isDivider).map Prod.snd =
      [first, middle, last] := h
  rw [arguments_eq_map]
  generalize nodes.zipIdx.filter (fun pair => !pair.1.isDivider) = pairs at hplaces hplace
  obtain ⟨⟨x, i⟩, pairs, rfl, rfl, hbehind⟩ := List.map_eq_cons_iff.mp hplaces
  obtain ⟨⟨y, j⟩, pairs, rfl, rfl, hlast⟩ := List.map_eq_cons_iff.mp hbehind
  obtain ⟨⟨z, k⟩, pairs, rfl, rfl, hend⟩ := List.map_eq_cons_iff.mp hlast
  obtain rfl := List.map_eq_nil_iff.mp hend
  exact ⟨x, y, z, rfl, hplace (x, i) (by simp), hplace (y, j) (by simp), hplace (z, k) (by simp)⟩

end Value

namespace Clamp

theorem exists_word_of_bound {nodes : List Node} {place : Nat} {pixels : Binary64}
    (h : bound nodes place = .ok pixels) :
    ∃ word length, nodes[place]? = some (.word word) ∧ Length.read word = .ok length ∧
      length.pixels = pixels := by
  unfold bound at h
  split at h
  · cases h
  · rename_i word hword
    split at h
    · rename_i length hread
      obtain ⟨n, hn, hnword⟩ := Option.bind_eq_some_iff.mp hword
      refine ⟨word, length, ?_, hread, Except.ok.inj h⟩
      cases n with
      | word text =>
          rw [hn]
          cases hnword
          rfl
      | _ => cases hnword
    · cases h

theorem exists_function_of_call? {nodes : List Node} {places : List Nat} {place : Nat}
    {words : List Text} (h : call? nodes places = some (place, words)) :
    ∃ before inside after, nodes[place]? = some (.function fluidName before inside after) ∧
      words = Value.words inside := by
  obtain ⟨p, -, hp⟩ := List.exists_of_findSome?_eq_some h
  split at hp
  · rename_i name before inside after hnode
    split at hp
    · rename_i hname
      obtain ⟨rfl, rfl⟩ := Prod.mk.inj (Option.some.inj hp)
      rw [hname] at hnode
      exact ⟨before, inside, after, hnode, rfl⟩
    · cases hp
  · cases hp

theorem eq_singletons_of_append_cons_eq {xs ys : List Node} {n x y z : Node}
    (h : xs ++ n :: ys = [x, y, z]) (hx : n ≠ x) (hz : n ≠ z) : xs = [x] ∧ ys = [z] := by
  match xs, h with
  | [], h => exact absurd (List.cons.inj h).1 hx
  | [w], h =>
      obtain ⟨rfl, hrest⟩ := List.cons.inj h
      exact ⟨rfl, (List.cons.inj hrest).2⟩
  | [v, w], h =>
      simp only [List.cons_append, List.nil_append, List.cons.injEq] at h
      exact absurd h.2.2.1 hz
  | u :: v :: w :: more, h =>
      have hlen := congrArg List.length h
      simp only [List.length_append, List.length_cons, List.length_nil] at hlen
      omega

/-- A replaced call is the second of three arguments, of which the others are fixed lengths, and its
words are numbers. -/
theorem outcome_eq_rewritten {settings : Settings} {nodes : List Node} {place : Nat}
    {size : FluidSize} {diagnostic : Option Diagnostic}
    (h : outcome settings nodes = .rewritten place size diagnostic) :
    ∃ (front back inside : List Node) (before after low high : Text) (lowLength highLength : Length)
      (arguments : List Binary64),
      nodes = front ++ .function fluidName before inside after :: back ∧ place = front.length ∧
      Value.arguments front = [.word low] ∧ Value.arguments back = [.word high] ∧
      Length.read low = .ok lowLength ∧ Length.read high = .ok highLength ∧
      FluidCall.arguments (Value.words inside) = .ok arguments ∧
      FluidCall.size lowLength.pixels highLength.pixels (FluidCall.range settings arguments) =
        (size, diagnostic) := by
  unfold outcome at h
  split at h
  · rename_i first middle last hindices
    split at h
    · cases h
    · rename_i place' words hcall
      split at h
      · cases h
      · rename_i numbers hnumbers
        split at h
        · rename_i lowPixels highPixels hlow hhigh
          dsimp only at h
          obtain ⟨rfl, rfl, rfl⟩ := ClampOutcome.rewritten.inj h
          obtain ⟨low, lowLength, hfirst, hlowread, rfl⟩ := exists_word_of_bound hlow
          obtain ⟨high, highLength, hlast, hhighread, rfl⟩ := exists_word_of_bound hhigh
          obtain ⟨before, inside, after, hplace, rfl⟩ := exists_function_of_call? hcall
          obtain ⟨x, y, z, harguments, hx, hy, hz⟩ := Value.arguments_of_argumentIndices hindices
          obtain rfl : x = .word low := by rw [hfirst] at hx; exact (Option.some.inj hx).symm
          obtain rfl : z = .word high := by rw [hlast] at hz; exact (Option.some.inj hz).symm
          obtain ⟨hlt, hget⟩ := List.getElem?_eq_some_iff.mp hplace
          have hsplit : nodes = nodes.take place' ++
              .function fluidName before inside after :: nodes.drop (place' + 1) := by
            rw [← hget, ← List.drop_eq_getElem_cons hlt, List.take_append_drop]
          rw [hsplit, Value.arguments_append, Value.arguments_cons_function] at harguments
          obtain ⟨hfront, hback⟩ := eq_singletons_of_append_cons_eq harguments nofun nofun
          have hlen : place' = (nodes.take place').length :=
            (List.length_take_of_le (Nat.le_of_lt hlt)).symm
          exact ⟨nodes.take place', nodes.drop (place' + 1), inside, before, after, low, high,
            lowLength, highLength, numbers, hsplit, hlen, hfront, hback, hlowread, hhighread,
            hnumbers, rfl⟩
        · cases h
  · cases h

theorem place_lt_of_outcome {settings : Settings} {nodes : List Node} {place : Nat} {size : FluidSize}
    {diagnostic : Option Diagnostic} (h : outcome settings nodes = .rewritten place size diagnostic) :
    place < nodes.length := by
  obtain ⟨front, back, -, -, -, -, -, -, -, -, rfl, rfl, -⟩ := outcome_eq_rewritten h
  simp

/-- Without a fluid call nothing is replaced or reported. -/
theorem outcome_of_no_call {settings : Settings} {nodes : List Node}
    (h : ∀ n ∈ nodes, n.isNamed fluidName = false) :
    (outcome settings nodes).isRewrite = false ∧ (outcome settings nodes).diagnostic? = none := by
  have hcall : ∀ places, call? nodes places = none := by
    intro places
    by_contra hsome
    obtain ⟨⟨place, words⟩, hsome⟩ := Option.ne_none_iff_exists'.mp hsome
    obtain ⟨before, inside, after, hget, -⟩ := exists_function_of_call? hsome
    have hnamed := h _ (List.mem_of_getElem? hget)
    simp [Node.isNamed] at hnamed
  unfold outcome
  split
  · rw [hcall]
    exact ⟨rfl, rfl⟩
  · exact ⟨rfl, rfl⟩

end Clamp

namespace ClampOutcome

/-- What is seen of an outcome: whether the call is replaced, and what is reported. -/
def report (outcome : ClampOutcome) : Bool × Option Diagnostic :=
  (outcome.isRewrite, outcome.diagnostic?)

variable {outcomes outcomes' : List ClampOutcome}

theorem any_isRewrite_congr (h : outcomes.map report = outcomes'.map report) :
    outcomes.any isRewrite = outcomes'.any isRewrite := by
  have hreport : ∀ list : List ClampOutcome, list.any isRewrite = (list.map report).any Prod.fst := by
    intro list
    rw [List.any_map]
    rfl
  rw [hreport, hreport, h]

theorem filterMap_diagnostic?_congr (h : outcomes.map report = outcomes'.map report) :
    outcomes.filterMap diagnostic? = outcomes'.filterMap diagnostic? := by
  have hreport : ∀ list : List ClampOutcome,
      list.filterMap diagnostic? = (list.map report).filterMap Prod.snd := by
    intro list
    rw [List.filterMap_map]
    rfl
  rw [hreport, hreport, h]

end ClampOutcome

namespace Node

def length? (n : Node) : Option Length := n.word?.bind fun word => (Length.read word).toOption

def callArguments? : Node → Option (Except Diagnostic (List Binary64))
  | function name _ inside _ =>
      if name = fluidName then some (FluidCall.arguments (Value.words inside)) else none
  | _ => none

/-- Nodes that are the same to a `clamp` function around them. -/
structure Alike (n m : Node) : Prop where
  isDivider_eq : n.isDivider = m.isDivider
  length?_eq : n.length? = m.length?
  callArguments?_eq : n.callArguments? = m.callArguments?

theorem Alike.refl (n : Node) : n.Alike n := ⟨rfl, rfl, rfl⟩

end Node

namespace Clamp

variable {nodes nodes' : List Node}

theorem argumentIndices_congr (h : List.Forall₂ Node.Alike nodes nodes') :
    Value.argumentIndices nodes = Value.argumentIndices nodes' := by
  unfold Value.argumentIndices
  generalize 0 = offset
  induction h generalizing offset with
  | nil => rfl
  | cons hn _ ih =>
      simp only [List.zipIdx_cons, List.filter_cons, hn.isDivider_eq]
      split <;> simp [ih]

theorem call?_eq (nodes : List Node) (places : List Nat) :
    (call? nodes places).map (fun (place, words) => (place, FluidCall.arguments words)) =
      places.findSome? fun place =>
        (nodes[place]?.bind Node.callArguments?).map fun arguments => (place, arguments) := by
  unfold call?
  rw [List.map_findSome?]
  congr 1
  funext place
  cases hn : nodes[place]? with
  | none => simp [hn]
  | some n =>
      cases n with
      | function name before inside after =>
          by_cases hname : name = fluidName <;> simp [hn, Node.callArguments?, hname]
      | _ => simp [hn, Node.callArguments?]

theorem toOption_bound (nodes : List Node) (place : Nat) :
    (bound nodes place).toOption = (nodes[place]?.bind Node.length?).map Length.pixels := by
  unfold bound
  cases hn : nodes[place]? with
  | none => rfl
  | some n =>
      cases hword : n.word? with
      | none => simp [hword, Node.length?, Except.toOption]
      | some word =>
          cases hread : Length.read word <;>
            simp [hword, hread, Node.length?, Except.toOption]

theorem bind_getElem?_congr {α : Type} {f : Node → Option α}
    (hf : ∀ n m : Node, n.Alike m → f n = f m) (h : List.Forall₂ Node.Alike nodes nodes')
    (place : Nat) : nodes[place]?.bind f = nodes'[place]?.bind f := by
  induction h generalizing place with
  | nil => rfl
  | cons hn _ ih =>
      cases place with
      | zero => exact hf _ _ hn
      | succ place => exact ih place

/-- What is reported about a `clamp` function is the same for children that are alike. -/
theorem report_outcome_congr (settings : Settings) (h : List.Forall₂ Node.Alike nodes nodes') :
    (outcome settings nodes).report = (outcome settings nodes').report := by
  have hcall : ∀ places,
      (call? nodes places).map (fun (place, words) => (place, FluidCall.arguments words)) =
        (call? nodes' places).map fun (place, words) => (place, FluidCall.arguments words) := by
    intro places
    rw [call?_eq, call?_eq]
    congr 1
    funext place
    rw [bind_getElem?_congr (fun _ _ hnm => hnm.callArguments?_eq) h]
  have hbound : ∀ place, (bound nodes place).toOption = (bound nodes' place).toOption := by
    intro place
    rw [toOption_bound, toOption_bound, bind_getElem?_congr (fun _ _ hnm => hnm.length?_eq) h]
  unfold outcome
  rw [argumentIndices_congr h]
  split
  · rename_i first middle last _
    have hsame := hcall [first, middle, last]
    cases hc : call? nodes [first, middle, last] with
    | none =>
        cases hc' : call? nodes' [first, middle, last] with
        | none => rfl
        | some found => rw [hc, hc'] at hsame; cases hsame
    | some found =>
        cases hc' : call? nodes' [first, middle, last] with
        | none => rw [hc, hc'] at hsame; cases hsame
        | some found' =>
            obtain ⟨place, words⟩ := found
            obtain ⟨place', words'⟩ := found'
            rw [hc, hc'] at hsame
            obtain ⟨rfl, harguments⟩ := Prod.mk.inj (Option.some.inj hsame)
            dsimp only
            rw [← harguments]
            have hlow := hbound first
            have hhigh := hbound last
            cases FluidCall.arguments words with
            | error diagnostic => rfl
            | ok numbers =>
                generalize bound nodes first = low, bound nodes' first = low' at hlow
                generalize bound nodes last = high, bound nodes' last = high' at hhigh
                cases low <;> cases low' <;> cases hlow <;>
                  cases high <;> cases high' <;> cases hhigh <;> rfl
  · rfl

end Clamp

theorem Node.resolve_of_not_isFunction {settings : Settings} {n : Node} (hn : n.isFunction = false) :
    n.resolve settings = n := by
  cases n with
  | function => cases hn
  | _ => simp [Node.resolve]

theorem Node.outcomes_of_not_isFunction {settings : Settings} {n : Node} (hn : n.isFunction = false) :
    n.outcomes settings = [] := by
  cases n with
  | function => cases hn
  | _ => simp [Node.outcomes]

/-- The outcome for a function itself, if it is a `clamp` function. -/
def Node.ownOutcomes (settings : Settings) (name : Text) (nodes : List Node) : List ClampOutcome :=
  if name = clampName then [Clamp.outcome settings nodes] else []

theorem Node.report_ownOutcomes_congr (settings : Settings) (name : Text)
    {nodes nodes' : List Node} (h : List.Forall₂ Node.Alike nodes nodes') :
    (ownOutcomes settings name nodes).map ClampOutcome.report =
      (ownOutcomes settings name nodes').map ClampOutcome.report := by
  unfold ownOutcomes
  split
  · rw [List.map_singleton, List.map_singleton, Clamp.report_outcome_congr settings h]
  · rfl

/-- A function is a `clamp` function whose call is replaced, or it is kept and its children are
resolved. -/
theorem Node.resolve_function (settings : Settings) (name before : Text) (nodes : List Node)
    (after : Text) :
    (∃ place size diagnostic, name = clampName ∧
      Clamp.outcome settings nodes = .rewritten place size diagnostic ∧
      Node.resolve settings (.function name before nodes after) =
        .function name before (nodes.set place (.word size.render)) after ∧
      Node.outcomes settings (.function name before nodes after) =
        [.rewritten place size diagnostic]) ∨
    ((ownOutcomes settings name nodes).any ClampOutcome.isRewrite = false ∧
      Node.resolve settings (.function name before nodes after) =
        .function name before (Value.resolve settings nodes) after ∧
      Node.outcomes settings (.function name before nodes after) =
        ownOutcomes settings name nodes ++ Value.outcomes settings nodes) := by
  by_cases hname : name = clampName
  · cases hout : Clamp.outcome settings nodes with
    | rewritten place size diagnostic =>
        left
        refine ⟨place, size, diagnostic, hname, rfl, ?_, ?_⟩
        · simp [Node.resolve, hname, hout]
        · simp [Node.outcomes, hname, hout, ClampOutcome.isRewrite]
    | _ =>
        right
        simp [Node.resolve, Node.outcomes, ownOutcomes, hname, hout, ClampOutcome.isRewrite]
  · right
    simp [Node.resolve, Node.outcomes, ownOutcomes, hname]

/-- A function is kept if its call is not replaced. -/
theorem Node.resolve_kept {settings : Settings} {name : Text} {nodes : List Node}
    (own : (ownOutcomes settings name nodes).any ClampOutcome.isRewrite = false)
    (before after : Text) :
    Node.resolve settings (.function name before nodes after) =
        .function name before (Value.resolve settings nodes) after ∧
      Node.outcomes settings (.function name before nodes after) =
        ownOutcomes settings name nodes ++ Value.outcomes settings nodes := by
  rcases resolve_function settings name before nodes after with
    ⟨place, size, diagnostic, rfl, hout, -⟩ | ⟨-, hkept⟩
  · rw [ownOutcomes, if_pos rfl, hout] at own
    cases own
  · exact hkept

/-- What is decided about a function and inside of it: nothing inside of it if its call is replaced. -/
theorem Node.outcomes_function (settings : Settings) (name before : Text) (nodes : List Node)
    (after : Text) :
    Node.outcomes settings (.function name before nodes after) =
      ownOutcomes settings name nodes ++
        if (ownOutcomes settings name nodes).any ClampOutcome.isRewrite then []
        else Value.outcomes settings nodes := by
  rcases resolve_function settings name before nodes after with
    ⟨place, size, diagnostic, rfl, hout, -, houtcomes⟩ | ⟨own, -, houtcomes⟩
  · rw [houtcomes, ownOutcomes, if_pos rfl, hout]
    rfl
  · rw [houtcomes, own]
    rfl

theorem resolve_value (settings : Settings) (text : Text) :
    (resolve settings text).value =
      if ((Value.ofText text).outcomes settings).any ClampOutcome.isRewrite then
        some ((Value.ofText text).resolve settings).render
      else none := rfl

theorem Value.outcomes_append (settings : Settings) (v w : Value) :
    outcomes settings (v ++ w) = outcomes settings v ++ outcomes settings w := by
  induction v with
  | nil => simp [outcomes]
  | cons n v ih => simp [outcomes, ih]

end FluidSizing
