import FluidSizing.Fluid.Line
import FluidSizing.Fluid.Settings
import FluidSizing.Length
import FluidSizing.Number
import FluidSizing.Value.Node

/-! What is to be done with one `clamp` function, and what is reported about its fluid call. It has to have
three arguments, of which the first that is a call of `@fluid` decides: its words have to be no, two or
three canonical numbers, and the first and the last argument of the `clamp` fixed lengths. Then the call
is replaced by the size between them. -/

namespace FluidSizing

/-- A problem of one fluid call. With wrong arguments the call stays; with equal widths it is replaced by
a fixed size. -/
inductive Diagnostic where
  | invalidArguments
  | wrongArgumentCount (received : Nat)
  | equalWidths (minWidth maxWidth size : Binary64)
  deriving DecidableEq

namespace Diagnostic

def message : Diagnostic → Text
  | invalidArguments => "@fluid function contains invalid numerical arguments.".toList
  | wrongArgumentCount received =>
    "@fluid function requires either 0, 2, or 3 numerical arguments, but received ".toList ++
      Text.ofNat received ++ ['.']
  | equalWidths minWidth maxWidth size =>
    "minScreen (".toList ++ formatNumber minWidth ++ "px) and maxScreen (".toList ++
      formatNumber maxWidth ++ "px) are equal. Using minSize (".toList ++ formatNumber size ++
      "px).".toList

end Diagnostic

/-- The name of the functions whose middle argument may be fluid. -/
def clampName : Text := ['c', 'l', 'a', 'm', 'p']

/-- The name of the calls that are replaced. -/
def fluidName : Text := ['@', 'f', 'l', 'u', 'i', 'd']

/-- What is to be done with a `clamp` function: nothing since it has another number of arguments, no
fluid call, a call with wrong arguments or a bound that is no fixed length, or the replacement of the
child at a place by a size. Faulty texts are kept with what is wrong with them. -/
inductive ClampOutcome where
  | otherShape (arguments : Nat)
  | noCall
  | rejected (faults : List (Text × NumberError)) (diagnostic : Diagnostic)
  | unsized (faults : List (Text × LengthError))
  | rewritten (place : Nat) (size : FluidSize) (diagnostic : Option Diagnostic)
  deriving DecidableEq

namespace FluidCall

/-- The words of a call that are no canonical numbers. -/
def faults (words : List Text) : List (Text × NumberError) :=
  words.filterMap fun word =>
    match Number.read word with
    | .ok _ => none
    | .error error => some (word, error)

def numbers (words : List Text) : List Binary64 :=
  words.filterMap fun word => (Number.read word).toOption

/-- The numbers of a call, all words of which have to be numbers: none, two or three. -/
def arguments (words : List Text) : Except Diagnostic (List Binary64) :=
  if !(faults words).isEmpty then .error .invalidArguments
  else
    let arguments := numbers words
    if arguments.length = 0 || arguments.length = 2 || arguments.length = 3 then .ok arguments
    else .error (.wrongArgumentCount arguments.length)

/-- The range of a call: what it names, and the settings for the rest. -/
def range (settings : Settings) (arguments : List Binary64) : FluidRange :=
  match arguments with
  | [minWidth, maxWidth] => ⟨minWidth, maxWidth, settings.baseFontSize⟩
  | [minWidth, maxWidth, baseFontSize] => ⟨minWidth, maxWidth, baseFontSize⟩
  | _ => ⟨settings.minWidth, settings.maxWidth, settings.baseFontSize⟩

/-- The size between two bounds, and what there is to report: equal widths leave the base size. -/
def size (minSize maxSize : Binary64) (range : FluidRange) : FluidSize × Option Diagnostic :=
  match Line.between minSize maxSize range with
  | some line => (.growing line, none)
  | none =>
    (.fixed range.baseFontSize,
      some (.equalWidths range.minWidth range.maxWidth range.baseFontSize))

end FluidCall

namespace Clamp

/-- The first of some places with a fluid call, and the words of the call. -/
def call? (nodes : List Node) (places : List Nat) : Option (Nat × List Text) :=
  places.findSome? fun (place : Nat) =>
    match nodes[place]? with
    | some (.function name _ inside _) =>
      if name = fluidName then some (place, Value.words inside) else none
    | _ => none

/-- A bound: the pixels of the length at a place, or what is wrong with the word there, if it is one. -/
def bound (nodes : List Node) (place : Nat) : Except (List (Text × LengthError)) Binary64 :=
  match nodes[place]?.bind Node.word? with
  | none => .error []
  | some word =>
    match Length.read word with
    | .ok length => .ok length.pixels
    | .error error => .error [(word, error)]

def boundFaults : Except (List (Text × LengthError)) Binary64 → List (Text × LengthError)
  | .ok _ => []
  | .error faults => faults

def outcome (settings : Settings) (nodes : List Node) : ClampOutcome :=
  match Value.argumentIndices nodes with
  | [first, middle, last] =>
    match call? nodes [first, middle, last] with
    | none => .noCall
    | some (place, words) =>
      match FluidCall.arguments words with
      | .error diagnostic => .rejected (FluidCall.faults words) diagnostic
      | .ok arguments =>
        match bound nodes first, bound nodes last with
        | .ok minSize, .ok maxSize =>
          let (size, diagnostic) :=
            FluidCall.size minSize maxSize (FluidCall.range settings arguments)
          .rewritten place size diagnostic
        | low, high => .unsized (boundFaults low ++ boundFaults high)
  | places => .otherShape places.length

end Clamp

namespace ClampOutcome

def isRewrite : ClampOutcome → Bool
  | rewritten .. => true
  | _ => false

def diagnostic? : ClampOutcome → Option Diagnostic
  | rejected _ diagnostic => some diagnostic
  | rewritten _ _ diagnostic => diagnostic
  | _ => none

end ClampOutcome

end FluidSizing
