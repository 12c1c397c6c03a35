import FluidSizing.Fluid.Clamp
import FluidSizing.Text.Quoted
import FluidSizing.Value.Read

/-! Resolving the fluid calls of a value. The outcomes for all its `clamp` functions are collected, a
function before those inside it, and the calls are replaced in the tree; inside of a replaced call
nothing is looked at. A value without a replacement keeps its text. -/

namespace FluidSizing

mutual

def Node.outcomes (settings : Settings) : Node → List ClampOutcome
  | .function name _ nodes _ =>
    if name = clampName then
      let outcome := Clamp.outcome settings nodes
      if outcome.isRewrite then [outcome] else outcome :: Value.outcomes settings nodes
    else Value.outcomes settings nodes
  | _ => []

/-- The outcomes for the `clamp` functions of a value, in order. -/
def Value.outcomes (settings : Settings) : Value → List ClampOutcome
  | [] => []
  | node :: rest => Node.outcomes settings node ++ Value.outcomes settings rest

end

mutual

def Node.resolve (settings : Settings) : Node → Node
  | .function name before nodes after =>
    if name = clampName then
      match Clamp.outcome settings nodes with
      | .rewritten place size _ => .function name before (nodes.set place (.word size.render)) after
      | _ => .function name before (Value.resolve settings nodes) after
    else .function name before (Value.resolve settings nodes) after
  | node => node

def Value.resolve (settings : Settings) : Value → Value
  | [] => []
  | node :: rest => Node.resolve settings node :: Value.resolve settings rest

end

/-- What becomes of a value: its new text, if a call is replaced, and the diagnostics to report. -/
structure Resolution where
  value : Option Text
  diagnostics : List Diagnostic
  deriving DecidableEq

namespace Resolution

def unchanged : Resolution := ⟨none, []⟩

def isChanged (resolution : Resolution) : Bool := resolution.value.isSome

/-- The new text, or the one given where nothing is replaced. -/
def valueOr (resolution : Resolution) (text : Text) : Text := resolution.value.getD text

end Resolution

/-- The resolution of the value that a text spells. -/
def resolve (settings : Settings) (text : Text) : Resolution :=
  let value := Value.ofText text
  let outcomes := value.outcomes settings
  ⟨if outcomes.any ClampOutcome.isRewrite then some (value.resolve settings).render else none,
    if settings.warnings then outcomes.filterMap ClampOutcome.diagnostic? else []⟩

inductive LogLevel where
  | trace
  | debug
  | warn
  deriving DecidableEq, Repr

structure LogEntry where
  level : LogLevel
  message : Text
  deriving DecidableEq, Repr

namespace NumberError

def name : NumberError → Text
  | empty => "UnexpectedToken".toList
  | notCanonical => "NonCanonical".toList

end NumberError

namespace LengthError

def name : LengthError → Text
  | notALength => "UnexpectedToken".toList
  | unsupportedUnit => "UnsupportedUnit".toList

end LengthError

namespace ClampOutcome

/-- The messages about a `clamp` function of the value that `text` spells. -/
def log (text : Text) (outcome : ClampOutcome) : List LogEntry :=
  let reported (diagnostic : Diagnostic) : LogEntry :=
    ⟨.debug, Text.quoted text ++ ": ".toList ++ diagnostic.message⟩
  match outcome with
  | otherShape arguments =>
    [⟨.trace, "clamp() with ".toList ++ Text.ofNat arguments ++ " arguments skipped".toList⟩]
  | noCall => []
  | rejected faults diagnostic =>
    faults.map (fun (word, error) =>
      ⟨.trace, "@fluid argument ".toList ++ Text.quoted word ++ " rejected: ".toList ++ error.name⟩) ++
      [reported diagnostic]
  | unsized faults =>
    faults.map fun (word, error) =>
      ⟨.trace, "clamp() bound ".toList ++ Text.quoted word ++ " is not a fixed size: ".toList ++
        error.name⟩
  | rewritten _ _ diagnostic => (diagnostic.map reported).toList

end ClampOutcome

def resolveLog (settings : Settings) (text : Text) : List LogEntry :=
  (Value.outcomes settings (Value.ofText text)).flatMap (ClampOutcome.log text) ++
    ((resolve settings text).value.map fun new =>
      ⟨.trace, "rewrote ".toList ++ Text.quoted text ++ " to ".toList ++ Text.quoted new⟩).toList

end FluidSizing
