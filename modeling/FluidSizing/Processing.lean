import FluidSizing.Fluid.Resolution
import FluidSizing.Sheet.Item
import FluidSizing.Text

/-! Processing a style sheet: the value of every declaration is resolved, new values take the place of
the old ones, and diagnostics become warnings that name the declaration. All other text is copied. -/

namespace FluidSizing

/-- A diagnostic with the name and the place of the declaration it comes from. -/
structure Warning where
  property : Text
  location : Location
  diagnostic : Diagnostic
  deriving DecidableEq

namespace Warning

/-- The name under which warnings are reported. -/
def plugin : Text := "fluid-clamp".toList

def text (warning : Warning) : Text := warning.diagnostic.message

def render (warning : Warning) : Text :=
  plugin ++ ": ".toList ++ warning.location.render ++ ": ".toList ++ warning.text ++ " (".toList ++
    warning.property ++ [')']

end Warning

namespace Declaration

def resolution (settings : Settings) (declaration : Declaration) : Resolution :=
  resolve settings declaration.value

def warnings (settings : Settings) (declaration : Declaration) : List Warning :=
  (declaration.resolution settings).diagnostics.map fun diagnostic =>
    ⟨declaration.name, declaration.location, diagnostic⟩

/-- The replacement of the value, if it changes. -/
def edit? (settings : Settings) (declaration : Declaration) : Option Edit :=
  (declaration.resolution settings).value.map fun value =>
    ⟨declaration.start, declaration.stop, value⟩

end Declaration

/-- A processed style sheet, and the warnings in the order of the source. -/
structure Processed where
  css : Text
  warnings : List Warning
  deriving DecidableEq

/-- Processes the style sheet that a text spells. -/
def process (settings : Settings) (css : Text) : Processed :=
  let declarations := (Stylesheet.ofText css).declarations
  ⟨Text.splice css (declarations.filterMap (Declaration.edit? settings)),
    declarations.flatMap (Declaration.warnings settings)⟩

def Declaration.log (settings : Settings) (declaration : Declaration) : List LogEntry :=
  resolveLog settings declaration.value ++
    (declaration.warnings settings).map (fun warning => ⟨.warn, warning.render⟩) ++
    ((declaration.resolution settings).value.map fun value =>
      ⟨.debug, declaration.name ++ " at ".toList ++ declaration.location.render ++ ": ".toList ++
        declaration.value ++ " -> ".toList ++ value⟩).toList

def processLog (settings : Settings) (css : Text) : List LogEntry :=
  (Stylesheet.ofText css).declarations.flatMap (Declaration.log settings)

end FluidSizing
