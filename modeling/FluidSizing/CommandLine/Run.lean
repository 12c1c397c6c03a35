import FluidSizing.CommandLine.Options
import FluidSizing.Files
import FluidSizing.Fluid.Settings
import FluidSizing.Processing

/-! A run of the program. The settings are read first, then the input; then the style sheet is processed,
the warnings go to the standard error, and the result is written. The first step that fails ends the run,
and the program reports the failure with its causes. -/

namespace FluidSizing

namespace CommandLine

/-- A failure: what could not be done, and why, the outermost cause first. -/
structure Failure where
  message : Text
  causes : List Text
  deriving DecidableEq, Repr

namespace Failure

/-- A cause behind its label, its further lines indented by the width of the label. -/
def renderCause (label cause : Text) : Text :=
  label ++ cause.flatMap fun c =>
    if c = '\n' then '\n' :: List.replicate label.length ' ' else [c]

/-- The label of a cause among several. -/
def causeLabel (index : Nat) : Text :=
  let digits := Text.ofNat index
  List.replicate (5 - digits.length) ' ' ++ digits ++ ": ".toList

/-- The lines of the causes. Several are numbered. -/
def renderCauses : List Text → Text
  | [] => []
  | [cause] => "\n\nCaused by:\n".toList ++ renderCause "    ".toList cause
  | causes =>
    "\n\nCaused by:".toList ++ causes.zipIdx.flatMap fun (cause, index) =>
      '\n' :: renderCause (causeLabel index) cause

def render (failure : Failure) : Text :=
  "Error: ".toList ++ failure.message ++ renderCauses failure.causes ++ ['\n']

end Failure

def notUtf8 : Text := "stream did not contain valid UTF-8".toList

/-- The text of bytes that were read, or the failure to read them. -/
def textOf (message : Text) (bytes : Except FileError ByteArray) : Except Failure Text :=
  match bytes with
  | .error error => .error ⟨message, [error.message]⟩
  | .ok bytes =>
    match decodeUtf8 bytes with
    | some text => .ok text
    | none => .error ⟨message, [notUtf8]⟩

def settingsOf (path : Text) (bytes : Except FileError ByteArray) : Except Failure Settings :=
  match textOf ("failed to read configuration ".toList ++ path) bytes with
  | .error failure => .error failure
  | .ok text =>
    match Settings.ofText text with
    | .error error => .error ⟨"in configuration ".toList ++ path, error.chain⟩
    | .ok settings => .ok settings

def loadSettings {m : Type → Type} [Monad m] (files : FileAccess m) (path : Text) :
    m (Except Failure Settings) := do
  return settingsOf path (← files.read path)

namespace Options

/-- The settings with what the options say. -/
def override (options : Options) (settings : Settings) : Settings :=
  { warnings := settings.warnings || options.warnings
    minWidth := options.minWidth.getD settings.minWidth
    maxWidth := options.maxWidth.getD settings.maxWidth
    baseFontSize := options.baseFontSize.getD settings.baseFontSize }

/-- The path of the input, if it is not the standard input. -/
def inputPath? (options : Options) : Option Text := options.input.filter (· != ['-'])

end Options

/-- The settings of a run: those of the file, or the defaults, with what the options say. -/
def settings {m : Type → Type} [Monad m] (files : FileAccess m) (options : Options) :
    m (Except Failure Settings) := do
  match options.config with
  | none => return .ok (options.override Settings.default)
  | some path => return (← loadSettings files path).map options.override

def input {m : Type → Type} [Monad m] (files : FileAccess m) (options : Options) :
    m (Except Failure Text) := do
  match options.inputPath? with
  | some path => return textOf ("failed to read ".toList ++ path) (← files.read path)
  | none => return textOf "failed to read stdin".toList (← files.standardInput)

/-- What a run leaves behind, files apart. -/
structure Report where
  exitCode : Nat
  output : Text
  messages : Text
  deriving DecidableEq, Repr

namespace Report

/-- The report of a failure behind some messages. -/
def failed (messages : Text) (failure : Failure) : Report := ⟨1, [], messages ++ failure.render⟩

def version : Report := ⟨0, "fluid-clamp 0.1.0\n".toList, []⟩

end Report

/-- The warnings, one in a line. -/
def warningLines (warnings : List Warning) : Text :=
  warnings.flatMap fun warning => warning.render ++ ['\n']

/-- Writes a processed style sheet. -/
def deliver {m : Type → Type} [Monad m] (files : FileAccess m) (options : Options)
    (processed : Processed) : m Report := do
  let messages := warningLines processed.warnings
  match options.output with
  | none => return ⟨0, processed.css, messages⟩
  | some path =>
    match ← files.write path (encodeUtf8 processed.css) with
    | .ok _ => return ⟨0, [], messages⟩
    | .error error =>
      return .failed messages ⟨"failed to write ".toList ++ path, [error.message]⟩

def run {m : Type → Type} [Monad m] (files : FileAccess m) (options : Options) : m Report := do
  match ← settings files options with
  | .error failure => return .failed [] failure
  | .ok settings =>
    match ← input files options with
    | .error failure => return .failed [] failure
    | .ok css => deliver files options (process settings css)

def Invocation.perform {m : Type → Type} [Monad m] (files : FileAccess m) :
    Invocation → m Report
  | .version => return .version
  | .run options => CommandLine.run files options

end CommandLine

end FluidSizing
