import FluidSizing.Binary64.Decimal
import FluidSizing.Fluid.Settings

/-! The options of the program. Arguments are read from the left. A value follows its option as the next
argument, behind an equals sign or, for a short option, directly; an argument of its own that starts with
a hyphen is not taken as a value. Every option is given at most once, and two hyphens end the options. -/

namespace FluidSizing

namespace CommandLine

/-- The options that take a value. -/
inductive ValueOption where
  | output
  | config
  | minWidth
  | maxWidth
  | baseFontSize
  deriving DecidableEq, Repr

namespace ValueOption

def name : ValueOption → Text
  | output => "output".toList
  | config => "config".toList
  | minWidth => "min-width".toList
  | maxWidth => "max-width".toList
  | baseFontSize => "base-font-size".toList

def all : List ValueOption := [output, config, minWidth, maxWidth, baseFontSize]

def ofName? (name : Text) : Option ValueOption := all.find? fun option => option.name = name

def ofLetter? (c : Char) : Option ValueOption :=
  if c = 'o' then some output else if c = 'c' then some config else none

end ValueOption

inductive ArgumentError where
  | unknown (argument : Text)
  | repeated (name : Text)
  | missingValue (name : Text)
  | invalidValue (name value : Text)
  | unexpectedValue (name : Text)
  deriving DecidableEq, Repr

namespace ArgumentError

def message : ArgumentError → Text
  | unknown argument => "unexpected argument ".toList ++ argument
  | repeated name => name ++ " is given more than once".toList
  | missingValue name => name ++ " needs a value".toList
  | invalidValue name value => "invalid value for ".toList ++ name ++ ": ".toList ++ value
  | unexpectedValue name => name ++ " takes no value".toList

end ArgumentError

structure Options where
  input : Option Text := none
  output : Option Text := none
  config : Option Text := none
  warnings : Bool := false
  minWidth : Option Binary64 := none
  maxWidth : Option Binary64 := none
  baseFontSize : Option Binary64 := none
  deriving DecidableEq

inductive Invocation where
  | version
  | run (options : Options)
  deriving DecidableEq

namespace Options

def has (options : Options) : ValueOption → Bool
  | .output => options.output.isSome
  | .config => options.config.isSome
  | .minWidth => options.minWidth.isSome
  | .maxWidth => options.maxWidth.isSome
  | .baseFontSize => options.baseFontSize.isSome

/-- The options with a value for one of them. Paths are not empty, and sizes are numbers. -/
def assign? (options : Options) (option : ValueOption) (value : Text) : Option Options :=
  match option with
  | .output => if value.isEmpty then none else some { options with output := some value }
  | .config => if value.isEmpty then none else some { options with config := some value }
  | .minWidth => (Binary64.read? value).map fun x => { options with minWidth := some x }
  | .maxWidth => (Binary64.read? value).map fun x => { options with maxWidth := some x }
  | .baseFontSize => (Binary64.read? value).map fun x => { options with baseFontSize := some x }

/-- The options with a value for one that has none yet. -/
def set (options : Options) (option : ValueOption) (value : Text) : Except ArgumentError Options :=
  if options.has option then .error (.repeated option.name)
  else
    match options.assign? option value with
    | some options => .ok options
    | none => .error (.invalidValue option.name value)

/-- The options with warnings, which have not been asked for yet. -/
def setWarnings (options : Options) : Except ArgumentError Options :=
  if options.warnings then .error (.repeated "warnings".toList)
  else .ok { options with warnings := true }

/-- The options with an input, which has not been given yet and is not empty. -/
def setInput (options : Options) (path : Text) : Except ArgumentError Options :=
  if options.input.isSome then .error (.unknown path)
  else if path.isEmpty then .error (.invalidValue "input".toList path)
  else .ok { options with input := some path }

/-- The options with every argument an input. -/
def setInputs (options : Options) : List Text → Except ArgumentError Options
  | [] => .ok options
  | path :: rest =>
    match options.setInput path with
    | .error error => .error error
    | .ok options => options.setInputs rest

end Options

/-- What is known behind an argument: the options, an option that still needs a value, or that only the
version is asked for. -/
inductive Progress where
  | options (options : Options)
  | awaiting (options : Options) (option : ValueOption)
  | version
  deriving DecidableEq

/-- The value of a short option that directly follows it. -/
def attachedValue : Text → Text
  | '=' :: value => value
  | value => value

/-- Short options behind one hyphen. -/
def readLetters (options : Options) : Text → Except ArgumentError Progress
  | [] => .ok (.options options)
  | c :: rest =>
    if c = 'V' then .ok .version
    else if c = 'w' then
      match options.setWarnings with
      | .error error => .error error
      | .ok options => readLetters options rest
    else
      match ValueOption.ofLetter? c with
      | none => .error (.unknown ['-', c])
      | some option =>
        if rest.isEmpty then .ok (.awaiting options option)
        else (options.set option (attachedValue rest)).map .options

/-- A long option behind two hyphens. -/
def readLong (options : Options) (argument : Text) : Except ArgumentError Progress :=
  let (name, attached) := argument.span (· != '=')
  if name = "warnings".toList then
    if attached.isEmpty then options.setWarnings.map .options else .error (.unexpectedValue name)
  else if name = "version".toList then
    if attached.isEmpty then .ok .version else .error (.unexpectedValue name)
  else
    match ValueOption.ofName? name with
    | none => .error (.unknown ('-' :: '-' :: argument))
    | some option =>
      match attached with
      | [] => .ok (.awaiting options option)
      | _ :: value => (options.set option value).map .options

/-- One argument that is not the value of the option before it. -/
def readArgument (options : Options) (argument : Text) : Except ArgumentError Progress :=
  match argument with
  | '-' :: '-' :: long => readLong options long
  | '-' :: letter :: letters => readLetters options (letter :: letters)
  | path => (options.setInput path).map .options

/-- Whether an argument of its own can be a value: it does not start with a hyphen, or is one. -/
def isValue : Text → Bool
  | '-' :: _ :: _ => false
  | _ => true

def readArguments (options : Options) : List Text → Except ArgumentError Invocation
  | [] => .ok (.run options)
  | argument :: rest =>
    if argument = ['-', '-'] then (options.setInputs rest).map .run
    else
      match readArgument options argument with
      | .error error => .error error
      | .ok .version => .ok .version
      | .ok (.options options) => readArguments options rest
      | .ok (.awaiting options option) =>
        match rest with
        | [] => .error (.missingValue option.name)
        | value :: rest =>
          if isValue value then
            match options.set option value with
            | .error error => .error error
            | .ok options => readArguments options rest
          else .error (.missingValue option.name)

def read (arguments : List Text) : Except ArgumentError Invocation := readArguments {} arguments

end CommandLine

end FluidSizing
