import FluidSizing.Json.Scalar

/-! The settings of a run, and reading them from a JSON text. An object names the settings it gives, each
at most once and in any order; a list gives them in a fixed order. What is not given keeps its default. A
negative number is refused once the whole text has been read. -/

namespace FluidSizing

/-- Whether diagnostics are reported, and what a fluid call uses where it names nothing: the widths
between which sizes grow, and the size for widths that are equal. -/
structure Settings where
  warnings : Bool := false
  minWidth : Binary64 := Binary64.ofNat 768
  maxWidth : Binary64 := Binary64.ofNat 1536
  baseFontSize : Binary64 := Binary64.ofNat 16
  deriving DecidableEq

namespace Settings

def default : Settings := {}

def reporting : Settings := { warnings := true }

instance : Inhabited Settings := ⟨default⟩

end Settings

/-- The settings that a text can give. -/
inductive SettingName where
  | warnings
  | minWidth
  | maxWidth
  | baseFontSize
  deriving DecidableEq, Repr

namespace SettingName

def text : SettingName → Text
  | warnings => "warnings".toList
  | minWidth => "minWidth".toList
  | maxWidth => "maxWidth".toList
  | baseFontSize => "baseFontSize".toList

def all : List SettingName := [warnings, minWidth, maxWidth, baseFontSize]

def ofText? (name : Text) : Option SettingName := all.find? fun setting => setting.text = name

end SettingName

structure GivenSettings where
  warnings : Option Bool := none
  minWidth : Option Binary64 := none
  maxWidth : Option Binary64 := none
  baseFontSize : Option Binary64 := none
  deriving DecidableEq

namespace GivenSettings

def has (given : GivenSettings) : SettingName → Bool
  | .warnings => given.warnings.isSome
  | .minWidth => given.minWidth.isSome
  | .maxWidth => given.maxWidth.isSome
  | .baseFontSize => given.baseFontSize.isSome

/-- How many settings have not been given. -/
def missing (given : GivenSettings) : Nat := SettingName.all.countP fun name => !given.has name

/-- The settings given, and the defaults for the rest. -/
def complete (given : GivenSettings) : Settings :=
  { warnings := given.warnings.getD Settings.default.warnings
    minWidth := given.minWidth.getD Settings.default.minWidth
    maxWidth := given.maxWidth.getD Settings.default.maxWidth
    baseFontSize := given.baseFontSize.getD Settings.default.baseFontSize }

end GivenSettings

namespace Json

/-- The value of a setting, added to those given, and what follows it. -/
def readSetting (given : GivenSettings) (name : SettingName) (text : Text) :
    Except Fault (GivenSettings × Text) :=
  match name with
  | .warnings => (readBool text).map fun (value, rest) => ({ given with warnings := some value }, rest)
  | .minWidth =>
    (readBinary64 text).map fun (value, rest) => ({ given with minWidth := some value }, rest)
  | .maxWidth =>
    (readBinary64 text).map fun (value, rest) => ({ given with maxWidth := some value }, rest)
  | .baseFontSize =>
    (readBinary64 text).map fun (value, rest) => ({ given with baseFontSize := some value }, rest)

theorem missing_lt_of_readSetting {given next : GivenSettings} {name : SettingName}
    {text rest : Text} (hread : readSetting given name text = .ok (next, rest))
    (hnew : given.has name = false) : next.missing < given.missing := by
  cases name with
  | warnings =>
    cases hvalue : readBool text with
    | error fault => simp [readSetting, hvalue, Except.map] at hread
    | ok value =>
      simp only [readSetting, hvalue, Except.map, Except.ok.injEq, Prod.mk.injEq] at hread
      simp only [GivenSettings.has] at hnew
      simp [← hread.1, GivenSettings.missing, SettingName.all, GivenSettings.has,
        List.countP_cons, hnew]
  | minWidth | maxWidth | baseFontSize =>
    cases hvalue : readBinary64 text with
    | error fault => simp [readSetting, hvalue, Except.map] at hread
    | ok value =>
      simp only [readSetting, hvalue, Except.map, Except.ok.injEq, Prod.mk.injEq] at hread
      simp only [GivenSettings.has] at hnew
      simp [← hread.1, GivenSettings.missing, SettingName.all, GivenSettings.has,
        List.countP_cons, hnew]

/-- What stands before a member or an element: the closing bracket, or the member or element. Both are
given with what follows. -/
inductive Next where
  | closing (rest : Text)
  | here (rest : Text)

/-- The next member of an object, behind the quote of its name. `first` holds behind the opening
bracket. -/
def nextMember (first : Bool) (text : Text) : Except Fault Next :=
  match skipBlanks text with
  | [] => .error (.before .endInObject [])
  | c :: rest =>
    if c = '\x7d' then .ok (.closing rest)
    else if first then
      if c = '\x22' then .ok (.here rest) else .error (.firstByte .keyNotString (c :: rest))
    else if c = ',' then
      match skipBlanks rest with
      | [] => .error (.before .endInValue [])
      | d :: rest =>
        if d = '\x22' then .ok (.here rest)
        else if d = '\x7d' then .error (.firstByte .trailingComma (d :: rest))
        else .error (.firstByte .keyNotString (d :: rest))
    else .error (.firstByte .expectedObjectEnd (c :: rest))

/-- What follows the colon behind white space. -/
def readColon (text : Text) : Except Fault Text :=
  match skipBlanks text with
  | [] => .error (.before .endInObject [])
  | ':' :: rest => .ok rest
  | text => .error (.firstByte .expectedColon text)

/-- The fault of the name of a member, which is found at the next token; a bracket that closes the object
belongs to it. -/
def nameFault (problem : Problem) (rest : Text) : Fault :=
  match skipBlanks rest with
  | '\x7d' :: rest => .before problem rest
  | rest => .before problem rest

/-- The name of a new setting and the text of its value, behind the quote of the name. -/
def readName (given : GivenSettings) (text : Text) : Except Fault (SettingName × Text) :=
  match readString text with
  | .error fault => .error fault
  | .ok (name, rest) =>
    match SettingName.ofText? name with
    | none => .error (nameFault (.unknownField name (SettingName.all.map SettingName.text)) rest)
    | some setting =>
      if given.has setting then .error (nameFault (.duplicateField name) rest)
      else (readColon rest).map fun rest => (setting, rest)

theorem has_eq_false_of_readName {given : GivenSettings} {text rest : Text} {name : SettingName}
    (h : readName given text = .ok (name, rest)) : given.has name = false := by
  simp only [readName] at h
  split at h
  · cases h
  · split at h
    · cases h
    · split at h
      · cases h
      · rename_i hnew
        simp only [Except.map] at h
        split at h
        · cases h
        · cases h
          simpa using hnew

/-- The members of an object behind those given, and what follows the object. -/
def readMembers (first : Bool) (given : GivenSettings) (text : Text) :
    Except Fault (GivenSettings × Text) :=
  match nextMember first text with
  | .error fault => .error fault
  | .ok (.closing rest) => .ok (given, rest)
  | .ok (.here key) =>
    match _hname : readName given key with
    | .error fault => .error fault
    | .ok (name, value) =>
      match _hvalue : readSetting given name value with
      | .error fault => .error fault
      | .ok (next, rest) => readMembers false next rest
termination_by given.missing
decreasing_by exact missing_lt_of_readSetting _hvalue (has_eq_false_of_readName _hname)

def nextElement (first : Bool) (text : Text) : Except Fault Next :=
  match skipBlanks text with
  | [] => .error (.before .endInList [])
  | c :: rest =>
    if c = ']' then .ok (.closing rest)
    else if first then .ok (.here (c :: rest))
    else if c = ',' then
      match skipBlanks rest with
      | [] => .error (.before .endInValue [])
      | d :: rest =>
        if d = ']' then .error (.firstByte .trailingComma (d :: rest))
        else .ok (.here (d :: rest))
    else .error (.firstByte .expectedListEnd (c :: rest))

/-- What follows a list, of which all elements have been read. -/
def endList (text : Text) : Except Fault Text :=
  match skipBlanks text with
  | [] => .error (.before .endInList [])
  | c :: rest =>
    if c = ']' then .ok rest
    else if c = ',' then
      match skipBlanks rest with
      | ']' :: rest => .error (.firstByte .trailingComma (']' :: rest))
      | rest => .error (.firstByte .trailingCharacters rest)
    else .error (.firstByte .trailingCharacters (c :: rest))

/-- The elements of a list that give settings, and what follows the list. -/
def readElements (first : Bool) (given : GivenSettings) :
    List SettingName → Text → Except Fault (GivenSettings × Text)
  | [], text => (endList text).map fun rest => (given, rest)
  | name :: names, text =>
    match nextElement first text with
    | .error fault => .error fault
    | .ok (.closing rest) => .ok (given, rest)
    | .ok (.here value) =>
      match readSetting given name value with
      | .error fault => .error fault
      | .ok (next, rest) => readElements false next names rest

/-- The settings of an object or a list behind white space, and what follows it. -/
def readGiven (text : Text) : Except Fault (GivenSettings × Text) :=
  match skipBlanks text with
  | [] => .error (.before .endInValue [])
  | c :: rest =>
    if c = '\x7b' then readMembers true {} rest
    else if c = '[' then readElements true {} SettingName.all rest
    else .error (wrongType "struct FluidConfig".toList (c :: rest))

def readWhole (text : Text) : Except Fault GivenSettings :=
  match readGiven text with
  | .error fault => .error fault
  | .ok (given, rest) =>
    match skipBlanks rest with
    | [] => .ok given
    | rest => .error (.firstByte .trailingCharacters rest)

end Json

inductive SettingsError where
  | invalid (message : Text)
  | negative (name : SettingName) (value : Binary64)
  deriving DecidableEq

namespace SettingsError

/-- The messages, the outermost first. -/
def chain : SettingsError → List Text
  | invalid message => ["invalid fluid-clamp configuration".toList, message]
  | negative name value => [name.text ++ " must not be negative, got ".toList ++ value.render]

def message (error : SettingsError) : Text := ": ".toList.intercalate error.chain

end SettingsError

namespace Settings

/-- The first setting in order that is negative. -/
def negative? (settings : Settings) : Option (SettingName × Binary64) :=
  [(.minWidth, settings.minWidth), (.maxWidth, settings.maxWidth),
    (.baseFontSize, settings.baseFontSize)].find? fun (_, value) =>
    value.isLess (Binary64.zero false)

/-- The settings that a JSON text gives. -/
def ofText (text : Text) : Except SettingsError Settings :=
  match Json.readWhole text with
  | .error fault => .error (.invalid (fault.message text))
  | .ok given =>
    match given.complete.negative? with
    | some (name, value) => .error (.negative name value)
    | none => .ok given.complete

end Settings

end FluidSizing
