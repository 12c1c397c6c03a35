import FluidSizing.Text

/-! Files, and a directory of them. `FileAccess` is what a program needs of the files around it; a
`Directory` provides it, with paths that lead to its files, to directories or nowhere. In the directories
around it there are no files, and none can be written. -/

namespace FluidSizing

/-- Why a file cannot be read or written. -/
inductive FileError where
  | notFound
  | notADirectory
  | isADirectory
  | nameTooLong
  | permissionDenied
  | nullInPath
  | other (message : Text)
  deriving DecidableEq, Repr

namespace FileError

def message : FileError → Text
  | notFound => "No such file or directory (os error 2)".toList
  | notADirectory => "Not a directory (os error 20)".toList
  | isADirectory => "Is a directory (os error 21)".toList
  | nameTooLong => "File name too long (os error 36)".toList
  | permissionDenied => "Permission denied (os error 13)".toList
  | nullInPath => "file name contained an unexpected NUL byte".toList
  | other message => message

end FileError

def decodeUtf8 (bytes : ByteArray) : Option Text := (String.fromUTF8? bytes).map String.toList

def encodeUtf8 (text : Text) : ByteArray := (String.ofList text).toUTF8

/-- Bytes are what was read, without an error. -/
instance : Coe ByteArray (Except FileError ByteArray) := ⟨.ok⟩

/-- Reading and writing files, and reading the standard input; each of them may fail. -/
structure FileAccess (m : Type → Type) where
  read : Text → m (Except FileError ByteArray)
  write : Text → ByteArray → m (Except FileError Unit)
  standardInput : m (Except FileError ByteArray)

structure File where
  name : Text
  content : ByteArray

/-- A directory that holds plain files only. -/
abbrev Directory := List File

/-- The parts of a path between slashes, empty ones included. -/
def pathParts : Text → List Text
  | [] => [[]]
  | c :: rest =>
    match pathParts rest with
    | [] => [[c]]
    | part :: others => if c = '/' then [] :: part :: others else (c :: part) :: others

def maxNameSize : Nat := 255

/-- The largest number of bytes of a path. -/
def maxPathSize : Nat := 4095

/-- Where a path leads: to a directory, or to a name in the directory (`inside`) or around it.
`slash` holds if a slash stands behind the name. -/
inductive Target where
  | directory
  | name (inside : Bool) (name : Text) (slash : Bool)
  deriving DecidableEq, Repr

namespace Directory

def content? (files : Directory) (name : Text) : Option ByteArray :=
  (files.find? fun file => file.name = name).map File.content

/-- The directory with a file of a name and content, in place of an older one. -/
def put (files : Directory) (name : Text) (content : ByteArray) : Directory :=
  if files.any fun file => file.name = name then
    files.map fun file => if file.name = name then ⟨name, content⟩ else file
  else files ++ [⟨name, content⟩]

/-- The content of the file of a name, in the directory or around it. -/
def lookup (files : Directory) (inside : Bool) (name : Text) : Except FileError ByteArray :=
  if maxNameSize < Text.byteSize name then .error .nameTooLong
  else
    match if inside then files.content? name else none with
    | some content => .ok content
    | none => .error .notFound

/-- Where the rest of a path leads. Empty parts and single points stay where they are, and two points lead
out of the directory. A name that more follows has to be a directory, which no name is. -/
def follow (files : Directory) (inside : Bool) : List Text → Except FileError Target
  | [] => .ok .directory
  | part :: rest =>
    if part = [] || part = ['.'] then files.follow inside rest
    else if part = ['.', '.'] then files.follow false rest
    else if rest.all fun other => other.isEmpty then .ok (.name inside part !rest.isEmpty)
    else
      match files.lookup inside part with
      | .ok _ => .error .notADirectory
      | .error error => .error error

/-- Where a path leads. With a slash at its start it does not start in the directory. -/
def target (files : Directory) (path : Text) : Except FileError Target :=
  if path.any fun c => c = '\x00' then .error .nullInPath
  else if path.isEmpty then .error .notFound
  else if maxPathSize < Text.byteSize path then .error .nameTooLong
  else files.follow (path.head? != some '/') (pathParts path)

def read (files : Directory) (path : Text) : Except FileError ByteArray :=
  match files.target path with
  | .error error => .error error
  | .ok .directory => .error .isADirectory
  | .ok (.name inside name slash) =>
    match files.lookup inside name with
    | .ok content => if slash then .error .notADirectory else .ok content
    | .error error => .error error

/-- The directory after writing the file that a path leads to. -/
def write (files : Directory) (path : Text) (content : ByteArray) : Except FileError Directory :=
  match files.target path with
  | .error error => .error error
  | .ok .directory => .error .isADirectory
  | .ok (.name inside name slash) =>
    if slash then .error .isADirectory
    else if maxNameSize < Text.byteSize name then .error .nameTooLong
    else if inside then .ok (files.put name content)
    else .error .permissionDenied

/-- Access to a directory; the standard input holds some bytes or cannot be read. -/
def access (standardInput : Except FileError ByteArray) : FileAccess (StateM Directory) where
  read path := do return (← get).read path
  write path content := do
    match (← get).write path content with
    | .ok files =>
      set files
      return .ok ()
    | .error error => return .error error
  standardInput := return standardInput

end Directory

end FluidSizing
