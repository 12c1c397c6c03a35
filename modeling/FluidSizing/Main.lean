import FluidSizing.CommandLine.Run

/-! The program: its arguments, the files of the system, and the standard streams. -/

namespace FluidSizing

namespace CommandLine

/-- The number of a system error, which may be given with a minus. -/
def errorNumber (code : UInt32) : Nat := min code.toNat (0 - code).toNat

def fileErrorOf (error : IO.Error) : FileError :=
  match error with
  | .noFileOrDirectory .. => .notFound
  | .permissionDenied .. => .permissionDenied
  | .inappropriateType _ code _ => if errorNumber code = 20 then .notADirectory else .isADirectory
  | .invalidArgument _ code _ => if errorNumber code = 36 then .nameTooLong else .nullInPath
  | error => .other error.toString.toList

partial def readAll (stream : IO.FS.Stream) (front : ByteArray) : IO ByteArray := do
  let bytes ← stream.read 65536
  if bytes.isEmpty then return front
  readAll stream (front ++ bytes)

def systemFiles : FileAccess IO where
  read path := do
    try return .ok (← IO.FS.readBinFile (String.ofList path))
    catch error => return .error (fileErrorOf error)
  write path content := do
    try
      IO.FS.writeBinFile (String.ofList path) content
      return .ok ()
    catch error => return .error (fileErrorOf error)
  standardInput := do
    try return .ok (← readAll (← IO.getStdin) ByteArray.empty)
    catch error => return .error (fileErrorOf error)

/-- Does what the arguments ask for, and returns the exit code. A standard stream that cannot be written
to makes the run fail. -/
def perform (arguments : List Text) : IO UInt32 := do
  match read arguments with
  | .error error =>
    IO.eprintln ("error: " ++ String.ofList error.message)
    return 2
  | .ok invocation =>
    let report ← invocation.perform systemFiles
    try
      IO.eprint (String.ofList report.messages)
      IO.print (String.ofList report.output)
      (← IO.getStdout).flush
      return UInt32.ofNat report.exitCode
    catch error =>
      IO.eprint (String.ofList (Failure.render ⟨(fileErrorOf error).message, []⟩))
      return 1

end CommandLine

end FluidSizing

/-- Reads a style sheet, replaces its fluid sizes and writes it. -/
def main (arguments : List String) : IO UInt32 :=
  FluidSizing.CommandLine.perform (arguments.map String.toList)
