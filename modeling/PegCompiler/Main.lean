import PegCompiler.CommandLine.Run
import PegCompiler.CommandLine.Usage

/-!
The command line as a program: the operations on files are those of the system, and what a run
prints goes to the standard streams.
-/

namespace PegCompiler

namespace FileTrouble

/-- The system gives the number of an error with either sign. -/
def ofError : IO.Error → FileTrouble
  | .noFileOrDirectory .. => missing
  | .alreadyExists .. => present
  | .permissionDenied .. => denied
  | .inappropriateType _ code _ =>
    if code = 20 ∨ code + 20 = 0 then notDirectory else directory
  | error => other 5 (Text.ofString (toString error))

end FileTrouble

/-- An operation on the file that a path names. -/
def withPath {α : Type} (path : Path) (operation : String → IO α) :
    IO (Except FileTrouble α) :=
  match path.isNameable, path.shown.toString? with
  | true, some name =>
    try return .ok (← operation name) catch error => return .error (.ofError error)
  | _, _ => return .error .unnameable

def readBytes (path : Path) : IO (Except FileTrouble Bytes) :=
  withPath path fun name => return (← IO.FS.readBinFile name).toList.map UInt8.toNat

instance : Files IO where
  read := readBytes
  isDirectory path := do
    match ← readBytes path with
    | .error .directory => return true
    | _ => return false
  makeDirectory path := withPath path fun name => IO.FS.createDir name
  write path bytes := withPath path fun name =>
    IO.FS.writeBinFile name (ByteArray.mk (bytes.map UInt8.ofNat).toArray)

/-- A surrogate, which only a report of a fault can have in it, is written by its number. -/
def printable (t : Text) : String :=
  String.join <| t.map fun c => match c.toChar? with
    | some c => c.toString
    | none => "\\u" ++ String.ofList (Nat.toDigits 16 c.toNat)

def printLines (stream : IO.FS.Stream) (lines : List Text) : IO Unit :=
  lines.forM fun line => stream.putStrLn (printable line)

/-- Prints what a run says and gives its exit code. -/
def Report.print (report : Report) : IO UInt32 := do
  let out ← IO.getStdout
  let err ← IO.getStderr
  printLines err report.err
  printLines out report.out
  match report.ending with
  | .exit code => return code.toUInt32
  | .usage .help =>
    printLines out CommandLine.usage
    return UsageFault.help.exitCode.toUInt32
  | .usage fault =>
    printLines err (CommandLine.usage ++ [fault.message])
    return fault.exitCode.toUInt32
  | .unhandled fault =>
    printLines err [fault.message]
    return 1

end PegCompiler

open PegCompiler in
def main (words : List String) : IO UInt32 := do
  let report : Report ← CommandLine.run (words.map Text.ofString)
  report.print
