import PegCompiler.Files.Path
import PegCompiler.Text.Quoted

/-!
What a file system answers when it does not do what it is asked for: the trouble, and the path that
it was asked for. A trouble has the number and the wording that systems have agreed on.
-/

namespace PegCompiler

inductive FileTrouble
  | missing
  | present
  | notDirectory
  | directory
  | denied
  /-- The path cannot be handed to the system. -/
  | unnameable
  | other (number : Nat) (reason : Text)
  deriving DecidableEq, Repr

namespace FileTrouble

def number : FileTrouble → Nat
  | missing => 2
  | denied => 13
  | present => 17
  | notDirectory => 20
  | directory => 21
  | unnameable => 22
  | other number _ => number

def reason : FileTrouble → Text
  | missing => "No such file or directory"
  | denied => "Permission denied"
  | present => "File exists"
  | notDirectory => "Not a directory"
  | directory => "Is a directory"
  | unnameable => "embedded null byte"
  | other _ reason => reason

/-- The name of the trouble in reports. -/
def name : FileTrouble → Text
  | missing => "FileNotFoundError"
  | denied => "PermissionError"
  | present => "FileExistsError"
  | notDirectory => "NotADirectoryError"
  | directory => "IsADirectoryError"
  | unnameable => "ValueError"
  | other .. => "OSError"

end FileTrouble

structure FileFault where
  trouble : FileTrouble
  path : Path
  deriving Repr

def FileFault.message (fault : FileFault) : Text :=
  match fault.trouble with
  | .unnameable => fault.trouble.reason
  | trouble => "[Errno " ++ Text.ofNat trouble.number ++ "] " ++ trouble.reason ++ ": "
      ++ Text.quoted fault.path.shown

end PegCompiler
