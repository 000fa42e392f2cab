import PegCompiler.CommandLine.Overrides
import PegCompiler.Compile.Failure
import PegCompiler.Files.Fault
import PegCompiler.Grammar.SyntaxError
import PegCompiler.Text.Utf8
import PegCompiler.Value.Json

/-!
What goes wrong with a command whose arguments are in order. A grammar that is rejected has the exit
code one; a fault in what is read, and a value that an option does not take, have the exit code
two. Any other fault, such as a number in the place of a name, has no exit code: nobody handles it.
-/

namespace PegCompiler

inductive CommandFault
  | file (fault : FileFault)
  | encoding (error : Utf8Error)
  | grammar (error : SyntaxError)
  | json (whole : Text) (error : JsonError)
  | notRecord (path : Text)
  | dependency (fault : DependencyFault)
  | compilation (failure : Failure)
  | unencodable (error : Unencodable)

namespace DependencyFault

def message : DependencyFault → Text
  | notPairs => "Dependencies are not pairs"
  | notPair index length => "dictionary update sequence element #" ++ Text.ofNat index
      ++ " has length " ++ Text.ofNat length ++ "; 2 is required"

end DependencyFault

namespace CommandFault

/-- The exit code of a fault that is reported to the user. -/
def exitCode? : CommandFault → Option Nat
  | compilation failure =>
    match failure.kind with
    | .rejection => some 1
    | .invalidValue => some 2
    | _ => none
  | dependency .notPairs => none
  | _ => some 2

/-- The name of a fault in reports. -/
def name : CommandFault → Text
  | file fault => fault.trouble.name
  | encoding _ => "UnicodeDecodeError"
  | json _ error => if error.fault.isMalformed then "JSONDecodeError" else "ValueError"
  | unencodable _ => "UnicodeEncodeError"
  | grammar _ | notRecord _ | dependency _ | compilation _ => "ValueError"

def message : CommandFault → Text
  | file fault => fault.message
  | encoding error => error.message
  | grammar error => error.message
  | json whole error => error.message whole
  | notRecord path => path ++ ": options must be a JSON object"
  | dependency fault => fault.message
  | compilation failure => failure.message
  | unencodable error => error.message

/-- The lines of the report to the user. -/
def report (fault : CommandFault) : List Text :=
  let line : Text := "[ERROR] " ++ fault.name ++ " " ++ fault.message
  match fault with
  | grammar error => if error.fault.isMalformed then ["[SYNTAX ERROR]", error.message] else [line]
  | compilation (.rejected _) => ["[GRAMMAR ERROR]", fault.message]
  | _ => [line]

end CommandFault

end PegCompiler
