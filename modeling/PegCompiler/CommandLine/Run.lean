import PegCompiler.Code.Listing
import PegCompiler.CommandLine.Fault
import PegCompiler.CommandLine.Log
import PegCompiler.Files.Access
import PegCompiler.Grammar.Outline
import PegCompiler.Grammar.Reader

/-!
Carrying out a command line. The grammar is read before the options, the options are looked at
before the compilation begins, and a parser is written only when the compilation is over. A fault
before that is told to the user; one while writing ends the run as it is. What is printed at the end
names the file, and a name with a surrogate in it cannot be printed.
-/

namespace PegCompiler

/-- How a run ends. -/
inductive Ending
  | exit (code : Nat)
  | usage (fault : UsageFault)
  /-- A fault that nobody took care of. -/
  | unhandled (fault : CommandFault)

/-- The lines that a run prints, and how it ends. -/
structure Report where
  out : List Text := []
  err : List Text := []
  ending : Ending

namespace Report

def ofFault (err : List Text) (fault : CommandFault) : Report :=
  match fault.exitCode? with
  | some code => { err := err ++ fault.report, ending := .exit code }
  | none => { err, ending := .unhandled fault }

end Report

namespace Arguments

variable {m : Type → Type} [Monad m] [Files m]

def readFile (path : Text) : ExceptT CommandFault m Bytes := do
  let path := Path.ofText path
  match ← (Files.read path : m (Except FileTrouble Bytes)) with
  | .ok bytes => return bytes
  | .error trouble => throw (.file ⟨trouble, path⟩)

def readGrammar (path : Text) : ExceptT CommandFault m Grammar := do
  match Text.readGrammar (← readFile path) with
  | .error error => throw (.encoding error)
  | .ok text =>
    match Grammar.read text (some path) with
    | .error error => throw (.grammar error)
    | .ok g => return g

/-- The fields of an option file; without a file there are none. -/
def readOptions : Option Text → ExceptT CommandFault m (List (Text × Value))
  | none | some [] => return []
  | some path => do
    match Text.read (← readFile path) with
    | .error error => throw (.encoding error)
    | .ok text =>
      match Json.read text with
      | .error error => throw (.json text error)
      | .ok (.record fields) => return fields
      | .ok _ => throw (.notRecord path)

/-- The options that the file and the flags come to. -/
def options (arguments : Arguments) (fields : List (Text × Value)) :
    Except CommandFault Options := do
  let fields ← (arguments.overlay fields).mapError CommandFault.dependency
  (Options.ofValue (.record fields)).mapError fun error => .compilation (.options error)

/-- The grammar and the options of a command. -/
def load (arguments : Arguments) : ExceptT CommandFault m (Grammar × Options) := do
  let g ← readGrammar arguments.file
  let fields ← readOptions arguments.optionFile
  return (g, ← liftExcept (arguments.options fields))
where
  liftExcept {α : Type} : Except CommandFault α → ExceptT CommandFault m α
    | .ok a => return a
    | .error fault => throw fault

def stages (arguments : Arguments) : List Stage :=
  if arguments.build.isSome then Stage.standard else [Stage.check, Stage.transform]

def outputName (arguments : Arguments) : Text :=
  if arguments.build.isSome then "source" else "ast"

/-- The compilation of a command; warnings are the diagnostics that a command collects. -/
def compile (arguments : Arguments) (g : Grammar) (options : Options) : Compiled :=
  g.compile arguments.stages (options.set .output (.text arguments.outputName)) (some [.warning])

def treeLines (g : Grammar) : List Text :=
  "\n[AST]" :: g.rules.map fun rule => "  " ++ rule.name ++ " = " ++ Outline.expr rule.body

def listingLines (g : Grammar) : List Text :=
  let tables := g.tables.getD {}
  let counts : Text := "\nliterals=" ++ Text.ofNat tables.literals.length
    ++ " classes=" ++ Text.ofNat tables.classes.length
    ++ " expectations=" ++ Text.ofNat tables.expectations.length
    ++ " functions=" ++ Text.ofNat tables.functions.length
  let ofRule (rule : Rule) : List Text :=
    let lines := (Listing.ofWords (rule.words.getD [])).toOption.getD []
    (rule.name ++ ":") :: lines.map fun line => "  " ++ line
  Text.ofString "\n[Bytecode]" :: g.rules.flatMap ofRule ++ [counts]

/-- Writes the code of a parser; the directories above the file are made. A text that has no bytes
leaves the file empty. -/
def writeCode (path : Path) (code : Text) : ExceptT CommandFault m Unit := do
  let made : Except FileFault Unit ← (Files.makeDirectories path.parent : m _)
  if let .error fault := made then throw (.file fault)
  let (bytes, unencodable) := match Utf8.encode code with
    | .ok bytes => (bytes, none)
    | .error error => ([], some error)
  let written : Except FileTrouble Unit ← (Files.write path bytes : m _)
  if let .error trouble := written then throw (.file ⟨trouble, path⟩)
  if let some error := unencodable then throw (.unencodable error)

def finishCheck (arguments : Arguments) (compiled : Compiled) (g : Grammar) (err : List Text) :
    Report :=
  { out := ["[CHECK OK] rules=" ++ Text.ofNat g.rules.length
      ++ " warnings=" ++ Text.ofNat (Log.warnings compiled.events)]
    err := err ++ (if arguments.debug then treeLines g else [])
    ending := .exit 0 }

/-- The line that tells where the code of a parser is. -/
def emissionLine (build : BuildArguments) : Text :=
  "[EMIT] format=" ++ formatName (build.format.getD .bare) ++ " -> "
    ++ (Path.ofText build.output).shown

def finishBuild (arguments : Arguments) (build : BuildArguments) (g : Grammar)
    (err : List Text) : m Report := do
  let err := err ++ (if arguments.debug then treeLines g ++ listingLines g else [])
  let code := g.code.getD []
  match ← writeCode (Path.ofText build.output) code with
  | .error fault => return { err, ending := .unhandled fault }
  | .ok () =>
    let size : Text := "[DEBUG] rules=" ++ Text.ofNat g.rules.length
      ++ " bytes=" ++ Text.ofNat code.length
    match Utf8.encode (emissionLine build) with
    | .error error => return { err, ending := .unhandled (.unencodable error) }
    | .ok _ => return {
        out := [emissionLine build]
        err := err ++ (if arguments.debug then [size] else [])
        ending := .exit 0 }

/-- Carries out a command. -/
def run (arguments : Arguments) : m Report := do
  match ← arguments.load with
  | .error fault => return Report.ofFault [] fault
  | .ok (g, options) =>
    let compiled := arguments.compile g options
    let err := Log.ofEvents arguments.debug compiled.events
    match compiled.outcome, arguments.build with
    | .error failure, _ => return Report.ofFault err (.compilation failure)
    | .ok (_, g, _), none => return arguments.finishCheck compiled g err
    | .ok (_, g, _), some build => arguments.finishBuild build g err

end Arguments

/-- Carries out the command line with these words. -/
def CommandLine.run {m : Type → Type} [Monad m] [Files m] (words : List Text) : m Report :=
  match Arguments.read words with
  | .error fault => return { ending := .usage fault }
  | .ok arguments => arguments.run

end PegCompiler
