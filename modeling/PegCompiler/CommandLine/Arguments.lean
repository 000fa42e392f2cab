import PegCompiler.CommandLine.Token
import PegCompiler.Options

/-!
The arguments of a command. `check` looks at a grammar; `build` also writes the parser and takes the
flags that say how. Words are taken from left to right: a flag takes its value from the word behind
it, the first value that no flag takes is the grammar file. What is left over or missing is found
at the end only, so that help, once it is reached, comes first.
-/

namespace PegCompiler

/-- What `build` is told besides. -/
structure BuildArguments where
  output : Text
  cache : Bool := false
  trace : Bool := false
  format : Option ModuleFormat := none
  dependencies : List Text := []
  exportVar : Option Text := none
  deriving Repr

structure Arguments where
  file : Text
  startRules : Option Text := none
  optionFile : Option Text := none
  debug : Bool := false
  /-- Nothing for `check`. -/
  build : Option BuildArguments := none
  deriving Repr

inductive Command
  | check
  | build
  deriving DecidableEq, Repr

namespace Command

def ofText? (t : Text) : Option Command :=
  [(Text.ofString "check", check), ("build", build)].lookup t

def flags : Command → List Flag
  | check => [.help, .startRules, .optionFile, .debug]
  | build => [.help, .startRules, .optionFile, .debug, .output, .cache, .trace, .format,
      .dependency, .exportVar]

end Command

/-- The words of a command taken so far: flags with their values in order, the first value that
belongs to no flag, and what is of no use. -/
structure Taken where
  flags : List (Flag × Text) := []
  file : Option Text := none
  leftOver : List Text := []
  deriving Repr

namespace Taken

/-- Takes a flag with its value, which is empty for a flag without one. -/
def add (taken : Taken) (flag : Flag) (value : Text) : Except UsageFault Taken :=
  match flag with
  | .help => .error .help
  | .format =>
    match ModuleFormat.ofValue? value with
    | some _ => .ok { taken with flags := taken.flags ++ [(flag, value)] }
    | none => .error (.unknownFormat value)
  | _ => .ok { taken with flags := taken.flags ++ [(flag, value)] }

def leave (taken : Taken) (word : Text) : Taken :=
  { taken with leftOver := taken.leftOver ++ [word] }

end Taken

/-- The flags of one word. The last one may still need the next word; letters that are no flags
are left over. -/
structure Opened where
  flags : List (Flag × Text) := []
  needs : Option Flag := none
  leftOver : Option Text := none
  deriving Repr

namespace Opened

/-- A flag of one letter without a value lets further ones follow; `before` are those in front. -/
def ofShort (known : List Flag) (before : List (Flag × Text)) (flag : Flag) :
    (behind : Text) → Except UsageFault Opened
  | [] =>
    if flag.takesValue then .ok { flags := before, needs := some flag }
    else .ok { flags := before ++ [(flag, [])] }
  | letter :: rest =>
    if flag.takesValue then
      let value := if letter = Token.equalsSign then rest else letter :: rest
      .ok { flags := before ++ [(flag, value)] }
    else if letter = Token.equalsSign ∨ letter = Token.dash then
      .error (.valueUnexpected flag (letter :: rest))
    else match Flag.spelled? known [Token.dash, letter] with
      | some next => ofShort known (before ++ [(flag, [])]) next rest
      | none =>
        .ok { flags := before ++ [(flag, [])], leftOver := some (Token.dash :: letter :: rest) }

def ofLong (flag : Flag) : (attached : Option Text) → Except UsageFault Opened
  | none => .ok (if flag.takesValue then { needs := some flag } else { flags := [(flag, [])] })
  | some value =>
    if flag.takesValue then .ok { flags := [(flag, value)] }
    else .error (.valueUnexpected flag value)

def ofWord (known : List Flag) : FlagWord → Except UsageFault Opened
  | .long flag attached => ofLong flag attached
  | .short flag behind => ofShort known [] flag behind

end Opened

namespace Taken

/-- Takes the flags of one word. -/
def addOpened (taken : Taken) (opened : Opened) : Except UsageFault Taken :=
  let taken := match opened.leftOver with
    | none => taken
    | some word => taken.leave word
  opened.flags.foldlM (fun taken (flag, value) => taken.add flag value) taken

/-- Takes the words of a command. The mark is of use only next to the grammar file. -/
def takeAll (known : List Flag) (taken : Taken) : List Token → Except UsageFault Taken
  | [] => .ok taken
  | .flag word :: rest => do
    let opened ← Opened.ofWord known word
    match opened.needs, rest with
    | none, rest => takeAll known (← taken.addOpened opened) rest
    | some needy, .value value :: rest =>
      takeAll known (← (← taken.addOpened opened).add needy value) rest
    | some needy, _ => .error (.valueMissing needy)
  | .unknownFlag word :: rest => takeAll known (taken.leave word) rest
  | .value word :: rest =>
    match taken.file, rest with
    | none, .mark :: rest => takeAll known { taken with file := some word } rest
    | none, rest => takeAll known { taken with file := some word } rest
    | some _, rest => takeAll known (taken.leave word) rest
  | .mark :: rest =>
    match taken.file, rest with
    | none, .value word :: rest => takeAll known { taken with file := some word } rest
    | _, rest => takeAll known (taken.leave Token.doubleDash) rest

/-- The value of a flag; of several the last one counts. -/
def last? (taken : Taken) (flag : Flag) : Option Text :=
  (taken.flags.reverse.find? (·.1 = flag)).map (·.2)

def has (taken : Taken) (flag : Flag) : Bool := taken.flags.any (·.1 = flag)

def buildArguments (taken : Taken) (output : Text) : BuildArguments := {
  output
  cache := taken.has .cache
  trace := taken.has .trace
  format := (taken.last? .format).bind fun t => ModuleFormat.ofValue? t
  dependencies := (taken.flags.filter (·.1 = .dependency)).map (·.2)
  exportVar := taken.last? .exportVar }

def arguments (taken : Taken) (command : Command) : Except UsageFault Arguments := do
  let some file := taken.file | throw .noFile
  let build ← match command, taken.last? .output with
    | .check, _ => pure none
    | .build, none => throw .noOutput
    | .build, some output => pure (some (taken.buildArguments output))
  if taken.leftOver ≠ [] then throw (.leftOver taken.leftOver)
  return {
    file, build
    startRules := taken.last? .startRules
    optionFile := taken.last? .optionFile
    debug := taken.has .debug }

end Taken

namespace Arguments

def ofCommand (command : Command) (words : List Text) : Except UsageFault Arguments := do
  let taken ← Taken.takeAll command.flags {} (← Token.ofWords command.flags words)
  taken.arguments command

/-- In front of the command only help is known; other flags there are left over. -/
def readFrom (leftOver : List Text) : List Text → Except UsageFault Arguments
  | [] => .error .noCommand
  | word :: rest =>
    if word = Token.doubleDash then .error (.unknownCommand word)
    else match Token.ofWord [.help] word with
      | .error fault => .error fault
      | .ok (.value word) =>
        match Command.ofText? word with
        | none => .error (.unknownCommand word)
        | some command => do
          let arguments ← ofCommand command rest
          if leftOver ≠ [] then throw (.leftOver leftOver)
          return arguments
      | .ok (.flag word) =>
        match Opened.ofWord [.help] word with
        | .error fault => .error fault
        | .ok _ => .error .help
      | .ok (.unknownFlag word) => readFrom (leftOver ++ [word]) rest
      | .ok .mark => .error (.unknownCommand word)

/-- The arguments that the words of a command line stand for. -/
def read (words : List Text) : Except UsageFault Arguments := readFrom [] words

end Arguments

end PegCompiler
