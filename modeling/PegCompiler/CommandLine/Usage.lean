import PegCompiler.CommandLine.Token

/-!
How the command line is used, and what is said to someone who uses it otherwise.
-/

namespace PegCompiler

namespace Flag

/-- The spellings of a flag, and a word for its value. -/
def shown (flag : Flag) : Text :=
  let spellings := Text.join ", " flag.spellings
  if flag.takesValue then spellings ++ " VALUE" else spellings

/-- What a flag is for. -/
def purpose : Flag → Text
  | help => "show how the command line is used"
  | startRules => "the rules a parse can start with, separated by commas"
  | optionFile => "a file with options as a JSON object"
  | debug => "show what the compiler does"
  | output => "the file that the parser is written to"
  | cache => "remember the results of rules"
  | trace => "report the rules that are entered and left"
  | format => "bare or module"
  | dependency => "a module that the parser imports, as VARIABLE:MODULE"
  | exportVar => "the variable that holds the parser"

end Flag

namespace UsageFault

def exitCode : UsageFault → Nat
  | help => 0
  | _ => 2

def message : UsageFault → Text
  | help => "help was asked for"
  | noCommand => "a command is missing"
  | unknownCommand word => "there is no command " ++ word
  | ambiguousFlag word => "several flags begin with " ++ word
  | valueMissing flag => "a value is missing: " ++ flag.shown
  | valueUnexpected flag value => "a value is not expected: " ++ flag.shown ++ " " ++ value
  | unknownFormat value => "there is no format " ++ value
  | noFile => "a grammar file is missing"
  | noOutput => "a value is missing: " ++ Flag.output.shown
  | leftOver words => "not understood: " ++ Text.join " " words

end UsageFault

namespace CommandLine

def flagLine (flag : Flag) : Text := "  " ++ flag.shown ++ ": " ++ flag.purpose

/-- The lines that explain the command line. -/
def usage : List Text :=
  List.map Text.ofString ["usage: check FILE [flags]", "       build FILE -o OUTPUT [flags]", "",
    "flags:"]
  ++ [Flag.help, .debug, .startRules, .optionFile].map flagLine
  ++ [Text.ofString "", Text.ofString "flags of build:"]
  ++ [Flag.output, .cache, .trace, .format, .dependency, .exportVar].map flagLine

end CommandLine

end PegCompiler
