import PegCompiler.Compile.Stage

/-!
A whole compilation, from options to the outputs that were asked for. Diagnostics go to a collector
of the caller, which may take some kinds of them only, and to the record of the stage.
-/

namespace PegCompiler

/-- The kinds of diagnostics that a caller's collector takes. -/
abbrev Collector := List Severity

inductive Result
  /-- A loaded parser: the rules it can start with, and the names its module exports. -/
  | parser (startRules : List Value) (exported : List Text)
  | source (code : Option Text)
  | tree (grammar : Grammar)

/-- The diagnostics that a collector receives in the course of a compilation. -/
def Collector.received (collector : Collector) (events : List Event) : List Diagnostic :=
  events.filterMap fun
    | .found diagnostic => if collector.contains diagnostic.severity then some diagnostic else none
    | _ => none

namespace Grammar

/-- The matchers of all classes, if their patterns can be read. -/
def matchers? (g : Grammar) : Option (List ClassMatcher) :=
  ((g.tables.getD {}).classes).mapM fun members =>
    match ClassPattern.pattern members with
    | .ok pattern => ClassMatcher.ofPattern? members.ignoreCase pattern
    | .error _ => none

def result (g : Grammar) (settings : Settings) : OutputKind → Except Failure Result
  | .source => .ok (.source g.code)
  | .tree => .ok (.tree g)
  | .parser =>
    match g.code with
    | none => .error .nothingEmitted
    | some code =>
      let object := Emit.exportedObject? settings
      match Loading.check (g.tables.getD {}).functions object code with
      | .error fault => .error (.loading fault)
      | .ok () =>
        if g.matchers?.isNone then .error .unreadableClass
        else if Loading.hides object "__all__" then .error .hiddenExports
        else .ok (.parser settings.startRules (Emit.exported settings))

/-- One result under no name, or one for every kind asked for, each kind once. -/
def results (g : Grammar) (settings : Settings) :
    Except Failure (List (Option OutputKind × Result)) :=
  match settings.output with
  | .one kind => return [(none, ← g.result settings kind)]
  | .several kinds => kinds.eraseDups.mapM fun kind => return (some kind, ← g.result settings kind)

end Grammar

/-- What a compilation gives: the events on the way, and the outputs with the settings and the
grammar they were made from. -/
structure Compiled where
  events : List Event := []
  outcome : Except Failure (Settings × Grammar × List (Option OutputKind × Result))

/-- A collector has to take something. Only a caller can bring one along, options can not. -/
def Collector.check (given : Value) : Option Collector → Except Failure Unit
  | some collector => if collector.isEmpty then .error .deafCollector else .ok ()
  | none =>
    match given with
    | .null => .ok ()
    | _ => .error .deafCollector

def Grammar.compile (g : Grammar) (stages : List Stage) (options : Options)
    (collector : Option Collector) : Compiled :=
  let prepared : Except Failure Settings := do
    let settings ← (options.resolve g.ruleNames).mapError Failure.options
    Collector.check settings.collector collector
    return settings
  match prepared with
  | .error failure => { outcome := .error failure }
  | .ok settings =>
    let compilation := Stage.runAll settings g stages
    let outcome := match compilation.failure with
      | some failure => .error failure
      | none => do
        let results ← compilation.grammar.results settings
        return (settings, compilation.grammar, results)
    ⟨compilation.events, outcome⟩

end PegCompiler
