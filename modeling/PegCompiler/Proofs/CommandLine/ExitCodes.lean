import PegCompiler.Proofs.CommandLine.Outcome
import PegCompiler.Proofs.Files.Lawful

/-!
How a command ends. Until it writes, a command only looks at the files (`Looks`), and comes to a verdict:
a compilation, or the fault that is in the way (`Arguments.verdict`). The exit code tells which of them
it is, and what the files hold changes only if there is code to be written
(`CommandLine.exits_by_verdict`). Nobody handles a fault while writing or while telling where the code is,
nor a value that an option does not take.
-/

namespace PegCompiler

section Looking

variable {σ α β : Type} {s : σ} {right : α → Prop} {wrong : CommandFault → Prop}

/-- An action leaves everything as it is, and what it gives and its faults are such. -/
def Looks (action : ExceptT CommandFault (StateM σ) α) (s : σ) (right : α → Prop)
    (wrong : CommandFault → Prop) : Prop :=
  ∃ outcome, action.run.run s = (outcome, s) ∧
    match outcome with
    | .ok a => right a
    | .error fault => wrong fault

namespace Looks

variable {action : ExceptT CommandFault (StateM σ) α}

theorem pure {a : α} (h : right a) : Looks (pure a) s right wrong := ⟨.ok a, rfl, h⟩

theorem throw {fault : CommandFault} (h : wrong fault) :
    Looks (throw fault : ExceptT CommandFault (StateM σ) α) s right wrong := ⟨.error fault, rfl, h⟩

theorem bind {next : α → ExceptT CommandFault (StateM σ) β} {right' : β → Prop}
    (first : Looks action s right wrong) (then' : ∀ a, right a → Looks (next a) s right' wrong) :
    Looks (action >>= next) s right' wrong := by
  obtain ⟨outcome, looks, holds⟩ := first
  cases outcome with
  | ok a =>
    obtain ⟨outcome, looks', holds⟩ := then' a holds
    refine ⟨outcome, Eq.trans ?_ looks', holds⟩
    rw [ExceptT.run_bind, StateT.run_bind, looks]
    rfl
  | error fault =>
    refine ⟨.error fault, ?_, holds⟩
    rw [ExceptT.run_bind, StateT.run_bind, looks]
    rfl

theorem lift {action : StateM σ α} (still : (action.run s).2 = s) :
    Looks (liftM action) s (fun _ => True) wrong :=
  ⟨.ok (action.run s).1, Prod.ext rfl still, trivial⟩

/-- What an action gives is what it gives. -/
theorem itself (looks : Looks action s right wrong) :
    Looks action s (fun a => (action.run.run s).1 = .ok a ∧ right a) wrong := by
  obtain ⟨outcome, looks, holds⟩ := looks
  refine ⟨outcome, looks, ?_⟩
  cases outcome with
  | ok a => exact ⟨by rw [looks], holds⟩
  | error fault => exact holds

theorem mono {right' : α → Prop} {wrong' : CommandFault → Prop} (looks : Looks action s right wrong)
    (imp : ∀ a, right a → right' a) (imp' : ∀ fault, wrong fault → wrong' fault) :
    Looks action s right' wrong' := by
  obtain ⟨outcome, looks, holds⟩ := looks
  refine ⟨outcome, looks, ?_⟩
  cases outcome with
  | ok a => exact imp a holds
  | error fault => exact imp' fault holds

end Looks

end Looking

theorem run_of_eq {σ α β : Type} {action : StateM σ α} {next : α → StateM σ β} {s after : σ} {a : α}
    (ran : action.run s = (a, after)) : (action >>= next).run s = (next a).run after := by
  rw [StateT.run_bind, ran]
  rfl

theorem run_lift {σ α β : Type} {action : StateM σ α} {next : α → ExceptT CommandFault (StateM σ) β}
    {s after : σ} {a : α} (ran : action.run s = (a, after)) :
    ((liftM action : ExceptT CommandFault (StateM σ) α) >>= next).run.run s = (next a).run.run after := by
  have lifted : (liftM action : ExceptT CommandFault (StateM σ) α).run.run s = (.ok a, after) := by
    change ((fun x : α × σ => ((.ok x.1 : Except CommandFault α), x.2)) (action.run s)) = _
    rw [ran]
  rw [ExceptT.run_bind, StateT.run_bind, lifted]
  rfl

namespace Arguments

section Reading

variable {σ α : Type} [Files (StateM σ)] {held : σ → α} (lawful : Files.Lawful held)
  (arguments : Arguments) (s : σ)

/-- The option file gives an option a value that the option does not take. -/
def Mistypes : Prop := ∃ fields,
  ((readOptions arguments.optionFile : ExceptT CommandFault (StateM σ) _).run.run s).1 = .ok fields ∧
    ¬Options.FieldsTyped fields

include lawful

theorem readFile_looks (path : Text) : Looks (readFile path) s (fun _ => True) CommandFault.IsTold := by
  refine Looks.bind (Looks.lift (lawful.read _ s)) fun answer _ => ?_
  cases answer with
  | ok bytes => exact .pure trivial
  | error trouble => exact .throw trivial

theorem readGrammar_looks (path : Text) : Looks (readGrammar path) s
    (fun g => ∃ text source, Grammar.read text source = .ok g) CommandFault.IsTold := by
  refine Looks.bind (readFile_looks lawful s path) fun bytes _ => ?_
  cases Text.readGrammar bytes with
  | error error => exact .throw trivial
  | ok text =>
    cases read : Grammar.read text (some path) with
    | error error => simpa only [read] using .throw trivial
    | ok g => simpa only [read] using .pure ⟨text, _, read⟩

theorem readOptions_looks (file : Option Text) :
    Looks (readOptions file) s (fun _ => True) CommandFault.IsTold := by
  unfold readOptions
  split
  · exact .pure trivial
  · exact .pure trivial
  · refine Looks.bind (readFile_looks lawful s _) fun bytes _ => ?_
    cases Text.read bytes with
    | error error => exact .throw trivial
    | ok text =>
      dsimp only
      split
      · exact .throw trivial
      · exact .pure trivial
      · exact .throw trivial

/-- What a command reads is a grammar, and options with values that they take unless the file has
others. -/
theorem load_looks : Looks arguments.load s
    (fun loaded => (∃ text source, Grammar.read text source = .ok loaded.1) ∧
      (loaded.2.Typed ∨ arguments.Mistypes s))
    fun fault => fault.IsTold ∨ fault.IsMistyped ∧ arguments.Mistypes s := by
  refine Looks.bind ((readGrammar_looks lawful s _).mono (fun _ => id) fun _ => .inl) fun g read => ?_
  refine Looks.bind ((readOptions_looks lawful s _).itself.mono (fun _ => id) fun _ => .inl)
    fun fields ⟨given, _⟩ => ?_
  cases options : arguments.options fields with
  | error fault =>
    refine .throw ((options_fails options).imp_right ?_)
    rintro ⟨mistyped, not⟩
    exact ⟨mistyped, fields, given, not⟩
  | ok options' =>
    refine .pure ⟨read, ?_⟩
    by_cases typed : Options.FieldsTyped fields
    · rcases options_of_typed arguments typed with ⟨same, ok, typed⟩ | ⟨key, unknown⟩
      · cases options.symm.trans ok
        exact .inl typed
      · cases options.symm.trans unknown
    · exact .inr ⟨fields, given, typed⟩

end Reading

section Writing

variable {σ α : Type} [Files (StateM σ)] {held : σ → α}

/-- What the files hold is as it was, or one write has changed it: that of the code, or of nothing at all
if the code has no bytes. -/
def WritesOnly (held : σ → α) (path : Path) (code : Text) (before after : σ) : Prop :=
  held after = held before ∨ ∃ made bytes, held made = held before ∧
    after = ((Files.write path bytes : StateM σ _).run made).2 ∧
    (Utf8.encode code = .ok bytes ∨ bytes = [] ∧ ∃ error, Utf8.encode code = .error error)

variable (lawful : Files.Lawful held)

include lawful

/-- Code that is written can be read. -/
theorem writeCode_ends (path : Path) (code : Text) (s : σ) :
    let ended := (writeCode path code : ExceptT CommandFault (StateM σ) Unit).run.run s
    (ended.1 = .ok () →
      ∃ bytes, Utf8.encode code = .ok bytes ∧ Files.content ended.2 path = .ok bytes) ∧
    WritesOnly held path code s ended.2 := by
  have keeps := Files.makeDirectories_keeps lawful path.parent s
  rcases makes : (Files.makeDirectories path.parent : StateM σ _).run s with ⟨fault | ⟨⟨⟩⟩, made⟩
  · have ended : (writeCode path code : ExceptT CommandFault (StateM σ) Unit).run.run s =
        (.error (.file fault), made) := run_lift makes
    rw [makes] at keeps
    rw [ended]
    exact ⟨nofun, .inl keeps⟩
  · have behind : (writeCode path code : ExceptT CommandFault (StateM σ) Unit).run.run s = _ :=
      run_lift makes
    rw [makes] at keeps
    cases encoded : Utf8.encode code with
    | ok bytes =>
      simp only [encoded] at behind
      rcases writes : (Files.write path bytes : StateM σ _).run made with ⟨trouble | ⟨⟨⟩⟩, after⟩
      all_goals
        rw [behind.trans (run_lift writes)]
        refine ⟨?_, .inr ⟨made, bytes, keeps, by rw [writes]; rfl, .inl encoded⟩⟩
      · exact nofun
      · exact fun _ => ⟨bytes, rfl, lawful.written writes⟩
    | error error =>
      simp only [encoded] at behind
      rcases writes : (Files.write path [] : StateM σ _).run made with ⟨trouble | ⟨⟨⟩⟩, after⟩
      all_goals
        rw [behind.trans (run_lift writes)]
        exact ⟨nofun, .inr ⟨made, [], keeps, by rw [writes]; rfl, .inr ⟨rfl, error, encoded⟩⟩⟩

end Writing

section Run

variable {σ α : Type} [Files (StateM σ)] {held : σ → α} (arguments : Arguments) (s : σ)

/-- What a command comes to before it writes: the fault of what it reads, or how its compilation ends. -/
def verdict : Except CommandFault (Settings × Grammar × List (Option OutputKind × Result)) :=
  ((arguments.load : ExceptT CommandFault (StateM σ) _).run.run s).1 >>= fun loaded =>
    (arguments.compile loaded.1 loaded.2).outcome.mapError .compilation

/-- How it goes to write this code, which only a command that builds does. -/
def writing (code : Text) : Except CommandFault Unit × σ :=
  match arguments.build with
  | none => (.ok (), s)
  | some build =>
    (writeCode (Path.ofText build.output) code : ExceptT CommandFault (StateM σ) Unit).run.run s

/-- How it goes to tell where the code is, which comes behind the writing. -/
def telling : Option BuildArguments → Except CommandFault Unit
  | none => .ok ()
  | some build =>
    match Utf8.encode (emissionLine build) with
    | .ok _ => .ok ()
    | .error error => .error (.unencodable error)

variable {arguments s} {settings : Settings} {g : Grammar} {results : List (Option OutputKind × Result)}
  {fault : CommandFault} (lawful : Files.Lawful held)

include lawful

variable (arguments s) in
/-- A command has a fault of what it reads, or a grammar that was read and options for it. -/
theorem load_cases :
    (∃ fault, (arguments.load : ExceptT CommandFault (StateM σ) _).run.run s = (.error fault, s) ∧
      (fault.IsTold ∨ fault.IsMistyped ∧ arguments.Mistypes s) ∧ arguments.verdict s = .error fault) ∨
    ∃ g options, (arguments.load : ExceptT CommandFault (StateM σ) _).run.run s = (.ok (g, options), s) ∧
      (∃ text source, Grammar.read text source = .ok g) ∧ (options.Typed ∨ arguments.Mistypes s) ∧
      arguments.verdict s = (arguments.compile g options).outcome.mapError .compilation := by
  obtain ⟨outcome, looks, holds⟩ := load_looks lawful arguments s
  unfold verdict
  rw [looks]
  cases outcome with
  | error fault => exact .inl ⟨fault, rfl, holds, rfl⟩
  | ok loaded => exact .inr ⟨loaded.1, loaded.2, rfl, holds.1, holds.2, rfl⟩

/-- A fault before writing is a rejection, or one that is told, or an option has a value that it does
not take. The report is about it, and everything is as it was. -/
theorem run_fails (fails : arguments.verdict s = .error fault) :
    ((∃ rejection, fault = .compilation (.rejected rejection)) ∨ fault.IsTold ∨
      fault.IsMistyped ∧ arguments.Mistypes s) ∧
    ∃ err, (arguments.run : StateM σ Report).run s = (Report.ofFault err fault, s) := by
  rcases load_cases arguments s lawful with
    ⟨first, loads, kind, same⟩ | ⟨g, options, loads, ⟨text, source, read⟩, typed, same⟩
  · cases fails.symm.trans same
    exact ⟨.inr kind, [], run_of_eq loads⟩
  · cases compiled : (arguments.compile g options).outcome with
    | ok =>
      rw [same, compiled] at fails
      cases fails
    | error failure =>
      rw [same, compiled] at fails
      cases fails
      refine ⟨?_, Log.ofEvents arguments.debug (arguments.compile g options).events,
        (run_of_eq loads).trans ?_⟩
      · rcases compile_fails read compiled with ⟨rejection, rfl⟩ | invalid | ⟨mistyped, not⟩
        · exact .inl ⟨rejection, rfl⟩
        · exact .inr (.inl invalid)
        · exact .inr (.inr ⟨mistyped, typed.resolve_left not⟩)
      · simp only [compiled]
        rfl

omit lawful in
theorem finishBuild_ends (arguments : Arguments) (build : BuildArguments) (g : Grammar) (err : List Text)
    (s : σ) :
    let ended := (writeCode (Path.ofText build.output) (g.code.getD []) :
      ExceptT CommandFault (StateM σ) Unit).run.run s
    ((arguments.finishBuild build g err : StateM σ Report).run s).1.ending =
        (match ended.1 >>= fun _ => telling (some build) with
          | .ok () => .exit 0
          | .error fault => .unhandled fault) ∧
      ((arguments.finishBuild build g err : StateM σ Report).run s).2 = ended.2 := by
  rcases ended : (writeCode (Path.ofText build.output) (g.code.getD []) :
    ExceptT CommandFault (StateM σ) Unit).run.run s with ⟨fault | ⟨⟨⟩⟩, after⟩
  all_goals
    have run : (arguments.finishBuild build g err : StateM σ Report).run s = _ := run_of_eq ended
    rw [run]
  · exact ⟨rfl, rfl⟩
  · change _ = (match telling (some build) with
      | .ok () => Ending.exit 0
      | .error fault => .unhandled fault) ∧ _
    rw [telling]
    cases Utf8.encode (emissionLine build) <;> exact ⟨rfl, rfl⟩

/-- A command that has compiled something goes on to write it if it builds. -/
theorem run_compiles (ok : arguments.verdict s = .ok (settings, g, results)) :
    (arguments.build.isSome = true →
      ∃ code, g.code = some code ∧ results = [(none, .source (some code))]) ∧
    ((arguments.run : StateM σ Report).run s).1.ending =
      (match (arguments.writing s (g.code.getD [])).1 >>= fun _ => telling arguments.build with
        | .ok () => .exit 0
        | .error fault => .unhandled fault) ∧
    ((arguments.run : StateM σ Report).run s).2 = (arguments.writing s (g.code.getD [])).2 := by
  rcases load_cases arguments s lawful with
    ⟨first, -, -, same⟩ | ⟨g', options, loads, ⟨text, source, read⟩, -, same⟩
  · cases ok.symm.trans same
  · cases compiled : (arguments.compile g' options).outcome with
    | error failure =>
      rw [same, compiled] at ok
      cases ok
    | ok result =>
      rw [same, compiled] at ok
      cases ok
      refine ⟨fun builds => compile_builds read builds compiled, ?_⟩
      have run : (arguments.run : StateM σ Report).run s = _ := run_of_eq loads
      simp only [compiled] at run
      rw [run, writing]
      cases arguments.build with
      | none => exact ⟨rfl, rfl⟩
      | some build => exact finishBuild_ends arguments build g _ s

/-- What comes of writing: only a command that builds writes, and it writes what it has compiled. -/
theorem writing_ends (builds : arguments.build.isSome = true →
      ∃ code, g.code = some code ∧ results = [(none, .source (some code))]) :
    let wrote := arguments.writing s (g.code.getD [])
    (∀ build, arguments.build = some build → wrote.1 = .ok () → ∃ code bytes,
      results = [(none, .source (some code))] ∧ Utf8.encode code = .ok bytes ∧
        Files.content wrote.2 (Path.ofText build.output) = .ok bytes) ∧
    (wrote.2 = s ∨ ∃ build code, arguments.build = some build ∧
      results = [(none, .source (some code))] ∧
        WritesOnly held (Path.ofText build.output) code s wrote.2) := by
  unfold writing
  cases building : arguments.build with
  | none => exact ⟨nofun, .inl rfl⟩
  | some build =>
    obtain ⟨code, has, rfl⟩ := builds (by rw [building]; rfl)
    rw [has]
    obtain ⟨content, writes⟩ := writeCode_ends lawful (Path.ofText build.output) code s
    refine ⟨fun same is wrote => ?_, .inr ⟨build, code, rfl, rfl, writes⟩⟩
    obtain rfl := Option.some.inj is
    obtain ⟨bytes, encoded, read⟩ := content wrote
    exact ⟨code, bytes, rfl, encoded, read⟩

end Run

end Arguments

namespace CommandFault

variable {fault : CommandFault}

theorem exitCode?_of_told (told : fault.IsTold) : fault.exitCode? = some 2 := by
  cases fault with
  | compilation failure =>
    cases failure with
    | options error =>
      cases error with
      | noElements | misplaced => exact absurd told id
      | _ => rfl
    | _ => exact absurd told id
  | dependency error =>
    cases error with
    | notPairs => exact absurd told id
    | notPair => rfl
  | unencodable => exact absurd told id
  | _ => rfl

theorem exitCode?_of_mistyped (mistyped : fault.IsMistyped) : fault.exitCode? = none := by
  cases fault with
  | compilation failure =>
    cases failure with
    | options error | emission error =>
      cases error <;> first | rfl | exact absurd mistyped id
    | startRule => rfl
    | _ => exact absurd mistyped id
  | dependency error =>
    cases error with
    | notPairs => rfl
    | notPair => exact absurd mistyped id
  | _ => exact absurd mistyped id

end CommandFault

theorem Report.ending_ofFault (err : List Text) (fault : CommandFault) :
    (Report.ofFault err fault).ending =
      match fault.exitCode? with
      | some code => .exit code
      | none => .unhandled fault := by
  unfold ofFault
  cases fault.exitCode? <;> rfl

namespace CommandLine

variable {σ α : Type} [Files (StateM σ)] {held : σ → α}

/-- A command whose words are in order is through if it exits with zero, and the code that it has built
can be read then where it was to be written. It exits with one exactly if the grammar is rejected, and with
two exactly for what a user is told of. What nobody handles is a value that an option does not take, a
fault while writing, or, when the code is written already, one while telling where it is. What the files
hold does not change unless there is code to be written. -/
theorem exits_by_verdict (lawful : Files.Lawful held) {words : List Text} {arguments : Arguments}
    (reads : Arguments.read words = .ok arguments) (before : σ) :
    let verdict := arguments.verdict before
    let ended := (run words : StateM σ Report).run before
    (ended.1.ending = .exit 0 ↔ ∃ settings g results, verdict = .ok (settings, g, results) ∧
      (arguments.writing before (g.code.getD [])).1 = .ok () ∧
        Arguments.telling arguments.build = .ok ()) ∧
    (ended.1.ending = .exit 1 ↔ ∃ rejection, verdict = .error (.compilation (.rejected rejection))) ∧
    (ended.1.ending = .exit 2 ↔ ∃ fault, verdict = .error fault ∧ fault.IsTold) ∧
    (ended.1.ending = .exit 0 ∨ ended.1.ending = .exit 1 ∨ ended.1.ending = .exit 2 ∨
      ∃ fault, ended.1.ending = .unhandled fault ∧
        (verdict = .error fault ∧ arguments.Mistypes before ∨
          ∃ settings g results, verdict = .ok (settings, g, results) ∧
            ((arguments.writing before (g.code.getD [])).1 = .error fault ∨
              (arguments.writing before (g.code.getD [])).1 = .ok () ∧
                Arguments.telling arguments.build = .error fault))) ∧
    (∀ build, arguments.build = some build → ended.1.ending = .exit 0 →
      ∃ settings g code bytes, verdict = .ok (settings, g, [(none, .source (some code))]) ∧
        Utf8.encode code = .ok bytes ∧ Files.content ended.2 (Path.ofText build.output) = .ok bytes) ∧
    (ended.2 = before ∨ ∃ build settings g code, arguments.build = some build ∧
      verdict = .ok (settings, g, [(none, .source (some code))]) ∧
        Arguments.WritesOnly held (Path.ofText build.output) code before ended.2) := by
  intro verdict ended
  have ran : ended = (arguments.run : StateM σ Report).run before := by
    change (run words : StateM σ Report).run before = _
    rw [run, reads]
  cases is : verdict with
  | error fault =>
    obtain ⟨kind, err, report⟩ := Arguments.run_fails lawful is
    have ending : ended.1.ending = (Report.ofFault err fault).ending := by rw [ran, report]
    have same : ended.2 = before := by rw [ran, report]
    rw [Report.ending_ofFault] at ending
    rcases kind with ⟨rejection, rfl⟩ | told | ⟨mistyped, mistypes⟩
    · replace ending : ended.1.ending = .exit 1 := ending
      simp [ending, same, CommandFault.IsTold, Failure.IsInvalid]
    · have accepted : ∀ rejection, fault ≠ .compilation (.rejected rejection) := by
        rintro rejection rfl
        exact told
      rw [CommandFault.exitCode?_of_told told] at ending
      simp [ending, same, told, accepted]
    · have accepted : ∀ rejection, fault ≠ .compilation (.rejected rejection) := by
        rintro rejection rfl
        exact mistyped
      have code := CommandFault.exitCode?_of_mistyped mistyped
      have untold : ¬fault.IsTold := by
        intro told
        cases (CommandFault.exitCode?_of_told told).symm.trans code
      rw [code] at ending
      simp [ending, same, mistypes, accepted, untold]
  | ok result =>
    obtain ⟨settings, g, results⟩ := result
    obtain ⟨builds, ending, behind⟩ := Arguments.run_compiles lawful is
    obtain ⟨content, writes⟩ := Arguments.writing_ends (s := before) lawful builds
    rw [← ran] at ending behind
    rw [← behind] at content writes
    refine ⟨?through, ?rejected, ?told, ?other, ?read, ?changes⟩
    case read =>
      intro build building exits
      cases wrote : (arguments.writing before (g.code.getD [])).1 with
      | ok done =>
        obtain ⟨code, bytes, rfl, holds⟩ := content build building wrote
        exact ⟨settings, g, code, bytes, rfl, holds⟩
      | error fault =>
        rw [wrote] at ending
        cases exits.symm.trans ending
    case changes =>
      refine writes.imp_right ?_
      rintro ⟨build, code, building, rfl, changed⟩
      exact ⟨build, settings, g, code, building, rfl, changed⟩
    all_goals
      cases wrote : (arguments.writing before (g.code.getD [])).1 with
      | error fault => simp [ending, wrote, Bind.bind, Except.bind]
      | ok done =>
        cases told : Arguments.telling arguments.build <;>
          simp [ending, wrote, told, Bind.bind, Except.bind]

def sampleTree : FileTree where
  files := [([.ofString "g.peg"], (Text.ofString "a = 'x'").map CodePoint.toNat)]

/-- Builds a parser from the grammar of the sample. -/
def sampleWords (output : Text) : List Text := [.ofString "build", .ofString "g.peg", .ofString "-o", output]

def sampleRun (output : Text) : Report × FileTree :=
  (run (sampleWords output) : StateM FileTree Report).run sampleTree

theorem exists_of_sampleRun {output : Text} (holds : Arguments → Ending → Bool)
    (passes : (Arguments.read (sampleWords output)).toOption.any
      (holds · (sampleRun output).1.ending) = true) :
    ∃ arguments, Arguments.read (sampleWords output) = .ok arguments ∧
      holds arguments (sampleRun output).1.ending = true := by
  cases reads : Arguments.read (sampleWords output) with
  | error fault => simp [reads, Except.toOption] at passes
  | ok arguments => exact ⟨arguments, rfl, by simpa [reads, Except.toOption] using passes⟩

/-- A parser is written to the output, for which a directory is made. -/
def writesTo (output : Text) (arguments : Arguments) : Ending → Bool
  | .exit 0 => arguments.build.any (·.output == output)
  | _ => false

theorem sample_exits : ∃ arguments settings g code bytes,
    Arguments.read (sampleWords "d/a.py") = .ok arguments ∧ (sampleRun "d/a.py").1.ending = .exit 0 ∧
    arguments.verdict sampleTree = .ok (settings, g, [(none, .source (some code))]) ∧
    Utf8.encode code = .ok bytes ∧
    Files.content (sampleRun "d/a.py").2 (Path.ofText "d/a.py") = .ok bytes := by
  obtain ⟨arguments, reads, writes⟩ := exists_of_sampleRun (writesTo (.ofString "d/a.py"))
    (show (Arguments.read (sampleWords "d/a.py")).toOption.any _ = true by decide +kernel)
  cases exits : (sampleRun "d/a.py").1.ending with
  | usage | unhandled =>
    rw [exits] at writes
    cases writes
  | exit code =>
    rw [exits] at writes
    unfold writesTo at writes
    split at writes
    · rename_i zero
      obtain ⟨build, building, output⟩ := (Option.any_eq_true _ _).mp writes
      obtain ⟨-, -, -, -, content, -⟩ := exits_by_verdict FileTree.lawful reads sampleTree
      obtain ⟨settings, g, code, bytes, built, encoded, read⟩ := content build building (exits.trans zero)
      rw [beq_iff_eq.mp output] at read
      exact ⟨arguments, settings, g, code, bytes, reads, zero, built, encoded, read⟩
    · cases writes

def meetsDirectory (_ : Arguments) : Ending → Bool
  | .unhandled (.file ⟨.directory, _⟩) => true
  | _ => false

/-- What cannot be written, here because a directory has that name, nobody tells the user of. -/
theorem directory_escapes : ∃ arguments path, Arguments.read (sampleWords ".") = .ok arguments ∧
    (sampleRun ".").1.ending = .unhandled (.file ⟨.directory, path⟩) := by
  obtain ⟨arguments, reads, escapes⟩ := exists_of_sampleRun meetsDirectory
    (show (Arguments.read (sampleWords ".")).toOption.any _ = true by decide +kernel)
  unfold meetsDirectory at escapes
  split at escapes
  · rename_i path ending
    exact ⟨arguments, path, reads, ending⟩
  · cases escapes

end CommandLine

end PegCompiler
