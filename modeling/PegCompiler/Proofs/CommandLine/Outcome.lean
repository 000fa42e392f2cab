import PegCompiler.Proofs.Check.Unbroken
import PegCompiler.Proofs.CommandLine.Typing
import PegCompiler.Proofs.Compile.Discipline

/-!
How the compilation of a grammar that was read can end. It rejects the grammar, or an option is not valid,
or a value of the wrong type stops it (`Arguments.compile_fails`); otherwise a command that builds has the
code of a parser (`Arguments.compile_builds`).
-/

namespace PegCompiler

namespace Stage

variable {settings : Settings} {g : Grammar} {stage : Stage} {steps : List Step} {number : Nat}
  {failure : Failure}

theorem Fails.rejects_or_breaks {name : Text} {script : Compilation} {events : List Event}
    (fails : Fails name script events failure) :
    (∃ rejection, failure = .rejected rejection) ∨ script.failure = some failure := by
  cases fails with
  | fatal => exact .inl ⟨_, rfl⟩
  | broken _ broken => exact .inr broken
  | errors => exact .inl ⟨_, rfl⟩

/-- A stage fails with a rejection, or because a step breaks off. -/
theorem rejects_or_breaks (failed : (stage.run settings g).failure = some failure) :
    (∃ rejection, failure = .rejected rejection) ∨ (stage.script settings g).failure = some failure := by
  rcases run_through_or_fails settings g stage with ⟨through, runs⟩ | ⟨same, failed', fails⟩
  · rw [runs, through.failure] at failed
    cases failed
  · obtain rfl := Option.some.inj (failed.symm.trans failed')
    exact fails.rejects_or_breaks

theorem fails_of_broken (broken : (stage.script settings g).failure = some failure) :
    ∃ failed, (stage.run settings g).failure = some failed ∧
      ((∃ rejection, failed = .rejected rejection) ∨ failed = failure) := by
  rcases run_through_or_fails settings g stage with ⟨through, -⟩ | ⟨failed, fails, -⟩
  · exact nomatch through.failure.symm.trans broken
  · refine ⟨failed, fails, (rejects_or_breaks fails).imp_right fun same => ?_⟩
    exact Option.some.inj (same.symm.trans broken)

/-- If steps that leave the grammar alone come to a failure, it is that of one of them. -/
theorem exists_broken (alone : ∀ step ∈ steps, (runStep settings g step).grammar = g)
    (broken : (stepsScript settings number g steps).failure = some failure) :
    ∃ step ∈ steps, (runStep settings g step).failure = some failure := by
  induction steps generalizing number with
  | nil => cases broken
  | cons step rest ih =>
    rw [stepsScript] at broken
    cases failed : (runStep settings g step).failure with
    | some first =>
      rw [failed] at broken
      exact ⟨step, List.mem_cons_self .., failed.trans broken⟩
    | none =>
      rw [failed, alone step (List.mem_cons_self ..)] at broken
      obtain ⟨other, member, failed⟩ := ih (fun s hs => alone s (List.mem_cons_of_mem _ hs)) broken
      exact ⟨other, List.mem_cons_of_mem _ member, failed⟩

/-- Behind steps with clear results only the last one can break off. -/
theorem script_of_clear {before : List Step} {middle : Grammar}
    (clear : Clear settings g before middle) (last : Step) :
    (stepsScript settings number g (before ++ [last])).failure = (runStep settings middle last).failure := by
  induction clear generalizing number with
  | @nil g =>
    rw [List.nil_append, stepsScript]
    cases failed : (runStep settings g last).failure <;> rfl
  | cons here _ ih =>
    rw [List.cons_append, stepsScript, here.failure]
    exact ih

end Stage

namespace Emit

theorem importLine_fails {name : Text} {path : Value} {fault : ModuleFault}
    (fails : importLine name path = .error fault) : fault = .dependencyPath path := by
  cases path with
  | text => cases fails
  | _ =>
    cases fails
    rfl

/-- Only dependencies can be wrong with the frame of a module. -/
theorem wrapped_fails {settings : Settings} {body : List Text} {fault : ModuleFault}
    (fails : wrapped settings body = .error fault) : (Failure.emission fault).IsMistyped := by
  unfold wrapped at fails
  split at fails
  · cases fails
  · rcases error_or_ok_of_bind fails with fails | ⟨_, -, fails⟩
    · unfold dependencyLines at fails
      split at fails
      · obtain ⟨field, -, fails⟩ := exists_of_mapM_error fails
        rw [importLine_fails fails]
        trivial
      · cases fails
        trivial
    · cases fails

end Emit

namespace Grammar

variable {g : Grammar} {settings : Settings} {text : Text} {source : Option Text} {failure : Failure}

/-- The checks of a grammar that was read reject it, unless a start rule is a collection. -/
theorem check_fails (read : Grammar.read text source = .ok g)
    (failed : (Stage.check.run settings g).failure = some failure) :
    (∃ rejection, failure = .rejected rejection) ∨
      ∃ value ∈ settings.startRules, value.isCollection = true ∧ failure = .startRule value := by
  have textual := bodies_of_read read
  refine (Stage.rejects_or_breaks failed).imp_right fun broken => ?_
  obtain ⟨step, member, broken⟩ := Stage.exists_broken (check_alone settings g) broken
  exact check_breaks textual member broken

/-- A module whose inside is written lacks its frame, because of the dependencies. -/
theorem emit_fails {body : List Text} {fault : ModuleFault} (whole : Emit.topLevel g settings = .ok body)
    (fails : g.emit settings = .error fault) :
    (Failure.emission fault).IsMistyped ∧ ¬settings.DependsOnTexts := by
  rw [emit_eq whole] at fails
  cases wraps : Emit.wrapped settings body with
  | ok lines =>
    rw [wraps] at fails
    cases fails
  | error first =>
    rw [wraps] at fails
    cases fails
    refine ⟨Emit.wrapped_fails wraps, fun typed => ?_⟩
    obtain ⟨lines, ok⟩ := Emit.wrapped_ok typed body
    exact nomatch wraps.symm.trans ok

/-- Behind the checks nothing stops a grammar that was read before code is generated. -/
theorem runAll_checked (read : Grammar.read text source = .ok g)
    (checked : (Stage.check.run settings g).failure = none) (rest : List Stage) :
    (Stage.runAll settings g (.check :: .transform :: rest)).failure =
        (Stage.runAll settings (Pass.proxies.run settings g).grammar rest).failure ∧
      (Stage.runAll settings g (.check :: .transform :: rest)).grammar =
        (Stage.runAll settings (Pass.proxies.run settings g).grammar rest).grammar := by
  have alone := check_alone settings g
  obtain ⟨checks, same⟩ := Stage.runAll_of_clear .check
    (.of_alone alone (Stage.clear_of_run alone checked)) (.transform :: rest)
  obtain ⟨transforms, resolved⟩ := Stage.runAll_of_clear .transform
    (.cons (preparation_of_read read checked).proxies .nil) rest
  exact ⟨checks.trans transforms, same.trans resolved⟩

/-- Behind the checks a grammar that was read is compiled to the end, unless the dependencies are not
what they have to be. -/
theorem standard_ends (read : Grammar.read text source = .ok g)
    (checked : (Stage.check.run settings g).failure = none) :
    ((Stage.runAll settings g Stage.standard).failure = none ∧
      ∃ code, (Stage.runAll settings g Stage.standard).grammar.code = some code) ∨
    ∃ failure, (Stage.runAll settings g Stage.standard).failure = some failure ∧
      ((∃ rejection, failure = .rejected rejection) ∨
        failure.IsMistyped ∧ ¬settings.DependsOnTexts) := by
  have preparation := preparation_of_read read checked
  obtain ⟨lowered, tables, lowers, has, textual, each⟩ := preparation.prepared.generates
  have each := fun r member => (each r member).2 settings
  obtain ⟨behind, same⟩ := runAll_checked read checked [.generate]
  change (Stage.runAll settings g Stage.standard).failure = _ at behind
  change (Stage.runAll settings g Stage.standard).grammar = _ at same
  rw [behind, same]
  have lowering : Pass.lowering.run settings (g.prepare settings) = ⟨lowered, [], none⟩ := by
    simp [Pass.run, lowers]
  cases emitted : lowered.emit settings with
  | ok code =>
    have emission : Pass.emission.run settings lowered =
        ⟨{ lowered with code := some code }, [], none⟩ := by
      simp [Pass.run, emitted]
    obtain ⟨clear, final⟩ := Stage.runAll_of_clear .generate (.cons preparation.reporting
      (.cons preparation.matching (.pass lowering (.pass emission .nil)))) []
    exact .inl ⟨clear, code, by rw [final]; rfl⟩
  | error fault =>
    have before : Stage.Clear settings (Pass.proxies.run settings g).grammar
        [.pass .reporting, .pass .matching, .pass .lowering] lowered :=
      .cons preparation.reporting (.cons preparation.matching (.pass lowering .nil))
    have broken : (Stage.generate.script settings (Pass.proxies.run settings g).grammar).failure =
        some (.emission fault) := by
      refine (Stage.script_of_clear before (.pass .emission)).trans ?_
      simp [Stage.runStep, Pass.run, emitted]
    obtain ⟨failure, failed, kind⟩ := Stage.fails_of_broken broken
    refine .inr ⟨failure, by rw [Stage.runAll, failed]; exact failed, kind.imp_right ?_⟩
    rintro rfl
    obtain ⟨body, whole⟩ := topLevel_ok has textual each
    exact emit_fails whole emitted

end Grammar

namespace Arguments

variable {arguments : Arguments} {g : Grammar} {options : Options} {text : Text} {source : Option Text}

theorem output_of_handed {ruleNames : List Text} {settings : Settings}
    (resolves : (arguments.handed options).resolve ruleNames = .ok settings) :
    settings.output = .one (if arguments.build.isSome then .source else .tree) := by
  obtain ⟨-, outputs, -⟩ := Options.resolves_parts resolves
  obtain ⟨file, starts, optionFile, debug, _ | build⟩ := arguments
  · exact (Except.ok.inj outputs).symm
  · exact (Except.ok.inj outputs).symm

/-- A command compiles with the options that it hands on, up to the failure of a stage or the one result
that it asks for. -/
theorem compile_outcome (arguments : Arguments) (g : Grammar) (options : Options) :
    (arguments.compile g options).outcome =
      match (arguments.handed options).resolve g.ruleNames with
      | .error error => .error (.options error)
      | .ok settings =>
        let compilation := Stage.runAll settings g arguments.stages
        match compilation.failure with
        | some failure => .error failure
        | none => .ok (settings, compilation.grammar, [(none, if arguments.build.isSome
            then .source compilation.grammar.code else .tree compilation.grammar)]) := by
  rw [compile_eq, Grammar.compile]
  cases resolves : (arguments.handed options).resolve g.ruleNames with
  | error error => rfl
  | ok settings =>
    have output := output_of_handed resolves
    change (match (Stage.runAll settings g arguments.stages).failure with
      | some failure => (.error failure : Except Failure _)
      | none => (Stage.runAll settings g arguments.stages).grammar.results settings >>= fun results =>
        .ok (settings, (Stage.runAll settings g arguments.stages).grammar, results)) = _
    dsimp only
    cases (Stage.runAll settings g arguments.stages).failure with
    | some failure => rfl
    | none =>
      rw [Grammar.results, output]
      cases arguments.build <;> rfl

theorem typed_handed (typed : options.Typed) : (arguments.handed options).Typed := by
  intro name
  rw [handed, Options.get_set]
  split
  · rename_i output
    exact output ▸ trivial
  · exact typed name

theorem stages_eq (arguments : Arguments) : arguments.stages =
    .check :: .transform :: if arguments.build.isSome then [.generate] else [] := by
  unfold stages
  split <;> rfl

/-- If a grammar that was read is not compiled, then it is rejected, or an option is not valid, or one has
a value that it does not take. -/
theorem compile_fails (read : Grammar.read text source = .ok g) {failure : Failure}
    (fails : (arguments.compile g options).outcome = .error failure) :
    (∃ rejection, failure = .rejected rejection) ∨ failure.IsInvalid ∨
      failure.IsMistyped ∧ ¬options.Typed := by
  rw [compile_outcome] at fails
  split at fails
  · rename_i error refused
    cases fails
    by_cases typed : options.Typed
    · exact .inr (.inl (Options.resolve_invalid (typed_handed typed) refused))
    · exact .inr ((Failure.invalid_or_mistyped error).imp_right fun mistyped => ⟨mistyped, typed⟩)
  · rename_i settings resolves
    have untyped (not : (∃ value ∈ settings.startRules, value.isCollection = true) ∨
        ¬settings.DependsOnTexts) : ¬options.Typed := by
      intro typed
      obtain ⟨names, texts⟩ := Options.settings_typed (typed_handed typed) resolves
      rcases not with ⟨value, member, collection⟩ | not
      · cases collection.symm.trans (names value member)
      · exact not texts
    dsimp only at fails
    split at fails
    · rename_i failed
      cases fails
      cases checked : (Stage.check.run settings g).failure with
      | some first =>
        rw [stages_eq, Stage.runAll, checked] at failed
        obtain rfl := Option.some.inj (checked.symm.trans failed)
        refine (Grammar.check_fails read checked).imp_right ?_
        rintro ⟨value, member, collection, rfl⟩
        exact .inr ⟨trivial, untyped (.inl ⟨value, member, collection⟩)⟩
      | none =>
        rw [stages_eq] at failed
        split at failed
        · rcases Grammar.standard_ends read checked with ⟨clear, -⟩ | ⟨first, fails, kind⟩
          · cases clear.symm.trans failed
          · obtain rfl := Option.some.inj (fails.symm.trans failed)
            refine kind.imp_right ?_
            rintro ⟨mistyped, not⟩
            exact .inr ⟨mistyped, untyped (.inr not)⟩
        · cases (Grammar.runAll_checked read checked []).1.symm.trans failed
    · cases fails

/-- What a command that builds has compiled is code. -/
theorem compile_builds (read : Grammar.read text source = .ok g) (builds : arguments.build.isSome = true)
    {settings : Settings} {h : Grammar} {results : List (Option OutputKind × Result)}
    (ok : (arguments.compile g options).outcome = .ok (settings, h, results)) :
    ∃ code, h.code = some code ∧ results = [(none, .source (some code))] := by
  rw [compile_outcome] at ok
  split at ok
  · cases ok
  · rename_i resolved resolves
    dsimp only at ok
    rw [stages_eq, if_pos builds, if_pos builds] at ok
    split at ok
    · cases ok
    · rename_i through
      cases ok
      cases checked : (Stage.check.run settings g).failure with
      | some first =>
        rw [Stage.runAll, checked] at through
        cases checked.symm.trans through
      | none =>
        rcases Grammar.standard_ends read checked with ⟨-, code, has⟩ | ⟨first, fails, -⟩
        · exact ⟨code, has, congrArg (fun code => [(none, Result.source code)]) has⟩
        · cases through.symm.trans fails

end Arguments

end PegCompiler
