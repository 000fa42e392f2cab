import PegCompiler.Run.Parser
import PegCompiler.Proofs.CommandLine.Outcome
import PegCompiler.Proofs.Emit.ClassPattern
import PegCompiler.Proofs.Proxy.Resolution
import PegCompiler.Proofs.Run.Caching

/-!
What is loaded is the bytecode. Behind the checks a grammar is loaded as the program in its words and
tables, unless the pattern of a class or the code of a user function cannot be read
(`Grammar.load_eq`); the machine does not look at what is added for a parse, the start rules and the
name of the exported object (`Machine.rule_dressed`). So a parser gives for every input what the
bytecode gives from the place of a start rule on (`Grammar.toProgram_parses`).
-/

namespace PegCompiler

/-! ## References -/

namespace Linking

/-- If no two names have the same normal form, every name keeps its place. -/
theorem places_of_nodup {names : List Text} (distinct : (names.map Text.normalForm).Nodup) :
    places names = List.range names.length := by
  unfold places
  generalize normal : names.map Text.normalForm = normals at distinct
  have length : normals.length = names.length := by rw [← normal, List.length_map]
  refine List.ext_getElem (by simp [length]) fun i here _ => ?_
  have inside : i < normals.length := by simpa using here
  have mirrored : normals.length - 1 - i < normals.reverse.length := by
    rw [List.length_reverse]
    omega
  have found : normals.reverse.idxOf normals[i] = normals.length - 1 - i := by
    rw [← (List.nodup_reverse.mpr distinct).idxOf_getElem _ mirrored, List.getElem_reverse]
    congr 2
    omega
  rw [List.getElem_map, List.getElem_range, found]
  omega

variable {rules : Nat}

theorem reference_range {index : Int} (natural : 0 ≤ index) (bound : index < rules) :
    reference (List.range rules) index = index := by
  obtain ⟨i, rfl⟩ := Int.eq_ofNat_of_zero_le natural
  have inside : i < (List.range rules).length := by
    rw [List.length_range]
    omega
  simp only [reference, Index.at?, Index.place?_natCast inside, Option.bind_some,
    List.getElem?_eq_getElem inside, List.getElem_range]

mutual

theorem instr_range (i : Instr) (valid : Instr.AllOps (Op.IsValid rules) i) :
    instr (List.range rules) i = i := by
  match i with
  | .op o =>
    cases o with
    | rule index =>
      obtain ⟨natural, bound⟩ := valid
      rw [instr, reference_range (natural index (by simp [Op.operands])) (bound index rfl)]
    | _ => rfl
  | .branch test yes no => rw [instr, code_range yes valid.1, code_range no valid.2]
  | .loop endless body => rw [instr, code_range body valid]

/-- Code that refers to rules by their places stays as it is. -/
theorem code_range (code : List Instr) (valid : Instr.RowOps (Op.IsValid rules) code) :
    Linking.code (List.range rules) code = code := by
  match code with
  | [] => rfl
  | i :: rest => rw [Linking.code, instr_range i valid.1, code_range rest valid.2]

end

end Linking

/-! ## The machine -/

/-- The program with what a parse looks at before the machine runs. -/
def Program.dressed (program : Program) (starts : List (Value × Nat)) (object : Option Text) : Program :=
  { program with starts, object }

namespace Machine

variable (program : Program) (starts : List (Value × Nat)) (object : Option Text)
  (call : Int → Run Outcome) (fuel : Nat)

theorem op_dressed (o : Op) : op (program.dressed starts object) call o = op program call o := by
  cases o with
  | push constant => cases constant <;> rfl
  | _ => rfl

mutual

theorem instr_dressed (i : Instr) :
    instr (program.dressed starts object) call fuel i = instr program call fuel i := by
  match i with
  | .op o => exact op_dressed program starts object call o
  | .branch test yes no => rw [instr, instr, block_dressed yes, block_dressed no]
  | .loop endless body => rw [instr, instr, block_dressed body]

theorem block_dressed (code : List Instr) :
    block (program.dressed starts object) call fuel code = block program call fuel code := by
  match code with
  | [] => rfl
  | i :: rest => rw [block, block, instr_dressed i, block_dressed rest]

end

/-- The machine does not look at what a program is dressed with. -/
theorem rule_dressed : rule (program.dressed starts object) fuel = rule program fuel := by
  induction fuel with
  | zero => rfl
  | succ fuel ih =>
    funext index
    simp only [rule, ih, body, block_dressed]
    rfl

end Machine

namespace Program

variable (program : Program) (starts : List (Value × Nat)) (object : Option Text)
  (fuel place : Nat) (input : Text) (source : Option Text)

theorem runFrom_dressed (state : ParserState) :
    (program.dressed starts object).runFrom fuel place state = program.runFrom fuel place state := by
  rw [runFrom, runFrom, Machine.rule_dressed]

theorem result_dressed : (program.dressed starts object).result fuel place input source =
    program.result fuel place input source := by
  rw [result, result, runFrom_dressed]

end Program

/-! ## Loading -/

/-- What user functions and classes mean when a grammar is loaded with these settings. -/
def Semantics.loaded (meaning? : UserFunction → Option UserCode) (settings : Settings) : Semantics where
  meaning f := (meaning? f).getD fun _ _ => .error .malformed
  matcher := CharClass.matcher
  cache := settings.cache
  trace := settings.trace

/-- Actions that give the same for all elements of a list give the same for the list. -/
theorem mapM_eq_of_mem {α β : Type} {f f' : α → Option β} {as : List α}
    (same : ∀ a ∈ as, f a = f' a) : as.mapM f = as.mapM f' := by
  induction as with
  | nil => rfl
  | cons a rest ih =>
    obtain ⟨here, others⟩ := List.forall_mem_cons.mp same
    rw [List.mapM_cons, List.mapM_cons, here, ih others]

namespace Grammar

variable {g : Grammar} {settings : Settings} {text : Text} {source : Option Text}

theorem emitted_rules : (g.emitted settings).rules = (g.compiled settings).rules := by
  unfold emitted
  simp only [Pass.run]
  split <;> rfl

/-- Loading keeps the code that was generated for a rule. -/
theorem Generates.rule? {tables : Tables} {r : Rule} (generates : g.Generates tables r) :
    Program.rule? (List.range g.rules.length) r =
      (do return (r.name, ← Instr.decode? (← r.words))) := by
  obtain ⟨words, code, -, -, has, decoded, valid, -⟩ := generates
  simp only [Program.rule?, has, Option.bind_eq_bind, Option.bind_some, decoded,
    Linking.code_range code valid]

theorem start?_of_mem {name : Text} (defined : name ∈ g.ruleNames) :
    ∃ place, Program.start? (List.range g.rules.length) g (.text name) = some (.text name, place) ∧
      g.ruleNames[place]? = some name := by
  obtain ⟨q, member, named⟩ := List.mem_map.mp defined
  have same : (Value.text name).same (.text q.name) = true := by
    rw [named]
    exact beq_self_eq_true name
  have found : (g.rules.findIdx? fun r => (Value.text name).same (.text r.name)).isSome = true :=
    List.findIdx?_isSome ▸ List.any_eq_true.mpr ⟨q, member, same⟩
  obtain ⟨place, found⟩ := Option.isSome_iff_exists.mp found
  obtain ⟨bound, here, -⟩ := List.findIdx?_eq_some_iff_getElem.mp found
  have named : name = g.rules[place].name := eq_of_beq here
  refine ⟨place, ?_, ?_⟩
  · simp [Program.start?, found, bound]
  · simp [ruleNames, bound, named]

/-- Start rules that are names of rules are found, each with the place of the rule. -/
theorem starts_of_defined {starts : List Value}
    (defined : ∀ start ∈ starts, ∃ name ∈ g.ruleNames, start = .text name) :
    ∃ found, starts.mapM (Program.start? (List.range g.rules.length) g) = some found ∧
      found.map Prod.fst = starts ∧
      ∀ entry ∈ found, ∃ name, g.ruleNames[entry.2]? = some name ∧ entry.1 = .text name := by
  induction starts with
  | nil => exact ⟨[], rfl, rfl, nofun⟩
  | cons start rest ih =>
    obtain ⟨⟨name, member, rfl⟩, others⟩ := List.forall_mem_cons.mp defined
    obtain ⟨place, here, at?⟩ := start?_of_mem member
    obtain ⟨found, further, same, all⟩ := ih others
    refine ⟨(.text name, place) :: found, ?_, by rw [List.map_cons, same],
      List.forall_mem_cons.mpr ⟨⟨name, at?, rfl⟩, all⟩⟩
    rw [List.mapM_cons, here, further]
    rfl

section Load

variable {tables : Tables} {meaning? : UserFunction → Option UserCode} {base : Program}
  {starts : List (Value × Nat)}

/-- Where references and start rules are found, a grammar is loaded as its bytecode, unless something
of it cannot be read. -/
theorem load_of_bytecode (has : g.tables = some tables) (textual : tables.Textual)
    (generates : ∀ r ∈ g.rules, g.Generates tables r)
    (distinct : (g.ruleNames.map Text.normalForm).Nodup)
    (reads : g.bytecode? (.loaded meaning? settings) = some base)
    (found : settings.startRules.mapM (Program.start? (List.range g.rules.length) g) = some starts) :
    Program.load meaning? g settings =
      if tables.classes.all CharClass.isPlain then
        if tables.functions.all fun f => (meaning? f).isSome then
          .ok (base.dressed starts (Emit.exportedObject? settings))
        else .error .unreadableCode
      else .error .unreadableClass := by
  have functions : tables.functions.mapM meaning? =
      if tables.functions.all fun f => (meaning? f).isSome then
        some (tables.functions.map (Semantics.loaded meaning? settings).meaning) else none := by
    refine mapM_eq_ite fun f _ => ?_
    cases meant : meaning? f with
    | none => rfl
    | some code => simp [Semantics.loaded, meant]
  have places : Linking.places g.ruleNames = List.range g.rules.length := by
    rw [Linking.places_of_nodup distinct, ruleNames, List.length_map]
  simp only [bytecode?, has, Option.bind_eq_bind, Option.bind_some, Option.bind_eq_some_iff] at reads
  obtain ⟨rules, decoded, entries, known, same⟩ := reads
  have rules : g.rules.mapM (Program.rule? (List.range g.rules.length)) = some rules := by
    rw [mapM_eq_of_mem fun r member => (generates r member).rule?]
    exact decoded
  unfold Program.load
  simp only [has, matchers?_eq has textual, functions, known, places, rules, found]
  cases Option.some.inj same
  cases tables.classes.all CharClass.isPlain <;>
    cases tables.functions.all fun f => (meaning? f).isSome
  all_goals rfl

end Load

theorem compiled_names (read : Grammar.read text source = .ok g)
    (checked : (Stage.check.run settings g).failure = none) :
    (g.compiled settings).ruleNames = (g.prepare settings).ruleNames := by
  obtain ⟨rules, tables, lowered, -, encoded⟩ := (preparation_of_read read checked).prepared.lower
  rw [compiled_eq, lowered]
  exact Lower.names_of_encoded encoded

/-- Behind the checks a grammar is loaded as its bytecode, with all its start rules, unless the pattern
of a class or the code of a user function cannot be read. -/
theorem load_eq (read : Grammar.read text source = .ok g)
    (checked : (Stage.check.run settings g).failure = none)
    (distinct : ((g.prepare settings).ruleNames.map Text.normalForm).Nodup)
    (meaning? : UserFunction → Option UserCode) :
    ∃ tables base starts, (g.compiled settings).tables = some tables ∧
      (g.compiled settings).bytecode? (.loaded meaning? settings) = some base ∧
      starts.map Prod.fst = settings.startRules ∧
      (∀ entry ∈ starts, ∃ name, (g.prepare settings).ruleNames[entry.2]? = some name ∧
        entry.1 = .text name) ∧
      Program.load meaning? (g.emitted settings) settings =
        if tables.classes.all CharClass.isPlain then
          if tables.functions.all fun f => (meaning? f).isSome then
            .ok (base.dressed starts (Emit.exportedObject? settings))
          else .error .unreadableCode
        else .error .unreadableClass := by
  have clear : (Pass.undefinedRules.run settings g).IsClear :=
    Stage.clear_of_run (check_alone settings g) checked (.pass .undefinedRules) (by simp [Stage.check])
  have prepared := (preparation_of_read read checked).prepared
  obtain ⟨base, _, reads, -⟩ := prepared.bytecode (.loaded meaning? settings)
  obtain ⟨lowered, tables, lowers, has, textual, each⟩ := prepared.generates
  have compiled : g.compiled settings = lowered := by rw [compiled_eq, lowers]
  rw [← compiled] at has each
  have names : (g.emitted settings).ruleNames = (g.prepare settings).ruleNames := by
    rw [← compiled_names read checked, ruleNames, emitted_rules, ruleNames]
  have defined : ∀ start ∈ settings.startRules, ∃ name ∈ (g.emitted settings).ruleNames,
      start = .text name := by
    intro start member
    obtain ⟨name, here, rfl⟩ := Check.starts_of_clear (Pass.checked_isClear.mp clear) start member
    refine ⟨name, ?_, rfl⟩
    rw [names]
    exact Proxy.prepare_starts (accepted_of_read read checked) (fresh_of_read read) settings here member
  obtain ⟨starts, found, asked, all⟩ := starts_of_defined defined
  rw [← compiled_eq] at reads
  rw [names] at all
  refine ⟨tables, base, starts, has, reads, asked, all,
    load_of_bytecode ?_ textual ?_ ?_ ?_ found⟩
  · rw [emitted_tables, has]
  · rw [emitted_rules]
    intro r member
    rw [Generates, ruleNames, emitted_rules]
    exact (each r member).1
  · rw [names]
    exact distinct
  · rw [bytecode?, emitted_tables, emitted_rules]
    exact reads

end Grammar

/-! ## Compiling -/

namespace Stage

variable {settings : Settings} {g : Grammar} {stage : Stage} {rest : List Stage} {steps : List Step}
  {number : Nat}

theorem stepsScript_grammar (through : (stepsScript settings number g steps).failure = none) :
    (stepsScript settings number g steps).grammar =
      steps.foldl (fun g step => (runStep settings g step).grammar) g := by
  induction steps generalizing g number with
  | nil => rfl
  | cons step rest ih =>
    rw [stepsScript] at through ⊢
    cases failed : (runStep settings g step).failure with
    | some failure =>
      rw [failed] at through
      cases through
    | none =>
      rw [failed] at through
      exact ih through

/-- A stage that does not fail leaves the grammar as its steps do, one after the other. -/
theorem run_grammar (through : (stage.run settings g).failure = none) :
    (stage.run settings g).grammar =
      stage.steps.foldl (fun g step => (runStep settings g step).grammar) g := by
  rcases run_through_or_fails settings g stage with ⟨clear, same⟩ | ⟨failure, failed, -⟩
  · rw [same]
    exact stepsScript_grammar clear.failure
  · cases through.symm.trans failed

theorem runAll_cons (through : (runAll settings g (stage :: rest)).failure = none) :
    (stage.run settings g).failure = none ∧
      (runAll settings (stage.run settings g).grammar rest).failure = none ∧
      (runAll settings g (stage :: rest)).grammar =
        (runAll settings (stage.run settings g).grammar rest).grammar := by
  rw [runAll] at through ⊢
  cases failed : (stage.run settings g).failure with
  | some failure =>
    simp only [failed] at through
    cases through
  | none =>
    simp only [failed] at through
    exact ⟨rfl, through, rfl⟩

end Stage

namespace Grammar

variable {g : Grammar} {settings : Settings} {options : Options}

/-- If nothing fails, all stages together leave the grammar with its code written. -/
theorem standard_grammar (through : (Stage.runAll settings g Stage.standard).failure = none) :
    (Stage.check.run settings g).failure = none ∧
      (Stage.runAll settings g Stage.standard).grammar = g.emitted settings := by
  obtain ⟨checked, behind, same⟩ := Stage.runAll_cons through
  obtain ⟨resolved, behind, same'⟩ := Stage.runAll_cons behind
  obtain ⟨generated, -, same''⟩ := Stage.runAll_cons behind
  have alone : (Stage.check.run settings g).grammar = g := by
    obtain ⟨-, left⟩ := Stage.run_of_clear
      (.of_alone (check_alone settings g) (Stage.clear_of_run (check_alone settings g) checked))
    exact left
  refine ⟨checked, same.trans (same'.trans (same''.trans ?_))⟩
  rw [Stage.runAll, Stage.run_grammar generated, Stage.run_grammar resolved, alone]
  rfl

theorem compile_ok {stages : List Stage} {h : Grammar} {results : List (Option OutputKind × Result)}
    (ok : (g.compile stages options none).outcome = .ok (settings, h, results)) :
    options.resolve g.ruleNames = .ok settings ∧ (Stage.runAll settings g stages).failure = none ∧
      h = (Stage.runAll settings g stages).grammar := by
  unfold compile at ok
  dsimp only at ok
  split at ok
  · cases ok
  · rename_i resolved prepared
    obtain ⟨settings', resolves, prepared⟩ := exists_of_bind prepared
    obtain ⟨-, -, prepared⟩ := exists_of_bind prepared
    cases prepared
    dsimp only at ok
    split at ok
    · cases ok
    · rename_i through
      obtain ⟨_, -, ok⟩ := exists_of_bind ok
      cases ok
      refine ⟨?_, through, rfl⟩
      cases same : options.resolve g.ruleNames with
      | error error =>
        rw [same] at resolves
        cases resolves
      | ok settings' =>
        rw [same] at resolves
        cases resolves
        rfl

end Grammar

/-! ## Parses -/

/-- Only a text is equal to a text. -/
theorem Value.eq_of_text_same {name : Text} {value : Value} (same : (Value.text name).same value = true) :
    value = .text name := by
  cases value with
  | text other => rw [eq_of_beq (show (name == other) = true from same)]
  | _ => cases same

namespace Program

variable {program : Program} {start : Option Value} {place : Nat}

/-- A parse starts at the place of a start rule that is equal to what was asked for. -/
theorem startPlace_ok (begins : program.startPlace start = .ok place) :
    ∃ entry ∈ program.starts, entry.2 = place ∧
      entry.1.same (start.getD ((program.starts.map Prod.fst).headD .null)) = true := by
  unfold startPlace at begins
  cases hidden : program.hides ["parse", "_START_RULES"] with
  | true =>
    rw [hidden] at begins
    cases begins
  | false =>
    rw [hidden] at begins
    dsimp only at begins
    cases found : program.starts.find?
      (·.1.same (start.getD ((program.starts.map Prod.fst).headD .null))) with
    | none =>
      rw [found] at begins
      cases gone : program.hides ["ValueError"] with
      | true | false =>
        rw [gone] at begins
        cases begins
    | some entry =>
      rw [found] at begins
      cases gone : program.hides ["ParserState", "_init", "_define"] with
      | true =>
        rw [gone] at begins
        cases begins
      | false =>
        rw [gone] at begins
        cases begins
        have same := List.find?_some found
        exact ⟨entry, List.mem_of_find?_eq_some found, rfl, same⟩

/-- A parse that can start gives the result from that place on, and the events on the way. -/
theorem parse_of_start (begins : program.startPlace start = .ok place) (fuel : Nat) (input : Text)
    (source : Option Text) : program.parse fuel input source start = ⟨program.result fuel place input source,
      (program.runFrom fuel place { input, source }).2.events.reverse⟩ := by
  unfold parse result runFrom
  rw [begins]
  rcases ended : (Machine.rule program fuel place).run.run { state := { input, source } } with
    ⟨raised | out, after⟩
  all_goals
    have here : Run.go (Machine.rule program fuel place) { state := { input, source } } = _ := ended
    simp only [ended, here]

end Program

/-- A parser gives for every input what the bytecode of its grammar gives from the place of a start
rule on. -/
theorem Grammar.toProgram_parses {g : Grammar} {text : Text} {source : Option Text} {options : Options}
    {program : Program} (read : Grammar.read text source = .ok g)
    (loads : g.toProgram options = .ok (some program)) :
    ∃ settings, options.resolve g.ruleNames = .ok settings ∧
      (Stage.check.run settings g).failure = none ∧
      (((g.prepare settings).ruleNames.map Text.normalForm).Nodup →
        ∃ base, (g.compiled settings).bytecode? (.loaded Program.userCode? settings) = some base ∧
          ∀ start place, program.startPlace start = .ok place →
            (∃ name, (g.prepare settings).ruleNames[place]? = some name ∧
              start.getD (settings.startRules.headD .null) = .text name) ∧
            ∀ fuel input source, program.parse fuel input source start =
              ⟨base.result fuel place input source,
                (base.runFrom fuel place { input, source }).2.events.reverse⟩) := by
  obtain ⟨⟨settings, h, results⟩, compiles, loads⟩ := exists_of_bind loads
  obtain ⟨resolves, through, rfl⟩ := compile_ok compiles
  obtain ⟨checked, same⟩ := standard_grammar through
  refine ⟨settings, resolves, checked, fun distinct => ?_⟩
  obtain ⟨tables, base, starts, -, reads, given, all, equation⟩ :=
    load_eq read checked distinct Program.userCode?
  have loads : Program.load Program.userCode? (g.emitted settings) settings = .ok program := by
    rw [← same]
    dsimp only at loads
    split at loads
    · obtain ⟨loaded, here, loads⟩ := exists_of_bind loads
      cases loads
      exact here
    · cases loads
  obtain rfl : base.dressed starts (Emit.exportedObject? settings) = program := by
    rw [equation] at loads
    split at loads
    · split at loads
      · exact Except.ok.inj loads
      · cases loads
    · cases loads
  refine ⟨base, reads, fun start place begins => ⟨?_, fun fuel input source => ?_⟩⟩
  · obtain ⟨entry, member, rfl, same⟩ := Program.startPlace_ok begins
    obtain ⟨name, at?, named⟩ := all entry member
    rw [named] at same
    refine ⟨name, at?, ?_⟩
    rw [← given]
    exact Value.eq_of_text_same same
  · rw [Program.parse_of_start begins, Program.result_dressed, Program.runFrom_dressed]

/-- A parser that is loaded and gives a value. -/
example : ((Grammar.read (.ofString "s = 'a' b\nb = 'b'") none).toOption.bind fun g =>
    (g.toProgram {}).toOption.join.bind fun program =>
      (program.parse 9 (.ofString "ab") none none).outcome.toOption).any
        (·.same (.list [.text (.ofString "a"), .text (.ofString "b")])) = true := by
  decide +kernel

end PegCompiler
