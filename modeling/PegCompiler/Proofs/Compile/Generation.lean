import PegCompiler.Proofs.Emit.Shapes
import PegCompiler.Proofs.Run.Correctness

/-!
Compiling does not fail behind the checks. A grammar that was read from a text and has passed the
checks goes through all stages: every rule gets well nested words, whose references are to rules and
whose emission ends with the one result of the rule (`Grammar.compiles`). Each part of the module is
written without a fault, given what lowering has put into the tables.
-/

namespace PegCompiler

/-- Dependencies as they are declared: names with the texts of their paths. -/
def Settings.DependsOnTexts (settings : Settings) : Prop :=
  ∃ fields : List (Text × Value), settings.dependencies = .record fields ∧
    ∀ field ∈ fields, ∃ path, field.2 = .text path

/-- An action that gets through for every element of a list gets through. -/
theorem exists_mapM_ok {α β ε : Type} (f : α → Except ε β) (as : List α)
    (each : ∀ a ∈ as, ∃ b, f a = .ok b) : ∃ bs, as.mapM f = .ok bs := by
  induction as with
  | nil => exact ⟨[], rfl⟩
  | cons a rest ih =>
    obtain ⟨b, here⟩ := each a (by simp)
    obtain ⟨bs, others⟩ := ih fun a member => each a (by simp [member])
    exact ⟨b :: bs, by rw [List.mapM_cons, here, others]; rfl⟩

namespace Emit

/-- Members that are single code points have a pattern. -/
theorem pattern_ok {members : CharClass} (ordered : ∀ part ∈ members.parts, part.IsOrdered) :
    ∃ pattern, ClassPattern.pattern members = .ok pattern := by
  obtain ⟨parts, written⟩ := exists_mapM_ok ClassPattern.part members.parts fun part member => by
    cases part with
    | loose texts => exact absurd (ordered _ member) id
    | _ => exact ⟨_, rfl⟩
  exact ⟨_, by rw [ClassPattern.pattern, written]; rfl⟩

theorem constants_ok {tables : Tables} (textual : tables.Textual) :
    ∃ lines, constants tables = .ok lines := by
  obtain ⟨classes, written⟩ := exists_mapM_ok (fun (entry : CharClass × Nat) =>
      classConstant entry.2 entry.1) tables.classes.zipIdx fun entry member => by
    obtain ⟨pattern, found⟩ := pattern_ok (textual.classes entry.1 (List.fst_mem_of_mem_zipIdx member)).2
    exact ⟨_, by rw [classConstant, found]⟩
  obtain ⟨entries, written'⟩ := exists_mapM_ok (fun (entry : Expectation × Nat) => (do
      return "_e" ++ Text.ofNat entry.2 ++ " = " ++ (← expectation entry.1) : Except ModuleFault Text))
      tables.expectations.zipIdx fun entry member => by
    have known := textual.expectations entry.1 (List.fst_mem_of_mem_zipIdx member)
    obtain ⟨entry, index⟩ := entry
    cases entry with
    | unknown => exact absurd known id
    | _ => exact ⟨_, rfl⟩
  exact ⟨_, by simp only [constants, written, written']; rfl⟩

theorem dependencyLines_ok {settings : Settings} (typed : settings.DependsOnTexts) :
    ∃ lines, dependencyLines settings.dependencies = .ok lines := by
  obtain ⟨fields, record, texts⟩ := typed
  rw [record]
  refine exists_mapM_ok _ _ fun field member => ?_
  obtain ⟨name, value⟩ := field
  obtain ⟨path, rfl⟩ : ∃ path, value = .text path := texts _ member
  exact ⟨_, rfl⟩

theorem wrapped_ok {settings : Settings} (typed : settings.DependsOnTexts) (topLevel : List Text) :
    ∃ lines, wrapped settings topLevel = .ok lines := by
  unfold wrapped
  split
  · exact ⟨_, rfl⟩
  · obtain ⟨lines, written⟩ := dependencyLines_ok typed
    exact ⟨_, by rw [written]; rfl⟩

/-- A rule whose one result is the first slot has a parse function. -/
theorem ruleFunction_ok {context : EmitContext} {settings : Settings} {index : Nat} {r : Rule}
    {words : List Word} {statements : List Statement} {emission : Emission}
    (has : r.words = some words) (emitted : rule context r.name words = (.ok statements, emission))
    (used : 0 ≤ emission.results.highest) :
    ∃ lines, ruleFunction context settings index r = .ok lines := by
  have found : (result .results).run.run emission = (.ok ⟨.results, 0⟩, emission) := by
    change Does (result .results) emission ⟨.results, 0⟩ emission
    simp [result, used]
  exact ⟨_, by simp only [ruleFunction, has, emitted, found]; rfl⟩

end Emit

/-- Words change no names. -/
theorem Lower.names_of_encoded {lowered : Rule → List Instr → Prop} {rules encoded : List Rule}
    (all : List.Forall₂ (EncodedBy lowered) rules encoded) :
    encoded.map Rule.name = rules.map Rule.name := by
  induction all with
  | nil => rfl
  | cons here _ ih =>
    obtain ⟨code, rfl, -⟩ := here
    rw [List.map_cons, List.map_cons, ih]

namespace Grammar

variable {g : Grammar} {settings : Settings}

/-- What generation has made of a rule: well nested words, in which every reference is to a rule, and
whose emission ends with one result and no position on the stacks. -/
def Generates (g : Grammar) (tables : Tables) (r : Rule) : Prop :=
  ∃ words code statements emission, r.words = some words ∧ Instr.decode? words = some code ∧
    Instr.RowOps (Op.IsValid g.rules.length) code ∧
    Emit.rule ⟨tables.literals, g.ruleNames⟩ r.name words = (.ok statements, emission) ∧
    emission.results.top = 0 ∧ emission.positions.top = -1

/-- All but the frame of the module can be written if every rule has a parse function. -/
theorem topLevel_ok {tables : Tables} (has : g.tables = some tables)
    (textual : tables.Textual) (each : ∀ r ∈ g.rules, ∀ index, ∃ lines,
      Emit.ruleFunction ⟨tables.literals, g.ruleNames⟩ settings index r = .ok lines) :
    ∃ body, Emit.topLevel g settings = .ok body := by
  obtain ⟨constants, written⟩ := Emit.constants_ok textual
  obtain ⟨rules, defined⟩ := exists_mapM_ok (fun r => (do
      return [] :: (← Emit.ruleFunction ⟨tables.literals, g.ruleNames⟩ settings
        ((g.indexOf? r.name).getD 0) r) : Except ModuleFault (List Text))) g.rules
    fun r member => by
      obtain ⟨lines, found⟩ := each r member ((g.indexOf? r.name).getD 0)
      exact ⟨_, by rw [found]; rfl⟩
  obtain ⟨define, defines⟩ : ∃ lines, Emit.defineFunction g tables settings = .ok lines :=
    ⟨_, by simp only [Emit.defineFunction, defined]; rfl⟩
  exact ⟨_, by simp only [Emit.topLevel, has, written, defines]; rfl⟩

theorem emit_eq {body : List Text} (whole : Emit.topLevel g settings = .ok body) :
    g.emit settings = (Emit.wrapped settings body).map fun lines => Text.unlines lines ++ [Text.newline] := by
  rw [emit, whole]
  change (Emit.wrapped settings body).bind _ = _
  cases Emit.wrapped settings body <;> rfl

/-- The module can be written if every rule has a parse function. -/
theorem emit_ok {tables : Tables} (typed : settings.DependsOnTexts) (has : g.tables = some tables)
    (textual : tables.Textual) (each : ∀ r ∈ g.rules, ∀ index, ∃ lines,
      Emit.ruleFunction ⟨tables.literals, g.ruleNames⟩ settings index r = .ok lines) :
    ∃ text, g.emit settings = .ok text := by
  obtain ⟨body, whole⟩ := topLevel_ok has textual each
  obtain ⟨lines, wraps⟩ := Emit.wrapped_ok typed body
  exact ⟨Text.unlines lines ++ [Text.newline], by rw [emit_eq whole, wraps]; rfl⟩

/-- What lowering leaves behind generates. -/
theorem Prepared.generates (prepared : g.Prepared) :
    ∃ lowered tables, g.lower = (lowered, none) ∧ lowered.tables = some tables ∧ tables.Textual ∧
      ∀ r ∈ lowered.rules, lowered.Generates tables r ∧ ∀ (settings : Settings) (index : Nat), ∃ lines,
        Emit.ruleFunction ⟨tables.literals, lowered.ruleNames⟩ settings index r = .ok lines := by
  obtain ⟨rules, tables, lowers, textual, encoded⟩ := prepared.lower
  refine ⟨_, tables, lowers, rfl, textual, fun r member => ?_⟩
  obtain ⟨length, each⟩ := List.forall₂_iff_get.mp encoded
  have names : ({ g with rules, tables := some tables } : Grammar).ruleNames = g.ruleNames :=
    Lower.names_of_encoded encoded
  obtain ⟨i, here, rfl⟩ := List.getElem_of_mem member
  have before : i < g.rules.length := length ▸ here
  obtain ⟨code, same, lowered⟩ := each i before here
  simp only [List.get_eq_getElem] at same lowered
  let context : EmitContext := ⟨tables.literals, g.ruleNames⟩
  have rooms : ∀ name, g.defines name = true → 0 ≤ g.placeOf name ∧
      g.placeOf name < context.ruleNames.length := by
    intro name defined
    obtain ⟨q, found⟩ := Option.isSome_iff_exists.mp defined
    obtain ⟨place, same, at?⟩ := placeOf_spec found
    have bound := (List.getElem?_eq_some_iff.mp at?).1
    rw [same]
    simp only [context, ruleNames, List.length_map]
    omega
  have pushes : Emit.Pushes context (-1) code := Emit.pushes_of_lowered rfl rooms _
    (prepared.accepted.resolves _ (List.getElem_mem before)) _ [] code lowered Environment.within_nil
    (Int.le_refl _)
  have emits := pushes (-1) (Int.le_refl _)
  obtain ⟨statements, emission, emitted, results, positions, used⟩ := emits.rule rules[i].name
  have has : rules[i].words = some (Instr.encode code) := by rw [same]
  rw [names]
  refine ⟨⟨_, code, statements, emission, has, Instr.decode?_encode code, ?_, ?_, results, positions⟩,
    fun settings index => Emit.ruleFunction_ok has emitted used⟩
  · simpa [context, ruleNames, length] using emits.1
  · rw [names]
    exact emitted

/-- A grammar that was read and has passed the checks goes through all stages, whatever the settings
are. The generated words of every rule are well nested and refer to rules only, and the emission of a
rule ends with one result and no position on its stacks. -/
theorem compiles {text : Text} {source : Option Text} (read : Grammar.read text source = .ok g)
    (typed : settings.DependsOnTexts) (checked : (Stage.check.run settings g).failure = none) :
    (Stage.runAll settings g Stage.standard).failure = none ∧
    ∃ tables written, (Stage.runAll settings g Stage.standard).grammar.tables = some tables ∧
      (Stage.runAll settings g Stage.standard).grammar.code = some written ∧
      ∀ r ∈ (Stage.runAll settings g Stage.standard).grammar.rules,
        (Stage.runAll settings g Stage.standard).grammar.Generates tables r := by
  have preparation := preparation_of_read read checked
  obtain ⟨lowered, tables, lowers, has, textual, each⟩ := preparation.prepared.generates
  obtain ⟨written, emitted⟩ := emit_ok typed has textual fun r member => (each r member).2 settings
  have lowering : Pass.lowering.run settings (g.prepare settings) = ⟨lowered, [], none⟩ := by
    simp [Pass.run, lowers]
  have emission : Pass.emission.run settings lowered =
      ⟨{ lowered with code := some written }, [], none⟩ := by
    simp [Pass.run, emitted]
  have alone := check_alone settings g
  obtain ⟨checks, same⟩ := Stage.runAll_of_clear .check
    (.of_alone alone (Stage.clear_of_run alone checked)) [.transform, .generate]
  obtain ⟨transforms, resolved⟩ := Stage.runAll_of_clear .transform
    (.cons preparation.proxies .nil) [.generate]
  obtain ⟨generates, final⟩ := Stage.runAll_of_clear .generate
    (.cons preparation.reporting (.cons preparation.matching (.pass lowering (.pass emission .nil)))) []
  have whole : (Stage.runAll settings g Stage.standard).grammar =
      { lowered with code := some written } := same.trans (resolved.trans final)
  refine ⟨checks.trans (transforms.trans generates), tables, written, ?_⟩
  rw [whole]
  exact ⟨has, rfl, fun r member => (each r member).1⟩

theorem counting_compiles : ∃ g tables r, Grammar.read countingText none = .ok g ∧
    (Stage.check.run plainSettings g).failure = none ∧
    (Stage.runAll plainSettings g Stage.standard).failure = none ∧
    (Stage.runAll plainSettings g Stage.standard).grammar.tables = some tables ∧
    r ∈ (Stage.runAll plainSettings g Stage.standard).grammar.rules ∧ r.name = .ofString "s" ∧
    (Stage.runAll plainSettings g Stage.standard).grammar.Generates tables r := by
  obtain ⟨g, read, checked, passes⟩ := exists_of_accepted
    (show (accepted? plainSettings countingText).any (fun g =>
      (Stage.runAll plainSettings g Stage.standard).grammar.rules.any (·.name == .ofString "s")) = true
        by decide +kernel)
  obtain ⟨r, member, named⟩ := List.any_eq_true.mp passes
  obtain ⟨clear, tables, _, has, -, each⟩ := compiles read ⟨[], rfl, nofun⟩ checked
  exact ⟨g, tables, r, read, checked, clear, has, member, by simpa using named, each r member⟩

end Grammar

end PegCompiler
