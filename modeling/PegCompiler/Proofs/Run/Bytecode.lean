import PegCompiler.Proofs.Code.Encoding
import PegCompiler.Proofs.Run.Simulation

/-!
The bytecode of a grammar and what it does. `Grammar.bytecode?` reads the words of the rules back; for
a grammar that was prepared and lowered, every run of a rule on the machine is the run of its
expression (`Scene.Compiled.rule_runs`), and gets where the expression may (`Scene.rule_steps`).
-/

namespace PegCompiler

/-- What the user functions and the classes of a grammar mean, and the switches of a run. -/
structure Semantics where
  meaning : UserFunction → UserCode
  matcher : CharClass → ClassMatcher
  cache : Bool := false
  trace : Bool := false

namespace Grammar

/-- The program in the words and the tables of a grammar, in which references go to places. -/
def bytecode? (g : Grammar) (semantics : Semantics) : Option Program := do
  let tables ← g.tables
  let rules ← g.rules.mapM fun r => return (r.name, ← Instr.decode? (← r.words))
  let entries ← tables.expectations.mapM Program.entry?
  return {
    rules, entries
    literals := tables.literals
    matchers := tables.classes.map semantics.matcher
    functions := tables.functions.map semantics.meaning
    starts := []
    cache := semantics.cache
    trace := semantics.trace }

/-- The grammar as it comes out of lowering. -/
def compiled (settings : Settings) (g : Grammar) : Grammar :=
  (Pass.lowering.run settings (g.prepare settings)).grammar

theorem compiled_eq (settings : Settings) (g : Grammar) :
    g.compiled settings = (g.prepare settings).lower.1 := by
  simp only [compiled, Pass.run]

end Grammar

namespace Scene

/-- The program of the scene is the bytecode of its grammar. -/
structure Compiled (scene : Scene) (tables : Tables) : Prop where
  implements : scene.program.Implements scene tables
  length : scene.program.rules.length = scene.grammar.rules.length
  rule : ∀ (i : Nat) (r : Rule), scene.grammar.rules[i]? = some r →
    ∃ code, scene.program.rules[i]? = some (r.name, code) ∧
      Lowered ⟨scene.grammar.placeOf, tables⟩ r.setting [] r.body code

end Scene

theorem Tables.Textual.entries {tables : Tables} (textual : tables.Textual) :
    ∃ entries, tables.expectations.mapM Program.entry? = some entries ∧
      ∀ (i : Nat) (expectation : Expectation), tables.expectations[i]? = some expectation →
        entries[i]? = Program.entry? expectation := by
  have known := textual.expectations
  generalize tables.expectations = expectations at known
  induction expectations with
  | nil => exact ⟨[], rfl, by simp⟩
  | cons first rest ih =>
    obtain ⟨entries, found, same⟩ := ih fun e he => known e (by simp [he])
    obtain ⟨entry, here⟩ : ∃ entry, Program.entry? first = some entry := by
      have := known first (by simp)
      cases first with
      | unknown => exact absurd this id
      | _ => exact ⟨_, rfl⟩
    refine ⟨entry :: entries, by simp [List.mapM_cons, here, found], fun i expectation at? => ?_⟩
    cases i with
    | zero =>
      obtain rfl : first = expectation := by simpa using at?
      simp [here]
    | succ i => simpa using same i expectation (by simpa using at?)

theorem Lower.decoded {lowered : Rule → List Instr → Prop} {rules encoded : List Rule}
    (all : List.Forall₂ (Lower.EncodedBy lowered) rules encoded) :
    ∃ decoded : List (Text × List Instr),
      (encoded.mapM fun r => return (r.name, ← Instr.decode? (← r.words))) = some decoded ∧
        List.Forall₂ (fun r entry => entry.1 = r.name ∧ lowered r entry.2) rules decoded := by
  induction all with
  | nil => exact ⟨[], rfl, .nil⟩
  | @cons r r' _ _ here _ ih =>
    obtain ⟨code, rfl, lowered⟩ := here
    obtain ⟨decoded, found, all⟩ := ih
    refine ⟨(r.name, code) :: decoded, ?_, .cons ⟨rfl, lowered⟩ all⟩
    rw [List.mapM_cons, found]
    simp [Instr.decode?_encode]

/-- Rules with the words of their codes, and tables that go with them, have bytecode. -/
theorem Grammar.bytecode_of_encoded {g : Grammar} {lowered : Rule → List Instr → Prop}
    {rules : List Rule} {tables : Tables} (textual : tables.Textual)
    (encoded : List.Forall₂ (Lower.EncodedBy lowered) g.rules rules) (semantics : Semantics) :
    ∃ program : Program,
      ({ g with rules, tables := some tables } : Grammar).bytecode? semantics = some program ∧
      program.cache = semantics.cache ∧ program.trace = semantics.trace ∧
      (∀ prune admits, program.Implements
        ⟨program, g, semantics.meaning, semantics.matcher, prune, admits⟩ tables) ∧
      program.rules.length = g.rules.length ∧
      ∀ (i : Nat) (r : Rule), g.rules[i]? = some r →
        ∃ code, program.rules[i]? = some (r.name, code) ∧ lowered r code := by
  obtain ⟨entries, known, same⟩ := textual.entries
  obtain ⟨decoded, found, all⟩ := Lower.decoded encoded
  obtain ⟨length, each⟩ := List.forall₂_iff_get.mp all
  let program : Program := {
    rules := decoded
    entries := entries
    literals := tables.literals
    matchers := tables.classes.map semantics.matcher
    functions := tables.functions.map semantics.meaning
    starts := []
    cache := semantics.cache
    trace := semantics.trace }
  refine ⟨program, ?_, rfl, rfl, fun _ _ => ⟨rfl, rfl, rfl, same⟩, length.symm, fun i r at? => ?_⟩
  · simp only [Option.bind_eq_bind] at found
    simp only [Grammar.bytecode?, Option.bind_eq_bind, Option.bind_some, found, known]
    rfl
  · obtain ⟨bound, rfl⟩ := List.getElem?_eq_some_iff.mp at?
    obtain ⟨name, lowered⟩ := each i bound (length ▸ bound)
    exact ⟨_, List.getElem?_eq_some_iff.mpr ⟨length ▸ bound, Prod.ext name rfl⟩, lowered⟩

/-- A prepared grammar has bytecode, and its program goes with it. -/
theorem Grammar.Prepared.bytecode {g : Grammar} (prepared : g.Prepared) (semantics : Semantics) :
    ∃ program tables, g.lower.1.bytecode? semantics = some program ∧
      program.cache = semantics.cache ∧ program.trace = semantics.trace ∧ ∀ prune admits,
      Scene.Compiled ⟨program, g, semantics.meaning, semantics.matcher, prune, admits⟩ tables := by
  obtain ⟨rules, tables, lowered, textual, encoded⟩ := prepared.lower
  obtain ⟨program, reads, cache, trace, implements, length, each⟩ :=
    Grammar.bytecode_of_encoded textual encoded semantics
  exact ⟨program, tables, by rw [lowered]; exact reads, cache, trace,
    fun prune admits => ⟨implements prune admits, length, each⟩⟩

theorem Grammar.placeOf_spec {g : Grammar} {name : Text} {r : Rule} (found : g.find? name = some r) :
    ∃ i : Nat, g.placeOf name = i ∧ g.rules[i]? = some r := by
  unfold Grammar.find? at found
  rw [List.find?_eq_bind_findIdx?_getElem?, Option.bind_eq_some_iff] at found
  obtain ⟨i, place, at?⟩ := found
  refine ⟨i, ?_, at?⟩
  rw [Grammar.placeOf, show g.indexOf? name = some i from place]

/-- Runs the rule at `index`, where `body` says what is run for a rule. -/
def Tree.ruleBy (scene : Scene) (body : (Int → Run Outcome) → Nat → Rule → Run Outcome) :
    (fuel : Nat) → (index : Int) → Run Outcome
  | 0, _ => throw .outOfFuel
  | fuel + 1, index => do
    let some place := Index.place? scene.grammar.rules.length index | throw .malformed
    let some r := scene.grammar.rules[place]? | throw .malformed
    called scene.program place r.name (body (ruleBy scene body fuel) fuel r)

namespace Scene

variable {scene : Scene} {input : Text} {source : Option Text}

/-- What is run for a rule: its expression. -/
def body (scene : Scene) (callRule : Int → Run Outcome) (rounds : Nat) (r : Rule) : Run Outcome :=
  Tree.expr scene callRule rounds r.reports none [] r.body

/-- What the memo table may hold in a run of the rules: what may be for their expressions. -/
def course (scene : Scene) (input : Text) (source : Option Text) : Course where
  program := scene.program
  input := input
  source := source
  kept place start out stop := start ≤ stop ∧ stop ≤ input.length ∧
    ∀ r, scene.grammar.rules[place]? = some r → scene.grammar.Moves r.body start out stop

variable (prepared : scene.grammar.Prepared)
  (length : scene.program.rules.length = scene.grammar.rules.length)

theorem rule_at {fuel place : Nat} {index : Int} {r : Rule}
    (here : Index.place? scene.grammar.rules.length index = some place)
    (at? : scene.grammar.rules[place]? = some r) :
    Tree.rule scene (fuel + 1) index = Tree.called scene.program place r.name
      (Tree.expr scene (Tree.rule scene fuel) fuel r.reports none [] r.body) := by
  simp only [Tree.rule, here, at?]

/-- A rule that is not there cannot be run. -/
theorem rule_absent {fuel : Nat} {index : Int}
    (absent : Index.place? scene.grammar.rules.length index = none) :
    Tree.rule scene (fuel + 1) index = throw .malformed := by
  simp only [Tree.rule, absent]

theorem exists_rule {place : Nat} {index : Int}
    (here : Index.place? scene.grammar.rules.length index = some place) :
    ∃ r, scene.grammar.rules[place]? = some r := by
  simp only [Index.place?, Option.ite_none_right_eq_some, Option.some.injEq] at here
  exact ⟨_, List.getElem?_eq_getElem (by omega)⟩

section RuleBy

variable {body : (Int → Run Outcome) → Nat → Rule → Run Outcome}

theorem ruleBy_at {fuel place : Nat} {index : Int} {r : Rule}
    (here : Index.place? scene.grammar.rules.length index = some place)
    (at? : scene.grammar.rules[place]? = some r) :
    Tree.ruleBy scene body (fuel + 1) index = Tree.called scene.program place r.name
      (body (Tree.ruleBy scene body fuel) fuel r) := by
  simp only [Tree.ruleBy, here, at?]

theorem ruleBy_absent {fuel : Nat} {index : Int}
    (absent : Index.place? scene.grammar.rules.length index = none) :
    Tree.ruleBy scene body (fuel + 1) index = throw .malformed := by
  simp only [Tree.ruleBy, absent]

theorem rule_eq (fuel : Nat) : Tree.rule scene fuel = Tree.ruleBy scene scene.body fuel := by
  induction fuel with
  | zero => rfl
  | succ fuel ih =>
    funext index
    cases here : Index.place? scene.grammar.rules.length index with
    | none => rw [rule_absent here, ruleBy_absent here]
    | some place =>
      obtain ⟨r, at?⟩ := exists_rule here
      rw [rule_at here at?, ruleBy_at here at?, ih]
      rfl

/-- The calls of rules get where the expressions of the rules may. -/
def CallsStep (scene : Scene) (input : Text) (source : Option Text) (call : Int → Run Outcome) : Prop :=
  ∀ (name : Text) (r : Rule), scene.grammar.find? name = some r →
    (scene.course input source).Steps (call (scene.grammar.placeOf name)) (scene.grammar.Moves r.body)

/-- What is run for a rule gets where its expression may, if the calls do. -/
def BodiesStep (scene : Scene) (input : Text) (source : Option Text)
    (body : (Int → Run Outcome) → Nat → Rule → Run Outcome) : Prop :=
  ∀ call fuel, scene.CallsStep input source call → ∀ r ∈ scene.grammar.rules,
    (scene.course input source).Steps (body call fuel r) (scene.grammar.Moves r.body)

variable (steps : scene.BodiesStep input source body)

/-- The memo table may hold for a rule what its calls give. -/
theorem callsStep_of_kept {call : Int → Run Outcome}
    (each : ∀ index, (scene.course input source).Steps (call index) fun s out t =>
      ∀ place, Index.place? scene.grammar.rules.length index = some place →
        (scene.course input source).kept place s out t) : scene.CallsStep input source call := by
  intro name r found
  obtain ⟨i, place, at?⟩ := Grammar.placeOf_spec found
  refine (each _).mono fun s out t kept => (kept i ?_).2.2 r at?
  exact place ▸ Index.place?_natCast (List.getElem?_eq_some_iff.mp at?).1

include length steps in
/-- Every run of a rule gets where its expression may. -/
theorem ruleBy_steps (fuel : Nat) (index : Int) :
    (scene.course input source).Steps (Tree.ruleBy scene body fuel index) fun s out t =>
      ∀ place, Index.place? scene.grammar.rules.length index = some place →
        (scene.course input source).kept place s out t := by
  induction fuel generalizing index with
  | zero => exact fun w _ => .throw
  | succ fuel ih =>
    cases here : Index.place? scene.grammar.rules.length index with
    | none =>
      rw [ruleBy_absent here]
      exact fun w _ => .throw
    | some place =>
      obtain ⟨r, at?⟩ := exists_rule here
      have bound := (List.getElem?_eq_some_iff.mp at?).1
      have steps : (scene.course input source).Steps
          (body (Tree.ruleBy scene body fuel) fuel r) ((scene.course input source).kept place) := by
        intro w valid
        refine (steps _ fuel (callsStep_of_kept ih) r (List.mem_of_getElem? at?) w valid).mono
          fun out later reaches => ⟨reaches.follows, ?_⟩
        refine ⟨?_, reaches.follows.valid.upper, fun q same => ?_⟩
        · have moves := reaches.moves
          cases out with
          | none => exact Int.le_of_eq moves.1.symm
          | some _ => exact moves.1
        · obtain rfl := Option.some.inj (at?.symm.trans same)
          exact reaches.moves
      rw [ruleBy_at here at?]
      have within : ∀ s out t, (scene.course input source).kept place s out t →
          s ≤ t ∧ t ≤ input.length := fun s out t kept => ⟨kept.1, kept.2.1⟩
      have inside : place < (scene.course input source).program.rules.length := length ▸ bound
      refine (Course.called_steps inside within steps).mono fun s out t kept other same => ?_
      cases same
      exact kept

end RuleBy

include prepared in
theorem body_bodiesStep : scene.BodiesStep input source scene.body := fun _ _ calls r member =>
  Course.body_steps calls prepared.judged (prepared.soundBody member) r.reports none []

include prepared length in
theorem rule_steps (fuel : Nat) (index : Int) :
    (scene.course input source).Steps (Tree.rule scene fuel index) fun s out t =>
      ∀ place, Index.place? scene.grammar.rules.length index = some place →
        (scene.course input source).kept place s out t := by
  rw [rule_eq]
  exact ruleBy_steps length (body_bodiesStep prepared) fuel index

include prepared length in
theorem calls_steps (fuel : Nat) : scene.CallsStep input source (Tree.rule scene fuel) :=
  callsStep_of_kept (rule_steps prepared length fuel)

end Scene

namespace Machine

theorem rule_at {program : Program} {fuel place : Nat} {index : Int} {name : Text}
    {code : List Instr} (here : Index.place? program.rules.length index = some place)
    (at? : program.rules[place]? = some (name, code)) :
    rule program (fuel + 1) index =
      Tree.called program place name (body program (rule program fuel) fuel code) := by
  simp only [rule, here, at?]
  rfl

theorem go_block (program : Program) (call : Int → Run Outcome) (fuel : Nat) (code : List Instr)
    (w : World) : Run.go (body program call fuel code) w =
      (Exec.go (block program call fuel code) {} w).andThen fun (_, frame) after =>
        Run.go (match frame.results with
          | [outcome] => pure outcome
          | _ => throw .malformed) after := Run.go_bind ..

/-- Code that pushes an outcome gives that outcome. -/
theorem go_body {program : Program} {call : Int → Run Outcome} {fuel : Nat} {code : List Instr}
    {run : Run Outcome} {w : World} (pushes : Pushes program call fuel code {} run w) :
    Run.go (body program call fuel code) w = Run.go run w := by
  rw [go_block, pushes, Ended.andThen_assoc]
  rcases Run.go run w with ⟨_ | out, after⟩ <;> rfl

end Machine

namespace Scene

variable {scene : Scene} {tables : Tables} {input : Text} {source : Option Text}

/-- The code of a rule does what is run for the rule, if the calls of rules do the same. -/
def BodiesRun (scene : Scene) (input : Text) (source : Option Text)
    (body : (Int → Run Outcome) → Nat → Rule → Run Outcome) : Prop :=
  ∀ (i : Nat) (r : Rule), scene.grammar.rules[i]? = some r →
    ∃ code, scene.program.rules[i]? = some (r.name, code) ∧
      ∀ (call call' : Int → Run Outcome) (fuel : Nat),
        (∀ index w, (scene.course input source).Valid w → Run.go (call index) w = Run.go (call' index) w) →
        scene.CallsStep input source call' → ∀ w, (scene.course input source).Valid w →
          Machine.Pushes scene.program call fuel code {} (body call' fuel r) w

/-- A rule does on the machine what is run for it. -/
theorem ruleBy_runs {body : (Int → Run Outcome) → Nat → Rule → Run Outcome}
    (length : scene.program.rules.length = scene.grammar.rules.length)
    (steps : scene.BodiesStep input source body) (runs : scene.BodiesRun input source body)
    (fuel : Nat) (index : Int) (w : World) (valid : (scene.course input source).Valid w) :
    Run.go (Machine.rule scene.program fuel index) w =
      Run.go (Tree.ruleBy scene body fuel index) w := by
  induction fuel generalizing index w with
  | zero => rfl
  | succ fuel ih =>
    cases here : Index.place? scene.grammar.rules.length index with
    | none =>
      rw [ruleBy_absent here]
      simp only [Machine.rule, length, here]
    | some place =>
      obtain ⟨r, at?⟩ := exists_rule here
      obtain ⟨code, found, pushes⟩ := runs place r at?
      rw [Machine.rule_at (length ▸ here) found, ruleBy_at here at?]
      have same : ∀ v, (scene.course input source).Valid v →
          Run.go (Machine.body scene.program (Machine.rule scene.program fuel) fuel code) v =
            Run.go (body (Tree.ruleBy scene body fuel) fuel r) v := fun v valid =>
        Machine.go_body (pushes _ _ fuel ih (callsStep_of_kept (ruleBy_steps length steps fuel)) v valid)
      cases kept : w.kept? scene.program (Machine.memoKey scene.program place w.state.offset) with
      | some entry =>
        obtain ⟨events, ends⟩ := Tree.go_called_kept place r.name kept
        rw [ends, ends]
      | none =>
        obtain ⟨before, behind, ends⟩ := Tree.go_called_anew place r.name kept
        rw [ends, ends, same _ ((Course.Follows.refl valid).noted before).valid]

variable (prepared : scene.grammar.Prepared) (compiled : scene.Compiled tables)
  (faithful : scene.Faithful)

include prepared compiled faithful in
theorem Compiled.rule_runs (fuel : Nat) (index : Int) (w : World)
    (valid : (scene.course input source).Valid w) :
    Run.go (Machine.rule scene.program fuel index) w = Run.go (Tree.rule scene fuel index) w := by
  rw [rule_eq]
  refine ruleBy_runs compiled.length (body_bodiesStep prepared) (fun i r at? => ?_) fuel index w valid
  obtain ⟨code, found, lowered⟩ := compiled.rule i r at?
  refine ⟨code, found, fun call call' fuel agree calls w valid => ?_⟩
  exact Machine.body_simulates compiled.implements rfl faithful agree calls prepared.judged
    (prepared.soundBody (List.mem_of_getElem? at?)) r.setting [] [] code {} w lowered rfl .nil valid

end Scene

end PegCompiler
