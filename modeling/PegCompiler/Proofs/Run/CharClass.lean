import PegCompiler.Proofs.Emit.Shapes
import PegCompiler.Proofs.Run.Foresight

/-!
What a class of code points means, at every stage alike: inference leaves it open exactly where it has
parts, the code that is made for it asks for the pattern of the class exactly there, and that code takes
one code point if the class takes it and none otherwise (`Grammar.charClass_matches`). A class without
parts takes nothing, also if it is inverted (`Grammar.inverted_nothing_fails`): in no stage does the
inversion of a class without parts count.
-/

namespace PegCompiler

/-- The code point is one of those of the part. -/
def ClassPart.Covers (c : CodePoint) : ClassPart → Prop
  | .char d => c = d
  | .range lo hi => lo.toNat ≤ c.toNat ∧ c.toNat ≤ hi.toNat
  | .loose _ => False

namespace CharClass

/-- The code point is in the union of the parts, or it is not and the class is inverted. -/
def Includes (members : CharClass) (c : CodePoint) : Prop :=
  (∃ part ∈ members.parts, part.Covers c) ↔ members.inverted = false

/-- What a class takes at an offset: the code point there if the class includes it, and nothing if the
class has no parts. -/
def Takes (members : CharClass) (input : Text) (offset : Int) (c : CodePoint) : Prop :=
  input[offset.toNat]? = some c ∧ members.parts ≠ [] ∧ members.Includes c

end CharClass

theorem ClassPart.has_iff {c : CodePoint} {part : ClassPart} :
    part.has c = true ↔ part.Covers c := by
  cases part with
  | char d => simp [has, Covers]
  | range lo hi => simp [has, Covers, CodePoint.between]
  | loose texts => simp [has, Covers]

/-- A matcher of the parts of a class accepts what the class includes. -/
theorem ClassMatcher.accepts_iff {members : CharClass} {c : CodePoint} :
    (ClassMatcher.mk members.inverted false members.parts).accepts c = true ↔
      members.Includes c := by
  have found : (members.parts.any fun part => part.has c) = true ↔
      ∃ part ∈ members.parts, part.Covers c := by
    simp only [List.any_eq_true, ClassPart.has_iff]
  unfold CharClass.Includes
  rw [← found]
  simp only [accepts, Bool.false_eq_true, if_false, List.any_cons, List.any_nil, Bool.or_false]
  cases members.parts.any fun part => part.has c <;> cases members.inverted <;> simp

/-- If the class has parts, its pattern matches what the class includes. -/
def Semantics.Denotes (semantics : Semantics) (members : CharClass) : Prop :=
  members.parts ≠ [] → ∀ c, (semantics.matcher members).accepts c = true ↔ members.Includes c

namespace ParserState

variable {s : ParserState}

theorem Inside.peek (inside : s.Inside) : s.peek = .ok s.input[s.offset.toNat]? := by
  have lower := inside.lower
  unfold ParserState.peek
  by_cases behind : (s.input.length : Int) ≤ s.offset
  · rw [if_pos behind, List.getElem?_eq_none (by omega)]
  · have bound : s.offset.toNat < s.input.length := by omega
    have place := Index.place?_natCast bound
    rw [Int.toNat_of_nonneg lower] at place
    simp [behind, Index.at?, place, bound]

/-- A class takes the code point at the position if its matcher accepts it. -/
theorem Inside.matchClass_eq (inside : s.Inside) (matcher : ClassMatcher) :
    s.matchClass matcher = .ok (match s.input[s.offset.toNat]? with
      | some c => if matcher.accepts c then (some [c], s.advance 1) else (none, s)
      | none => (none, s)) := by
  have head : s.rest.head? = s.input[s.offset.toNat]? := by rw [inside.rest.1, List.head?_drop]
  have one (accepts : CodePoint → Bool) : s.matchOne accepts =
      .ok (match s.input[s.offset.toNat]? with
        | some c => if accepts c then (some [c], s.advance 1) else (none, s)
        | none => (none, s)) := by
    simp only [ParserState.matchOne, inside.peek]
    cases s.input[s.offset.toNat]? <;> rfl
  unfold ParserState.matchClass
  split
  · rename_i empty
    rw [← head, empty]
    rfl
  · rename_i c others here
    rw [ParserState.matchAny, one, ← head, here]
    cases accepted : matcher.accepts c <;> simp [accepted]

/-- With such a matcher, a class with parts takes the code point at the position if it includes it. -/
theorem Inside.matchClass_takes (inside : s.Inside) {members : CharClass} {matcher : ClassMatcher}
    (parts : members.parts ≠ [])
    (accepts : ∀ c, matcher.accepts c = true ↔ members.Includes c) :
    (∀ c, members.Takes s.input s.offset c →
      s.matchClass matcher = .ok (some [c], s.advance 1)) ∧
    ((∀ c, ¬members.Takes s.input s.offset c) → s.matchClass matcher = .ok (none, s)) := by
  rw [inside.matchClass_eq]
  constructor
  · rintro c ⟨here, -, includes⟩
    simp only [here, (accepts c).mpr includes, if_true]
  · intro nothing
    cases here : s.input[s.offset.toNat]? with
    | none => rfl
    | some c =>
      have excluded : matcher.accepts c ≠ true := fun accepted =>
        nothing c ⟨here, parts, (accepts c).mp accepted⟩
      simp only [excluded, Bool.false_eq_true, if_false]

/-- Noting an expectation changes the records and nothing else. -/
theorem expect_records (records : s.records ≠ []) (entry : Entry) :
    ∃ noted, s.expect entry = .ok { s with records := noted } := by
  unfold expect
  split
  · exact ⟨s.records, rfl⟩
  · split
    · rename_i none
      exact absurd none records
    · exact ⟨_, rfl⟩

end ParserState

namespace Machine

variable {program : Program} {scene : Scene} {t : Target}
  (implements : program.Implements scene t.tables) {semantics : Semantics}
  (matcher : scene.matcher = semantics.matcher)

include implements matcher in
/-- The code of a class takes what the class takes, and pushes it, or pushes a failure. -/
theorem class_runs {members : CharClass} (denotes : semantics.Denotes members) {setting : Setting}
    {labels : Environment} {info : Info} {code : List Instr}
    (lowered : Lowered t setting labels (.charClass info members) code) (call : Int → Run Outcome)
    (rounds : Nat) (frame : Frame) {w : World} (inside : w.state.Inside)
    (open? : w.state.records ≠ []) :
    ∃ records,
      (∀ c, members.Takes w.state.input w.state.offset c →
        Exec.go (block program call rounds code) frame w = (.ok (.next, frame.push (some (.text [c]))),
          { w with state := { w.state with records, offset := w.state.offset + 1 } })) ∧
      ((∀ c, ¬members.Takes w.state.input w.state.offset c) →
        Exec.go (block program call rounds code) frame w = (.ok (.next, frame.push none),
          { w with state := { w.state with records } })) := by
  obtain ⟨records, noting⟩ : ∃ records, Run.go (Tree.expect setting.reports (.charClass members)) w =
      (.ok ⟨⟩, { w with state := { w.state with records } }) := by
    obtain ⟨records, noted⟩ := ParserState.expect_records open? (.charClass members)
    rw [Tree.go_expect]
    split
    · exact ⟨records, by rw [noted]⟩
    · exact ⟨w.state.records, rfl⟩
  unfold Lowered at lowered
  obtain ⟨noted, notes, lowered⟩ := lowered
  refine ⟨records, ?_⟩
  split at lowered
  · rename_i empty
    subst lowered
    have fails : Exec.go (block program call rounds (noted ++ Build.ops [.push .failed])) frame w =
        (.ok (.next, frame.push none), { w with state := { w.state with records } }) := by
      rw [go_block_append, go_noted implements notes rfl, noting]
      rfl
    exact ⟨fun c takes => absurd empty takes.2.1, fun _ => fails⟩
  · rename_i parts
    obtain ⟨i, found, rfl⟩ := lowered
    have at? : Index.at? program.matchers i = some (scene.matcher members) := by
      refine Index.at?_natCast ?_
      rw [implements.matchers, List.getElem?_map, found]
      rfl
    have inside' : ({ w.state with records } : ParserState).Inside := ⟨inside.lower, inside.upper⟩
    have pushes : Pushes program call rounds (noted ++ Build.ops [.matchClass i]) frame (do
        Tree.expect setting.reports (.charClass members)
        Tree.matching (·.matchClass (scene.matcher members))) w := by
      refine leaf_pushes implements notes rfl ?_
      simp only [op, at?, present, pure_bind]
    rw [pushes, Run.go_bind, noting, Ended.andThen_ok, Tree.go_matching, matcher]
    obtain ⟨takes, fails⟩ := inside'.matchClass_takes parts (denotes parts)
    constructor
    · intro c taken
      rw [takes c taken]
      rfl
    · intro nothing
      rw [fails nothing]
      rfl

end Machine

namespace Emit

variable {context : EmitContext} {t : Target} {setting : Setting} {before : Emission}

/-- The source that a slot gets the match of a class from: a failure if there are no parts, otherwise a
match of the pattern in the table. -/
def IsClassSource (t : Target) (members : CharClass) (source : Source) : Prop :=
  if members.parts = [] then source = .failed
  else ∃ i : Nat, t.tables.classes[i]? = some members ∧ source = .matchClass i

/-- The statements that note what is expected, where failures are reported. -/
def Notes (t : Target) (setting : Setting) (entry : Expectation) (statements : List Statement) : Prop :=
  if setting.reports then
    ∃ i : Nat, t.tables.expectations[i]? = some entry ∧ statements = [.expect i]
  else statements = []

theorem does_noted {entry : Expectation} {code : List Instr} (noted : Noted t setting entry code)
    (place : Int) : ∃ statements,
      Does (body context (Instr.readings place code)) before (statements, false) before ∧
      Notes t setting entry statements := by
  unfold Noted at noted
  split at noted
  · rename_i reports
    obtain ⟨i, found, rfl⟩ := noted
    refine ⟨[.expect i], ?_, (if_pos reports).mpr ⟨i, found, rfl⟩⟩
    rw [Build.ops_eq]
    refine does_body_singleton.mpr (does_plain.mpr ⟨?_, rfl⟩)
    simp [simple, Op.opcode, Op.split, Opcode.layout, Op.operands, Word.ofInts, Word.number?]
  · rename_i silent
    subst noted
    exact ⟨[], does_body_nil.mpr ⟨rfl, rfl, rfl⟩, (if_neg silent).mpr rfl⟩

/-- The statements for the code of a class. -/
theorem does_charClass {members : CharClass} {labels : Environment} {info : Info} {code : List Instr}
    (lowered : Lowered t setting labels (.charClass info members) code) (place : Int)
    (deep : -1 ≤ before.results.top) : ∃ statements noted source,
      Does (body context (Instr.readings place code)) before (statements, false)
        (before.pushed .results) ∧
      statements = noted ++ [.set ⟨.results, (before.results.top + 1).toNat⟩ source] ∧
      IsClassSource t members source ∧ Notes t setting (.charClass members) noted := by
  have deep : 0 ≤ before.results.top + 1 := by omega
  unfold Lowered at lowered
  obtain ⟨expecting, notes, lowered⟩ := lowered
  obtain ⟨noted, does, shape⟩ := @does_noted context t setting before _ _ notes place
  have joined {o : Op} {source : Source}
      (later : Does (body context (Instr.readings (place + (Instr.encode expecting).length)
        (Build.ops [o]))) before ([.set ⟨.results, (before.results.top + 1).toNat⟩ source], false)
        (before.pushed .results)) :
      Does (body context (Instr.readings place (expecting ++ Build.ops [o]))) before
        (noted ++ [.set ⟨.results, (before.results.top + 1).toNat⟩ source], false)
        (before.pushed .results) := by
    have both := does_body_append does later
    rw [← Instr.readings_append, ite_self] at both
    exact both
  split at lowered
  · rename_i empty
    subst lowered
    refine ⟨_, noted, .failed, joined ?_, rfl, (if_pos empty).mpr rfl, shape⟩
    rw [Build.ops_eq]
    refine does_body_singleton.mpr (does_plain.mpr ⟨?_, rfl⟩)
    simp [simple, Op.opcode, deep]
  · rename_i parts
    obtain ⟨i, found, rfl⟩ := lowered
    refine ⟨_, noted, .matchClass i, joined ?_, rfl, (if_neg parts).mpr ⟨i, found, rfl⟩, shape⟩
    rw [Build.ops_eq]
    refine does_body_singleton.mpr (does_plain.mpr ⟨?_, rfl⟩)
    simp [simple, Op.opcode, Op.split, Opcode.layout, Op.operands, Word.ofInts, Word.number?, deep]

end Emit

/-- The stages behind inference agree about a class: its evaluation, its code and the statements for
its code. -/
structure CharClass.Agrees (members : CharClass) (program : Program) (t : Target)
    (semantics : Semantics) : Prop where
  evaluates : ∀ (peg : Peg) (call : Text → Int → Peg.Result) (rounds : Nat) (scope : Scope) (info : Info)
    (start : Int), peg.matcher = semantics.matcher → 0 ≤ start → start ≤ peg.input.length →
    (∀ c, members.Takes peg.input start c →
      peg.expr call rounds scope (.charClass info members) start = .ok (some (.text [c], start + 1))) ∧
    ((∀ c, ¬members.Takes peg.input start c) →
      peg.expr call rounds scope (.charClass info members) start = .ok none)
  runs : ∀ (setting : Setting) (labels : Environment) (info : Info) (code : List Instr),
    Lowered t setting labels (.charClass info members) code →
    ∀ (call : Int → Run Outcome) (rounds : Nat) (frame : Frame) (w : World), w.state.Inside →
    w.state.records ≠ [] → ∃ records,
      (∀ c, members.Takes w.state.input w.state.offset c →
        Exec.go (Machine.block program call rounds code) frame w =
          (.ok (.next, frame.push (some (.text [c]))),
            { w with state := { w.state with records, offset := w.state.offset + 1 } })) ∧
      ((∀ c, ¬members.Takes w.state.input w.state.offset c) →
        Exec.go (Machine.block program call rounds code) frame w = (.ok (.next, frame.push none),
          { w with state := { w.state with records } }))
  emits : ∀ (setting : Setting) (labels : Environment) (info : Info) (code : List Instr),
    Lowered t setting labels (.charClass info members) code →
    ∀ (context : EmitContext) (place : Int) (before : Emission), -1 ≤ before.results.top →
    ∃ statements noted source,
      Emit.Does (Emit.body context (Instr.readings place code)) before (statements, false)
        (before.pushed .results) ∧
      statements = noted ++ [.set ⟨.results, (before.results.top + 1).toNat⟩ source] ∧
      Emit.IsClassSource t members source ∧ Emit.Notes t setting (.charClass members) noted

namespace Grammar

variable {g : Grammar} {settings : Settings}

/-- Nodes of a prepared grammar that are classes are marked to match never, or are left open. -/
theorem SoundBody.charClass_verdict {e : Expr} (body : g.SoundBody e) :
    e.Everywhere fun e => ∀ info members, e = .charClass info members →
      info.verdict = some (if members.parts = [] then .never else .sometimes) := by
  refine body.everywhere.mono fun e body info members same => ?_
  subst same
  cases body with
  | plain sound =>
    have judged : info.verdict = some (Expr.charClass info members).conclusion := sound.judged.here
    simpa [Expr.conclusion] using judged

/-- A class means the same to inference, in direct evaluation, in the bytecode of every grammar that was
checked and in the statements that are emitted for it, given that its pattern, if it has parts, matches
what it includes. It takes one code point that it includes, if it has parts, and none otherwise. -/
theorem charClass_matches {text : Text} {source? : Option Text}
    (read : Grammar.read text source? = .ok g)
    (checked : (Stage.check.run settings g).failure = none) (semantics : Semantics) :
    ∃ program tables, (g.compiled settings).bytecode? semantics = some program ∧
      (∀ (i : Nat) (r : Rule), (g.prepare settings).rules[i]? = some r →
        ∃ code, program.rules[i]? = some (r.name, code) ∧
          Lowered ⟨(g.prepare settings).placeOf, tables⟩ r.setting [] r.body code) ∧
      (∀ r ∈ (g.prepare settings).rules, r.body.Everywhere fun e =>
        ∀ info members, e = .charClass info members →
          info.verdict = some (if members.parts = [] then .never else .sometimes)) ∧
      ∀ members, semantics.Denotes members →
        members.Agrees program ⟨(g.prepare settings).placeOf, tables⟩ semantics := by
  obtain ⟨scene, tables, reads, -, grammar, -, matcher, -, prepared, compiled⟩ :=
    compiled_scene read checked semantics
  refine ⟨scene.program, tables, reads, grammar ▸ compiled.rule, fun r member =>
    (prepared.soundBody (grammar ▸ member)).charClass_verdict, fun members denotes => ⟨?_, ?_, ?_⟩⟩
  · intro peg call rounds scope info start same lower upper
    have inside : (peg.state start start).Inside := ⟨lower, upper⟩
    rw [Peg.expr]
    split
    · rename_i empty
      have empty : members.parts = [] := by simpa using empty
      exact ⟨fun c takes => absurd empty takes.2.1, fun _ => rfl⟩
    · rename_i parts
      have parts : members.parts ≠ [] := by simpa using parts
      obtain ⟨takes, fails⟩ := inside.matchClass_takes parts (denotes parts)
      simp only [Peg.leaf, same]
      constructor
      · intro c taken
        rw [takes c taken]
        rfl
      · intro nothing
        rw [fails nothing]
        rfl
  · intro setting labels info code lowered call rounds frame w inside records
    exact Machine.class_runs compiled.implements matcher denotes lowered call rounds frame inside records
  · intro setting labels info code lowered context place before deep
    exact Emit.does_charClass lowered place deep

/-! Samples: the first rule is a class and nothing else. -/

/-- The class that the first rule is. -/
def classOfFirst? (g : Grammar) : Option CharClass :=
  match (g.prepare plainSettings).rules[0]? with
  | some r =>
    match r.body with
    | .charClass _ members => some members
    | _ => none
  | none => none

theorem of_classOfFirst? {members : CharClass} (is : classOfFirst? g = some members) :
    ∃ r info, (g.prepare plainSettings).rules[0]? = some r ∧ r.body = .charClass info members := by
  unfold classOfFirst? at is
  split at is
  · rename_i r here
    split at is
    · rename_i info members same
      cases is
      exact ⟨r, info, here, same⟩
    · cases is
  · cases is

def letterRange : CharClass where
  parts := [.range (.scalar 'a') (.scalar 'c')]
  inverted := true
  ignoreCase := false

theorem letterRange_taken : ∃ g program name code,
    Grammar.read (.ofString "s = [^a-c]") none = .ok g ∧
    (Stage.check.run plainSettings g).failure = none ∧
    (g.compiled plainSettings).bytecode? countingSemantics = some program ∧
    program.rules[0]? = some (name, code) ∧
    ∀ call rounds frame, ∃ records, Exec.go (Machine.block program call rounds code) frame
        { state := { input := .ofString "xd", offset := 1 } } =
      (.ok (.next, frame.push (some (.text [.scalar 'd']))),
        { state := { input := .ofString "xd", offset := 2, records } }) := by
  obtain ⟨g, read, checked, is⟩ := exists_of_accepted
    (show (accepted? plainSettings (.ofString "s = [^a-c]")).any (fun g =>
      decide (classOfFirst? g = some letterRange)) = true by decide +kernel)
  obtain ⟨r, info, here, body⟩ := of_classOfFirst? (of_decide_eq_true is)
  obtain ⟨program, tables, reads, rules, -, agrees⟩ :=
    charClass_matches read checked countingSemantics
  obtain ⟨code, at?, lowered⟩ := rules 0 r here
  rw [body] at lowered
  have denotes : countingSemantics.Denotes letterRange := fun _ _ =>
    @ClassMatcher.accepts_iff letterRange _
  have taken : letterRange.Takes (.ofString "xd") 1 (.scalar 'd') :=
    ⟨by decide, by decide, by simp [CharClass.Includes, letterRange, ClassPart.Covers]; decide⟩
  refine ⟨g, program, r.name, code, read, checked, reads, at?, fun call rounds frame => ?_⟩
  obtain ⟨records, takes, -⟩ := (agrees letterRange denotes).runs _ _ _ _ lowered call rounds frame
    { state := { input := .ofString "xd", offset := 1 } } ⟨by decide, by decide⟩ (by simp)
  exact ⟨records, takes _ taken⟩

/-- The first rule is an inverted class without parts, and does not match. -/
def isInvertedNothing (g : Grammar) : Bool :=
  decide (classOfFirst? g = some ⟨[], true, false⟩) &&
  match (g.compiled plainSettings).bytecode? countingSemantics with
  | some program =>
    match program.runFrom 9 0 { input := .ofString "a" } with
    | (.ok none, _) => true
    | _ => false
  | none => false

/-- What no part covers is not taken by an inverted class without parts. -/
theorem inverted_nothing_fails : ∃ g program r info members after,
    Grammar.read (.ofString "s = [^]") none = .ok g ∧
    (Stage.check.run plainSettings g).failure = none ∧
    (g.prepare plainSettings).rules[0]? = some r ∧ r.body = .charClass info members ∧
    members.inverted = true ∧ members.ignoreCase = false ∧ members.Includes (.scalar 'a') ∧
    (g.compiled plainSettings).bytecode? countingSemantics = some program ∧
    program.runFrom 9 0 { input := .ofString "a" } = (.ok none, after) := by
  obtain ⟨g, read, checked, is⟩ := exists_of_accepted
    (show (accepted? plainSettings (.ofString "s = [^]")).any isInvertedNothing = true by
      decide +kernel)
  obtain ⟨first, runs⟩ := (Bool.and_eq_true _ _).mp is
  obtain ⟨r, info, here, body⟩ := of_classOfFirst? (of_decide_eq_true first)
  split at runs
  · rename_i program reads
    split at runs
    · rename_i after ended
      exact ⟨g, program, r, info, _, after, read, checked, here, body, rfl, rfl,
        by simp [CharClass.Includes], reads, ended⟩
    · cases runs
  · cases runs

end Grammar

end PegCompiler
