import PegCompiler.Proofs.Emit.Balance

/-!
Blocks that end in a jump. Emission tells from the last instruction of a block whether it ends in one,
and looks at depths less closely where it does. Paths through emitted statements (`Statement.PassesAll`)
take conditions either way and go round loops any number of times, so that no path through a block can
be overlooked: control never gets to the end of a block that was said to end in a jump
(`Emit.body_jumps`). What is left out of the comparisons of depths is left out with reason, and the
loop that stands for a choice or a sequence has a single round (`Emit.jumps_sound`).
-/

namespace PegCompiler

open StackMachine (Finish)

namespace Statement

/-- A statement behind which the next one follows. -/
def IsPlain : Statement → Prop
  | leave | choose .. | forever _ => False
  | _ => True

mutual

/-- A path through a statement. It ends behind it, or out of the loop around. -/
inductive Passes : Statement → Finish → Prop
  | plain {statement} : statement.IsPlain → Passes statement .falls
  | leave : Passes leave .leaves
  | yes {condition yes no finish} : PassesAll yes finish → Passes (choose condition yes no) finish
  | no {condition yes no finish} : PassesAll no finish → Passes (choose condition yes no) finish
  | exit {body} : PassesAll body .leaves → Passes (forever body) .falls
  | again {body finish} : PassesAll body .falls → Passes (forever body) finish →
    Passes (forever body) finish

/-- A path through statements in a row. -/
inductive PassesAll : List Statement → Finish → Prop
  | nothing : PassesAll [] .falls
  | onward {first rest finish} : Passes first .falls → PassesAll rest finish →
    PassesAll (first :: rest) finish
  | away {first rest} : Passes first .leaves → PassesAll (first :: rest) .leaves

end

/-- So many rounds of a loop with this body are begun on a path. The last of them need not end. -/
inductive Rounds (body : List Statement) : Nat → Prop
  | first : Rounds body 1
  | next {n} : Rounds body n → PassesAll body .falls → Rounds body (n + 1)

section Passes

variable {first second body yes no : List Statement} {statement : Statement} {condition : Condition}
  {finish : Finish}

theorem passesAll_append_falls :
    PassesAll (first ++ second) .falls ↔ PassesAll first .falls ∧ PassesAll second .falls := by
  induction first with
  | nil => exact ⟨fun path => ⟨.nothing, path⟩, And.right⟩
  | cons statement rest ih =>
    constructor
    · intro path
      cases path with
      | onward way path =>
        obtain ⟨path, later⟩ := ih.mp path
        exact ⟨.onward way path, later⟩
    · rintro ⟨path, later⟩
      cases path with
      | onward way path => exact .onward way (ih.mpr ⟨path, later⟩)

theorem PassesAll.append (path : PassesAll first .falls) (later : PassesAll second finish) :
    PassesAll (first ++ second) finish := by
  induction first with
  | nil => exact later
  | cons statement rest ih =>
    cases path with
    | onward way path => exact .onward way (ih path)

theorem PassesAll.leaving (path : PassesAll first .leaves) : PassesAll (first ++ second) .leaves := by
  induction first with
  | nil => cases path
  | cons statement rest ih =>
    cases path with
    | onward way path => exact .onward way (ih path)
    | away way => exact .away way

theorem PassesAll.single (way : Passes statement finish) : PassesAll [statement] finish := by
  cases finish with
  | falls => exact .onward way .nothing
  | leaves => exact .away way

theorem PassesAll.of_single (path : PassesAll [statement] finish) : Passes statement finish := by
  cases path with
  | onward way path =>
    cases path with
    | nothing => exact way
  | away way => exact way

theorem PassesAll.of_plain (plain : ∀ statement ∈ body, statement.IsPlain) : PassesAll body .falls := by
  induction body with
  | nil => exact .nothing
  | cons statement rest ih =>
    obtain ⟨here, others⟩ := List.forall_mem_cons.mp plain
    exact .onward (.plain here) (ih others)

/-- A jump at the end keeps every path from falling through. -/
theorem not_passesAll_leave : ¬PassesAll (body ++ [leave]) .falls := by
  intro path
  have last := (passesAll_append_falls.mp path).2
  cases last with
  | onward way =>
    cases way with
    | plain plain => exact plain

theorem passesAll_choose_falls :
    PassesAll [choose condition yes no] .falls ↔ PassesAll yes .falls ∨ PassesAll no .falls := by
  constructor
  · intro path
    cases path with
    | onward way =>
      cases way with
      | plain plain => exact plain.elim
      | yes path => exact .inl path
      | no path => exact .inr path
  · rintro (path | path)
    · exact .single (.yes path)
    · exact .single (.no path)

theorem Rounds.single {n : Nat} (rounds : Rounds body n) (ends : ¬PassesAll body .falls) : n = 1 := by
  cases rounds with
  | first => rfl
  | next _ path => exact absurd path ends

end Passes

end Statement

open Statement

/-- The second block of a test, which is left out if its length is not positive. -/
def Reading.otherwise (length : Int) (no : List Reading) : List Reading := if 0 < length then no else []

/-- The instruction at the end of a route, if emission comes to it. -/
def Reading.along? : StackMachine.Route → List Reading → Option Reading
  | .here, reading :: _ => some reading
  | .next route, _ :: rest => along? route rest
  | .yes route, .test _ _ _ _ yes _ :: _ => along? route yes
  | .no route, .test _ _ _ length _ no :: _ => if 0 < length then along? route no else none
  | .inside route, .loop _ _ body :: _ => along? route body
  | _, _ => none

namespace Emit

variable {context : EmitContext} {before after : Emission} {statements : List Statement} {jumps : Bool}
  {place length : Int} {opcode : Opcode} {operands : List Word} {yes no block : List Reading}

/-- A condition looks at the stacks and leaves them alone. -/
theorem condition_stays {condition : Condition}
    (does : Does (Emit.condition opcode operands) before condition after) : after = before := by
  simp only [Emit.condition, does_bind, does_top] at does
  obtain ⟨_, _, ⟨-, -, rfl⟩, does⟩ := does
  cases opcode <;> simp only [does_bind, does_number, does_present, does_index, does_pure] at does <;>
    grind

theorem one_otherwise : one context (.test place opcode operands length yes no) =
    one context (.test place opcode operands length yes (Reading.otherwise length no)) := by
  by_cases positive : 0 < length <;> simp [one, Reading.otherwise, positive]

/-- `does_test` for a second block that may not be looked at. -/
theorem does_arms : Does (one context (.test place opcode operands length yes no)) before
      (statements, jumps) after ↔
    ∃ condition, Does (Emit.condition opcode operands) before condition before ∧
    ∃ whenYes yesJumps afterYes whenNo noJumps afterNo,
      Does (body context yes) before (whenYes, yesJumps) afterYes ∧
      Does (body context (Reading.otherwise length no)) (afterYes.restore before.depths)
        (whenNo, noJumps) afterNo ∧
      (yesJumps = false → noJumps = false → afterYes.depths = afterNo.depths) ∧
      statements = [.choose condition whenYes whenNo] ∧ jumps = (yesJumps && noJumps) ∧
      after = afterNo.restore (if noJumps || !yesJumps then afterYes.depths else afterNo.depths) := by
  have present : 0 < length ∨ Reading.otherwise length no = [] := by
    unfold Reading.otherwise
    split
    · exact .inl ‹_›
    · exact .inr rfl
  rw [one_otherwise, does_test present]
  constructor
  · rintro ⟨condition, between, examined, arms⟩
    obtain rfl := condition_stays examined
    exact ⟨condition, examined, arms⟩
  · rintro ⟨condition, examined, arms⟩
    exact ⟨condition, before, examined, arms⟩

mutual

/-- No path falls through an instruction that is said to be a jump. -/
theorem one_jumps (context : EmitContext) (reading : Reading) {before after : Emission}
    {statements : List Statement} (does : Does (one context reading) before (statements, true) after) :
    ¬PassesAll statements .falls := by
  match reading with
  | .plain place opcode operands further =>
    obtain ⟨emits, leaves⟩ := does_plain.mp does
    obtain rfl : opcode = .leave := by simpa using leaves.symm
    simp only [simple, does_bind, does_leave] at emits
    obtain ⟨_, _, -, -, -, rfl, -⟩ := emits
    exact not_passesAll_leave
  | .test place opcode operands length yes no =>
    obtain ⟨condition, -, whenYes, yesJumps, afterYes, whenNo, noJumps, afterNo, first, second, -, rfl,
      both, -⟩ := does_arms.mp does
    obtain ⟨rfl, rfl⟩ := Bool.and_eq_true_iff.mp both.symm
    rw [passesAll_choose_falls, not_or]
    refine ⟨body_jumps context yes first, ?_⟩
    unfold Reading.otherwise at second
    split at second
    · exact body_jumps context no second
    · obtain ⟨-, falls, -⟩ := does_body_nil.mp second
      cases falls
  | .loop place flag block =>
    obtain ⟨_, _, _, _, _, _, _, _, _, falls, _⟩ := does_loop.mp does
    cases falls
  | .cutTest place opcode operands => simp [one, missing] at does
  | .invalid place word => simp [one] at does
  | .missing => simp [one, missing] at does

/-- No path falls through a block that is said to end in a jump. -/
theorem body_jumps (context : EmitContext) (block : List Reading) {before after : Emission}
    {statements : List Statement} (does : Does (body context block) before (statements, true) after) :
    ¬PassesAll statements .falls := by
  match block with
  | [] =>
    obtain ⟨-, falls, -⟩ := does_body_nil.mp does
    cases falls
  | reading :: rest =>
    obtain ⟨first, jump, between, here, others⟩ := does_body_cons.mp does
    split at others
    · obtain ⟨rfl, rfl, rfl⟩ := others
      exact one_jumps context reading here
    · obtain ⟨others, later, rfl⟩ := others
      exact fun path => body_jumps context rest later (passesAll_append_falls.mp path).2

end

/-- Emission comes to every instruction, and gets through it. -/
theorem exists_reached {route : StackMachine.Route} {target : Reading}
    (does : Does (body context block) before (statements, jumps) after)
    (along : Reading.along? route block = some target) :
    ∃ start code jump behind, reached? context route block before = some (target, start) ∧
      Does (one context target) start (code, jump) behind := by
  fun_induction Reading.along? route block generalizing before after statements jumps with
  | case1 reading rest =>
    cases along
    obtain ⟨code, jump, behind, here, -⟩ := does_body_cons.mp does
    exact ⟨before, code, jump, behind, rfl, here⟩
  | case2 route reading rest ih =>
    obtain ⟨code, jump, between, here, others⟩ := does_body_cons.mp does
    have whole : reached? context (.next route) (reading :: rest) before =
        reached? context route rest between := by
      have runs : (one context reading).run.run before = (.ok (code, jump), between) := here
      rw [reached?, runs]
    rw [whole]
    split at others
    · rename_i last
      subst last
      cases route <;> cases along
    · obtain ⟨others, later, -⟩ := others
      exact ih later along
  | case3 route place opcode operands length yes no rest ih =>
    obtain ⟨_, _, _, here, -⟩ := does_body_cons.mp does
    obtain ⟨condition, examined, whenYes, yesJumps, afterYes, _, _, _, first, -⟩ := does_arms.mp here
    have whole : reached? context (.yes route) (.test place opcode operands length yes no :: rest)
        before = reached? context route yes before := by
      have runs : (Emit.condition opcode operands).run.run before = (.ok condition, before) := examined
      rw [reached?, runs]
    exact whole ▸ ih first along
  | case4 route place opcode operands length yes no rest positive ih =>
    obtain ⟨_, _, _, here, -⟩ := does_body_cons.mp does
    obtain ⟨condition, examined, whenYes, yesJumps, afterYes, _, _, _, first, second, -⟩ :=
      does_arms.mp here
    have whole : reached? context (.no route) (.test place opcode operands length yes no :: rest)
        before = reached? context route no (afterYes.restore before.depths) := by
      have runs : (Emit.condition opcode operands).run.run before = (.ok condition, before) := examined
      have runs' : (body context yes).run.run before = (.ok (whenYes, yesJumps), afterYes) := first
      simp only [reached?, runs, runs']
    rw [Reading.otherwise, if_pos positive] at second
    exact whole ▸ ih second along
  | case6 route place flag inner rest ih =>
    obtain ⟨_, _, _, here, -⟩ := does_body_cons.mp does
    obtain ⟨code, leaves, behind, _, inside, -⟩ := does_loop.mp here
    exact ih inside along
  | case5 | case7 => cases along

/-- What emission does not compare cannot happen. A path through a test ends as deep as emission goes
on behind it, though arms that are said to end in a jump are not compared; a path falls through the
body of a loop only where its depths were compared; and a loop without the flag has a single round. -/
def Guarded (context : EmitContext) (before : Emission) (code : List Statement) (jumps : Bool)
    (after : Emission) : Reading → Prop
  | .test _ _ _ length yes no => ∃ condition whenYes yesJumps afterYes whenNo noJumps afterNo,
    code = [.choose condition whenYes whenNo] ∧ jumps = (yesJumps && noJumps) ∧
    Does (body context yes) before (whenYes, yesJumps) afterYes ∧
    Does (body context (Reading.otherwise length no)) (afterYes.restore before.depths)
      (whenNo, noJumps) afterNo ∧
    (yesJumps = true → ¬PassesAll whenYes .falls) ∧ (noJumps = true → ¬PassesAll whenNo .falls) ∧
    (PassesAll whenYes .falls → afterYes.depths = after.depths) ∧
    (PassesAll whenNo .falls → afterNo.depths = after.depths)
  | .loop _ flag block => ∃ inner leaves behind round,
    code = [.forever round] ∧ round = inner ++ (if flag = 0 && !leaves then [.leave] else []) ∧
    Does (body context block) before.opened (inner, leaves) behind ∧
    (leaves = true → ¬PassesAll inner .falls) ∧
    (PassesAll inner .falls → behind.positions.top = before.positions.top ∧
      if flag = 0 then behind.depths = after.depths else behind.results.top = before.results.top) ∧
    (flag = 0 → ∀ n, Rounds round n → n = 1)
  | _ => True

theorem guarded {reading : Reading}
    (does : Does (one context reading) before (statements, jumps) after) :
    Guarded context before statements jumps after reading := by
  match reading with
  | .test place opcode operands length yes no =>
    obtain ⟨condition, -, whenYes, yesJumps, afterYes, whenNo, noJumps, afterNo, first, second, agree,
      rfl, rfl, rfl⟩ := does_arms.mp does
    have yesEnds : yesJumps = true → ¬PassesAll whenYes .falls := by
      rintro rfl
      exact body_jumps context _ first
    have noEnds : noJumps = true → ¬PassesAll whenNo .falls := by
      rintro rfl
      exact body_jumps context _ second
    refine ⟨condition, whenYes, yesJumps, afterYes, whenNo, noJumps, afterNo, rfl, rfl, first, second,
      yesEnds, noEnds, fun falls => ?_, fun falls => ?_⟩
    · have stays : yesJumps = false := by simpa using mt yesEnds (not_not_intro falls)
      simp [stays]
    · have stays : noJumps = false := by simpa using mt noEnds (not_not_intro falls)
      cases yesJumps with
      | true => simp [stays]
      | false => simp [stays, agree]
  | .loop place flag block =>
    obtain ⟨inner, leaves, behind, done, inside, falls, rfl, -, rfl, -, rfl⟩ := does_loop.mp does
    have ends : leaves = true → ¬PassesAll inner .falls := by
      rintro rfl
      exact body_jumps context _ inside
    refine ⟨inner, leaves, behind, _, rfl, rfl, inside, ends, fun path => ?_, ?_⟩
    · have stays : leaves = false := by simpa using mt ends (not_not_intro path)
      obtain ⟨positions, results⟩ := falls stays
      refine ⟨positions, ?_⟩
      split
      · rename_i once
        simp [once, stays, behindLoop]
      · exact results ‹_›
    · rintro rfl n rounds
      refine rounds.single ?_
      cases leaves with
      | true => simpa using ends rfl
      | false => exact not_passesAll_leave
  | .plain .. | .cutTest .. | .invalid .. | .missing => trivial

/-- Only a jump, a test and a loop emit statements that the next one does not follow. -/
theorem simple_plain {operands further : List Word} (stays : opcode ≠ .leave)
    (does : Does (simple context place opcode operands further) before statements after) :
    ∀ statement ∈ statements, statement.IsPlain := by
  cases opcode <;> simp only [simple, does_bind, does_pure, does_discard, does_pushResult,
    does_number, does_present, does_indexes, does_keepOne, does_push, does_pop, does_popMany,
    does_top] at does <;> grind [IsPlain]

end Emit

namespace StackMachine

open Emit

variable {V : Type} {context : EmitContext} {block : List Reading} {s s₁ : Stacks V} {finish : Finish}

/-- Every run of the machine follows a path through the statements. -/
theorem Runs.passesAll {before after : Emission} {statements : List Statement} {jumps : Bool}
    (run : Runs context block s finish s₁) (natural : Reading.AllNatural block)
    (does : Does (body context block) before (statements, jumps) after) :
    PassesAll statements finish := by
  induction run generalizing before after statements jumps with
  | nothing =>
    obtain ⟨rfl, -⟩ := does_body_nil.mp does
    exact .nothing
  | @onward first rest _ _ _ _ _ _ ih ih' =>
    obtain ⟨emitted, jump, between, here, others⟩ := does_body_cons.mp does
    have path := ih ⟨natural.1, trivial⟩ (does_body_singleton.mpr here)
    split at others
    · rename_i last
      subst last
      obtain ⟨rfl, -⟩ := others
      have later := @ih' between between [] false trivial (does_body_nil.mpr ⟨rfl, rfl, rfl⟩)
      simpa using path.append later
    · obtain ⟨others, later, rfl⟩ := others
      exact path.append (ih' natural.2 later)
  | away _ ih =>
    obtain ⟨emitted, jump, between, here, others⟩ := does_body_cons.mp does
    have path := ih ⟨natural.1, trivial⟩ (does_body_singleton.mpr here)
    split at others
    · obtain ⟨rfl, -⟩ := others
      exact path
    · obtain ⟨others, -, rfl⟩ := others
      exact path.leaving
  | plain stays _ =>
    exact .of_plain (simple_plain stays (does_plain.mp (does_body_singleton.mp does)).1)
  | leave _ =>
    obtain ⟨emits, -⟩ := does_plain.mp (does_body_singleton.mp does)
    simp only [simple, does_bind, does_leave] at emits
    obtain ⟨_, _, -, -, -, rfl, -⟩ := emits
    refine .append (.of_plain fun statement member => ?_) (.single .leave)
    split at member
    · obtain rfl := List.mem_singleton.mp member
      trivial
    · cases member
  | yes _ ih =>
    obtain ⟨condition, -, whenYes, yesJumps, afterYes, whenNo, noJumps, afterNo, first, second, -, rfl,
      -⟩ := does_arms.mp (does_body_singleton.mp does)
    exact .single (.yes (ih natural.1.2.1 first))
  | @no _ _ _ length _ no _ _ _ _ ih =>
    obtain ⟨condition, -, whenYes, yesJumps, afterYes, whenNo, noJumps, afterNo, first, second, -, rfl,
      -⟩ := does_arms.mp (does_body_singleton.mp does)
    have same : Reading.otherwise length no = no := by
      rcases natural.1.1 with positive | rfl
      · exact if_pos positive
      · simp [Reading.otherwise]
    exact .single (.no (ih natural.1.2.2 (same ▸ second)))
  | exit _ ih =>
    obtain ⟨inner, leaves, behind, done, inside, -, -, -, rfl, -⟩ :=
      does_loop.mp (does_body_singleton.mp does)
    exact .single (.exit (ih natural.1 inside).leaving)
  | once _ ih =>
    obtain ⟨inner, leaves, behind, done, inside, -, -, -, rfl, -⟩ :=
      does_loop.mp (does_body_singleton.mp does)
    have path := ih natural.1 inside
    -- A block through which a run falls is not said to end in a jump, so that the loop ends here.
    obtain rfl : leaves = false := by
      cases leaves with
      | true => exact absurd path (body_jumps context _ inside)
      | false => rfl
    exact .single (.exit (path.append (.single .leave)))
  | again endless _ _ ih ih' =>
    obtain ⟨inner, leaves, behind, done, inside, -, -, -, rfl, -⟩ :=
      does_loop.mp (does_body_singleton.mp does)
    have round := ih natural.1 inside
    exact .single (.again (by simpa [endless] using round) (ih' natural does).of_single)

end StackMachine

namespace Emit

open StackMachine

variable {context : EmitContext} {name : Text} {ws : List Word} {statements : List Statement}
  {emission : Emission}

/-- Where a rule is emitted, well-nested words or not, no path through a block falls off its end if the
block is said to end in a jump. Emission comes to every instruction, and what it leaves out there of the
comparison of depths are paths that cannot happen; a loop without the flag never begins a second round.
Runs of the machine are such paths. -/
theorem jumps_sound (emitted : rule context name ws = (.ok statements, emission)) :
    (∃ jumps, Does (body context (Reading.ofWords ws)) { rule := name } (statements, jumps) emission ∧
      (jumps = true → ¬PassesAll statements .falls)) ∧
    (∀ (route : Route) (target : Reading), Reading.along? route (Reading.ofWords ws) = some target →
      ∃ before code jumps after,
        reached? context route (Reading.ofWords ws) { rule := name } = some (target, before) ∧
        Does (one context target) before (code, jumps) after ∧
        Guarded context before code jumps after target) ∧
    ((∀ word ∈ ws, word.IsNatural) → ∀ (V : Type) (s s₁ : Stacks V) (finish : Finish),
      Runs context (Reading.ofWords ws) s finish s₁ → PassesAll statements finish) := by
  obtain ⟨jumps, does⟩ := does_of_rule emitted
  refine ⟨⟨jumps, does, ?_⟩, fun route target along => ?_, fun natural V s s₁ finish run => ?_⟩
  · rintro rfl
    exact body_jumps context _ does
  · obtain ⟨before, code, jump, after, reached, here⟩ := exists_reached does along
    exact ⟨before, code, jump, after, reached, here, guarded here⟩
  · exact run.passesAll (Reading.block_natural natural) does

/-- Takes a character and then says that it has failed, in one of two ways that leave the loop. -/
def unlucky : List Word := Word.ofInts [17, 41, 0, 8, 14, 2, 3, 8, 1, 2, 8, 2]

def unluckyRound : List Statement := [
  .choose (.isFailed ⟨.results, 0⟩) [.set ⟨.results, 0⟩ .failed, .leave]
    [.set ⟨.results, 1⟩ .nothing, .set ⟨.results, 0⟩ .failed, .leave]]

def unluckyCode : List Statement := [.set ⟨.results, 0⟩ .matchAny, .forever unluckyRound]

def unluckyLoop : Reading :=
  .loop 1 0 [.test 4 .ifFailed [] 3 [.plain 7 .leave [.number 1] []]
    [.plain 9 .pushNull [] [], .plain 10 .leave [.number 2] []]]

/-- Both arms end in a jump, one of them deeper than the other. -/
theorem unlucky_jumps :
    rule ⟨[], []⟩ "any" unlucky = (.ok unluckyCode, ⟨"any", ⟨0, 1⟩, {}, []⟩) ∧
    Reading.along? (.next .here) (Reading.ofWords unlucky) = some unluckyLoop ∧
    PassesAll unluckyCode .falls ∧ ∀ n, Rounds unluckyRound n → n = 1 := by
  have emitted : rule ⟨[], []⟩ "any" unlucky = (.ok unluckyCode, ⟨"any", ⟨0, 1⟩, {}, []⟩) := rfl
  have along : Reading.along? (.next .here) (Reading.ofWords unlucky) = some unluckyLoop := rfl
  refine ⟨emitted, along, ?_, ?_⟩
  · have fails : PassesAll unluckyRound .leaves :=
      .single (.yes (.onward (.plain trivial) (.single .leave)))
    exact .onward (.plain trivial) (.single (.exit fails))
  · obtain ⟨-, sound, -⟩ := jumps_sound emitted
    obtain ⟨before, code, jumps, after, reached, does, -, -, -, round, rfl, -, -, -, -, once⟩ :=
      sound _ _ along
    have start : reached? ⟨[], []⟩ (.next .here) (Reading.ofWords unlucky) { rule := "any" } =
        some (unluckyLoop, ⟨"any", ⟨0, 0⟩, {}, []⟩) := rfl
    obtain ⟨-, rfl⟩ := Prod.mk.inj (Option.some.inj (reached.symm.trans start))
    have runs : Does (one ⟨[], []⟩ unluckyLoop) ⟨"any", ⟨0, 0⟩, {}, []⟩
        ([.forever unluckyRound], false) ⟨"any", ⟨0, 1⟩, {}, []⟩ := rfl
    obtain ⟨same, -⟩ := Prod.mk.inj (does.symm.trans runs)
    have same : [Statement.forever round] = [.forever unluckyRound] :=
      (Prod.mk.inj (Except.ok.inj same)).1
    simp only [List.cons.injEq, Statement.forever.injEq, and_true] at same
    exact same ▸ once rfl

end Emit

end PegCompiler
