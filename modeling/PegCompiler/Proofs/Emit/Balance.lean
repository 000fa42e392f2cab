import PegCompiler.Proofs.Emit.Slots

/-!
Symbolic stacks are as deep as real ones. Where emission gets through, every run of the machine finds
its stacks, at every instruction that control gets to, as deep as the symbolic stacks were when the
instruction was emitted (`Emit.rule_balanced`). What carries the proof is that a run which falls
through a block ends with the depths emission has behind it, and that a run which leaves its loop ends
with depths noted for that loop (`StackMachine.Runs.deep`).
-/

namespace PegCompiler

namespace Reading

variable {ws : List Word} {fuel : Nat} {place stop : Int}

theorem mem_of_at? {word : Word} (found : Index.at? ws place = some word) : word ∈ ws := by
  obtain ⟨n, -, at?⟩ := Option.bind_eq_some_iff.mp found
  exact List.mem_of_getElem? at?

theorem mem_of_following {count : Nat} {word : Word} (member : word ∈ Words.following ws place count) :
    word ∈ ws := by
  induction count generalizing place with
  | zero => cases member
  | succ count ih =>
    unfold Words.following at member
    split at member
    · rename_i first found
      rcases List.mem_cons.mp member with rfl | member
      · exact mem_of_at? found
      · exact ih member
    · cases member

theorem block_of_le (empty : stop ≤ place) : block ws fuel place stop = [] := by
  cases fuel with
  | zero => rfl
  | succ fuel => rw [block, if_pos empty]

/-- Words without negative numbers are read as instructions with natural operands. -/
theorem block_natural (natural : ∀ word ∈ ws, word.IsNatural) :
    AllNatural (block ws fuel place stop) := by
  induction fuel generalizing place stop with
  | zero => trivial
  | succ fuel ih =>
    have operands (index : Int) (count : Nat) :
        ∀ word ∈ Words.following ws index count, word.IsNatural :=
      fun word member => natural word (mem_of_following member)
    unfold block
    split
    · trivial
    · split
      · exact ⟨trivial, trivial⟩
      · split
        · exact ⟨trivial, trivial⟩
        · rename_i opcode _
          split
          · rename_i layout
            exact ⟨⟨operands _ _, by simp [layout], by simp [layout]⟩, ih⟩
          · rename_i layout
            split
            · exact ⟨trivial, trivial⟩
            · exact ⟨⟨operands _ _, by simp [layout], by simp [layout]⟩, ih⟩
          · simp only
            split
            · rename_i yes no _ _
              refine ⟨⟨?_, ih, ih⟩, ih⟩
              rw [or_iff_not_imp_left]
              exact fun small => block_of_le (by omega)
            · exact ⟨trivial, trivial⟩
          · split
            · exact ⟨ih, ih⟩
            · exact ⟨trivial, trivial⟩

end Reading

namespace StackMachine

open Emit

variable {V : Type} {context : EmitContext} {block : List Reading} {s s₁ : Stacks V}
  {before after : Emission} {statements : List Statement} {jumps : Bool}

/-- Where a run ends, after the emission of its block. -/
def Lands (after : Emission) (jumps : Bool) (depths : Depths) : Finish → Prop
  | .falls => jumps = false ∧ depths = after.depths
  | .leaves => after.LeftAt depths

/-- A round of an endless loop ends as deep as it began. -/
theorem deep_round {flag : Int} {behind : Emission} {depths : Depths}
    (falls : jumps = false → behind.positions.top = before.positions.top ∧
      (flag ≠ 0 → behind.results.top = before.results.top))
    (endless : flag ≠ 0) (lands : Lands behind jumps depths .falls) : depths = before.depths := by
  obtain ⟨rfl, rfl⟩ := lands
  obtain ⟨positions, results⟩ := falls rfl
  simp only [Emission.depths, positions, results endless]

/-- A run is as deep as emission says, and one that falls through a block ends in no jump. -/
theorem Runs.deep {finish : Finish} (run : Runs context block s finish s₁)
    (natural : Reading.AllNatural block) (within : before.Within)
    (does : Does (body context block) before (statements, jumps) after)
    (deep : s.depths = before.depths) : Lands after jumps s₁.depths finish := by
  induction run generalizing before after statements jumps with
  | nothing =>
    obtain ⟨-, rfl, rfl⟩ := does_body_nil.mp does
    exact ⟨rfl, deep⟩
  | @onward first rest s s₁ finish s₂ _ _ ih ih' =>
    obtain ⟨emitted, jump, between, here, others⟩ := does_body_cons.mp does
    obtain ⟨rfl, deep⟩ := ih ⟨natural.1, trivial⟩ within (does_body_singleton.mpr here) deep
    have within := (one_extends context first natural.1 within here).1.within
    split at others
    · rename_i last
      subst last
      obtain ⟨rfl, rfl, rfl⟩ := others
      exact ih' trivial within (does_body_nil.mpr ⟨rfl, rfl, rfl⟩) deep
    · obtain ⟨others, later, rfl⟩ := others
      exact ih' natural.2 within later deep
  | @away first rest s s₁ _ ih =>
    obtain ⟨emitted, jump, between, here, others⟩ := does_body_cons.mp does
    have left : between.LeftAt s₁.depths :=
      ih ⟨natural.1, trivial⟩ within (does_body_singleton.mpr here) deep
    split at others
    · obtain ⟨rfl, rfl, rfl⟩ := others
      exact left
    · obtain ⟨others, later, rfl⟩ := others
      have within := (one_extends context first natural.1 within here).1.within
      exact (body_extends context rest natural.2 within later).1.leftAt left
  | plain stays operates =>
    obtain ⟨emits, rfl⟩ := does_plain.mp (does_body_singleton.mp does)
    obtain ⟨⟨natural, tests, loops⟩, -⟩ := natural
    obtain ⟨_, _, same, -, deep⟩ := simple_sound emits natural deep tests loops stays _
    obtain ⟨rfl, rfl⟩ := Prod.mk.inj (Option.some.inj (operates.symm.trans same))
    exact ⟨by simpa using stays, deep⟩
  | leave operates =>
    obtain ⟨emits, rfl⟩ := does_plain.mp (does_body_singleton.mp does)
    obtain ⟨_, _, same, -, left⟩ := leave_sound emits deep _
    obtain ⟨rfl, rfl⟩ := Prod.mk.inj (Option.some.inj (operates.symm.trans same))
    exact left
  | @yes place opcode operands length yes no s finish s₁ _ ih =>
    obtain ⟨⟨present, natural, natural'⟩, -⟩ := natural
    obtain ⟨condition, _, examined, whenYes, yesJumps, afterYes, whenNo, noJumps, afterNo, first,
      second, agree, rfl, rfl, rfl⟩ := (does_test present).mp (does_body_singleton.mp does)
    obtain ⟨rfl, -⟩ := condition_extends examined within
    obtain ⟨-, later, last⟩ := arms_extend natural natural' within first second
    have lands := ih natural within first deep
    cases finish with
    | falls =>
      obtain ⟨rfl, deep⟩ := lands
      exact ⟨rfl, by simpa using deep⟩
    | leaves => exact (later.trans last).leftAt lands
  | @no place opcode operands length yes no s finish s₁ _ ih =>
    obtain ⟨⟨present, natural, natural'⟩, -⟩ := natural
    obtain ⟨condition, _, examined, whenYes, yesJumps, afterYes, whenNo, noJumps, afterNo, first,
      second, agree, rfl, rfl, rfl⟩ := (does_test present).mp (does_body_singleton.mp does)
    obtain ⟨rfl, -⟩ := condition_extends examined within
    obtain ⟨back, -, last⟩ := arms_extend natural natural' within first second
    have lands := ih natural' back second deep
    cases finish with
    | falls =>
      obtain ⟨rfl, deep⟩ := lands
      refine ⟨Bool.and_false _, ?_⟩
      cases yesJumps with
      | true => exact deep
      | false => exact deep.trans (agree rfl rfl).symm
    | leaves => exact last.leftAt lands
  | @exit place flag body s s₁ _ ih =>
    obtain ⟨inner, leaves, behind, done, inside, falls, rfl, agree, rfl, rfl, rfl⟩ :=
      does_loop.mp (does_body_singleton.mp does)
    obtain ⟨exits, noted, member⟩ := ih natural.1 within.opened inside deep
    obtain ⟨outer, open?⟩ := List.head?_eq_some_iff.mp noted
    exact ⟨rfl, (agree _ (by simpa [open?] using member)).symm⟩
  | @once place body s s₁ _ ih =>
    obtain ⟨inner, leaves, behind, done, inside, falls, rfl, agree, rfl, rfl, rfl⟩ :=
      does_loop.mp (does_body_singleton.mp does)
    obtain ⟨rfl, deep⟩ := ih natural.1 within.opened inside deep
    exact ⟨rfl, deep⟩
  | @again place flag body s s₁ finish s₂ endless _ _ ih ih' =>
    obtain ⟨inner, leaves, behind, done, inside, falls, -⟩ :=
      does_loop.mp (does_body_singleton.mp does)
    have round := ih natural.1 within.opened inside deep
    exact ih' natural within does (deep_round falls endless round)

/-- Control gets to an instruction as deep as emission does. -/
theorem Reaches.deep {route : Route} {target : Reading}
    (reaches : Reaches context block s route target s₁) (natural : Reading.AllNatural block)
    (within : before.Within) (does : Does (body context block) before (statements, jumps) after)
    (deep : s.depths = before.depths) :
    ∃ emission, reached? context route block before = some (target, emission) ∧
      s₁.depths = emission.depths ∧ target.IsNatural ∧ emission.Within ∧
      ∃ emitted jump behind, Does (one context target) emission (emitted, jump) behind := by
  induction reaches generalizing before after statements jumps with
  | here =>
    obtain ⟨emitted, jump, between, here, -⟩ := does_body_cons.mp does
    exact ⟨before, rfl, deep, natural.1, within, emitted, jump, between, here⟩
  | @next first rest s s₁ route target s₂ run further ih =>
    obtain ⟨emitted, jump, between, here, others⟩ := does_body_cons.mp does
    obtain ⟨rfl, deep⟩ := run.deep ⟨natural.1, trivial⟩ within (does_body_singleton.mpr here) deep
    have within := (one_extends context first natural.1 within here).1.within
    have whole : reached? context (.next route) (first :: rest) before =
        reached? context route rest between := by
      have runs : (one context first).run.run before = (.ok (emitted, false), between) := here
      rw [reached?, runs]
    rw [whole]
    split at others
    · rename_i last
      subst last
      cases further
    · obtain ⟨others, later, rfl⟩ := others
      exact ih natural.2 within later deep
  | @yes place opcode operands length yes no rest s route target s₁ _ ih =>
    obtain ⟨emitted, jump, between, here, -⟩ := does_body_cons.mp does
    obtain ⟨⟨present, natural, natural'⟩, -⟩ := natural
    obtain ⟨examining, before, examined, whenYes, yesJumps, afterYes, whenNo, noJumps, afterNo, first, -⟩ :=
      (does_test present).mp here
    obtain ⟨rfl, -⟩ := condition_extends examined within
    have whole : reached? context (.yes route) (.test place opcode operands length yes no :: rest)
        before = reached? context route yes before := by
      have runs : (condition opcode operands).run.run before = (.ok examining, before) := examined
      rw [reached?, runs]
    exact whole ▸ ih natural within first deep
  | @no place opcode operands length yes no rest s route target s₁ _ ih =>
    obtain ⟨emitted, jump, between, here, -⟩ := does_body_cons.mp does
    obtain ⟨⟨present, natural, natural'⟩, -⟩ := natural
    obtain ⟨examining, before, examined, whenYes, yesJumps, afterYes, whenNo, noJumps, afterNo, first,
      second, -⟩ := (does_test present).mp here
    obtain ⟨rfl, -⟩ := condition_extends examined within
    have whole : reached? context (.no route) (.test place opcode operands length yes no :: rest)
        before = reached? context route no (afterYes.restore before.depths) := by
      have runs : (condition opcode operands).run.run before = (.ok examining, before) := examined
      have runs' : (body context yes).run.run before = (.ok (whenYes, yesJumps), afterYes) := first
      simp only [reached?, runs, runs']
    obtain ⟨back, -⟩ := arms_extend natural natural' within first second
    exact whole ▸ ih natural' back second deep
  | @inside place flag block rest s route target s₁ _ ih =>
    obtain ⟨emitted, jump, between, here, -⟩ := does_body_cons.mp does
    obtain ⟨inner, leaves, behind, done, inside, -⟩ := does_loop.mp here
    exact ih natural.1 within.opened inside deep
  | @again place flag block rest s s₁ route target s₂ endless run _ ih =>
    obtain ⟨emitted, jump, between, here, -⟩ := does_body_cons.mp does
    obtain ⟨inner, leaves, behind, done, inside, falls, -⟩ := does_loop.mp here
    have round := run.deep natural.1 within.opened inside deep
    exact ih natural within does (deep_round falls endless round)

/-- Emission, with its symbolic stacks, and the machine, with its stacks, agree about an instruction:
it can be done, and the slots that were chosen for it have what it takes from the stacks. -/
def Accounts (context : EmitContext) (emission : Emission) (s : Stacks V) : Reading → Prop
  | .plain place opcode operands further => ∃ statements after,
    Does (simple context place opcode operands further) emission statements after ∧
      ∀ make : Origin V → V, ∃ effects s₁,
        operate context make opcode operands further s = some (effects, s₁) ∧
          Emulates make s effects s₁ statements
  | .test _ opcode operands _ _ _ => ∃ examining values,
    Does (condition opcode operands) emission examining emission ∧
      examined opcode operands s = some values ∧
        ∀ store : Slot → V, s.HeldBy store → examining.slots.map store = values
  | .loop .. => True
  | .cutTest .. | .invalid .. | .missing => False

theorem accounts {emission : Emission} {target : Reading} (natural : target.IsNatural)
    (within : emission.Within) (deep : s.depths = emission.depths)
    (does : Does (one context target) emission (statements, jumps) after) :
    Accounts context emission s target := by
  cases target with
  | plain place opcode operands further =>
    obtain ⟨emits, -⟩ := does_plain.mp does
    obtain ⟨natural, tests, loops⟩ := natural
    refine ⟨statements, after, emits, fun make => ?_⟩
    by_cases leaves : opcode = .leave
    · subst leaves
      obtain ⟨effects, s₁, operates, emulates, -⟩ := leave_sound emits deep make
      exact ⟨effects, s₁, operates, emulates⟩
    · obtain ⟨effects, s₁, operates, emulates, -⟩ :=
        simple_sound emits natural deep tests loops leaves make
      exact ⟨effects, s₁, operates, emulates⟩
  | test place opcode operands length yes no =>
    obtain ⟨examining, _, examined, -⟩ := (does_test natural.1).mp does
    obtain ⟨rfl, values, found, shown⟩ := condition_sound examined deep
    exact ⟨examining, values, examined, found, shown⟩
  | loop => trivial
  | cutTest | missing => simp [one, missing] at does
  | invalid => simp [one] at does

end StackMachine

namespace Emit

open StackMachine

variable {context : EmitContext} {name : Text} {ws : List Word} {statements : List Statement}
  {emission : Emission}

theorem does_of_rule (emitted : rule context name ws = (.ok statements, emission)) :
    ∃ jumps, Does (body context (Reading.ofWords ws)) { rule := name } (statements, jumps) emission := by
  have runs : ((go (body context (Reading.ofWords ws)) { rule := name }).1.map Prod.fst,
      (go (body context (Reading.ofWords ws)) { rule := name }).2) = (.ok statements, emission) := emitted
  unfold Does
  generalize go (body context (Reading.ofWords ws)) { rule := name } = run at runs ⊢
  obtain ⟨outcome, after⟩ := run
  obtain ⟨mapped, rfl⟩ := Prod.mk.inj runs
  cases outcome with
  | error fault => cases mapped
  | ok outcome =>
    obtain ⟨_, jumps⟩ := outcome
    cases mapped
    exact ⟨jumps, rfl⟩

/-- Where a rule is emitted from words without negative numbers, every slot in its statements is one
of those that it defines, none of them above the highest place. Every run of the words, whichever way
tests go and however often loops go round, gets to an instruction as deep on both stacks as emission
did, so that nothing is taken from an empty stack and every slot stands for what the instruction takes. -/
theorem rule_balanced {V : Type} (natural : ∀ word ∈ ws, word.IsNatural)
    (emitted : rule context name ws = (.ok statements, emission)) :
    (∀ slot ∈ Statement.allSlots statements,
      slot ∈ slots slot.stack (emission.stack slot.stack) ∧
        (slot.index : Int) ≤ (emission.stack slot.stack).highest) ∧
    ∀ (route : Route) (target : Reading) (s : Stacks V),
      Reaches context (Reading.ofWords ws) {} route target s →
        ∃ before, reached? context route (Reading.ofWords ws) { rule := name } = some (target, before) ∧
          s.depths = before.depths ∧ Accounts context before s target := by
  obtain ⟨jumps, does⟩ := does_of_rule emitted
  have natural : Reading.AllNatural (Reading.ofWords ws) := Reading.block_natural natural
  have within : ({ rule := name } : Emission).Within := ⟨⟨Int.le_refl _, Int.le_refl _⟩, nofun⟩
  constructor
  · intro slot member
    have holds := (body_extends context _ natural within does).2 slot member
    refine ⟨List.mem_map.mpr ⟨slot.index, List.mem_range.mpr ?_, rfl⟩, holds⟩
    unfold Emission.Holds at holds
    omega
  · intro route target s reaches
    obtain ⟨before, reached, deep, natural, within, _, _, _, emits⟩ :=
      reaches.deep natural within does rfl
    exact ⟨before, reached, deep, accounts natural within deep emits⟩

/-- Collects whatever matches until something does not. -/
def collecting : List Word := Word.ofInts [4, 41, 1, 8, 17, 14, 3, 1, 6, 8, 0, 10]

def collectingCode : List Statement := [
  .set ⟨.results, 0⟩ .emptyList,
  .forever [
    .set ⟨.results, 1⟩ .matchAny,
    .choose (.isFailed ⟨.results, 1⟩) [.leave] [.append ⟨.results, 0⟩ ⟨.results, 1⟩]]]

/-- The way to where a match is appended to the list. -/
def appending : Route := .next (.inside (.next (.no .here)))

theorem collecting_balanced :
    rule ⟨[], []⟩ "any" collecting = (.ok collectingCode, ⟨"any", ⟨0, 1⟩, {}, []⟩) ∧
    (∀ slot ∈ Statement.allSlots collectingCode, (slot.index : Int) ≤ 1) ∧
    Reaches ⟨[], []⟩ (Reading.ofWords collecting) {} appending (.plain 11 .append [] [])
      (⟨[5, 4], []⟩ : Stacks Nat) ∧
    ∀ (target : Reading) (s : Stacks Nat),
      Reaches ⟨[], []⟩ (Reading.ofWords collecting) {} appending target s → s.depths = ⟨1, -1⟩ := by
  have natural : ∀ word ∈ collecting, word.IsNatural := by
    simp [collecting, Word.ofInts, Word.IsNatural]
  have emitted : rule ⟨[], []⟩ "any" collecting =
      (.ok collectingCode, ⟨"any", ⟨0, 1⟩, {}, []⟩) := rfl
  obtain ⟨held, deep⟩ := rule_balanced (V := Nat) natural emitted
  refine ⟨emitted, fun slot member => ?_, ?_, fun target s reaches => ?_⟩
  · have bound := (held slot member).2
    rcases slot with ⟨_ | _, index⟩
    · exact bound
    · exact Int.le_trans bound (show (-1 : Int) ≤ 1 by decide)
  · have pushes : operate ⟨[], []⟩ (fun _ => 4) .pushEmptyList [] [] ({} : Stacks Nat) =
        some ([], ⟨[4], []⟩) := rfl
    have takes : operate ⟨[], []⟩ (fun _ => 5) .matchAny [] [] (⟨[4], []⟩ : Stacks Nat) =
        some ([], ⟨[5, 4], []⟩) := rfl
    exact .next (.plain (by simp) pushes) (.inside (.next (.plain (by simp) takes) (.no .here)))
  · obtain ⟨before, reached, same, -⟩ := deep appending target s reaches
    rw [same]
    have evaluated : (reached? ⟨[], []⟩ appending (Reading.ofWords collecting)
        { rule := "any" }).map (fun found => found.2.depths) = some ⟨1, -1⟩ := rfl
    rw [reached] at evaluated
    exact Option.some.inj evaluated

end Emit

end PegCompiler
