import Mathlib.Tactic.Simproc.ExistsAndEq
import PegCompiler.Emit.Body

/-!
Emission step by step. `Emit.Does` says that emission runs through, what it gives, and where it leaves
the symbolic stacks. For everything that emission is made of there is an equivalence that says so
without the monad, to be read from both sides: what a successful emission has checked, and what has to
be checked for one to succeed.
-/

namespace PegCompiler

namespace Emission

@[simp] theorem stack_results (emission : Emission) : emission.stack .results = emission.results := rfl

@[simp] theorem stack_positions (emission : Emission) :
    emission.stack .positions = emission.positions := rfl

@[simp] theorem setStack_results (emission : Emission) (stack : Stack) :
    emission.setStack .results stack = { emission with results := stack } := rfl

@[simp] theorem setStack_positions (emission : Emission) (stack : Stack) :
    emission.setStack .positions stack = { emission with positions := stack } := rfl

theorem stack_setStack (emission : Emission) (name : StackName) (stack : Stack) :
    (emission.setStack name stack).stack name = stack := by cases name <;> rfl

theorem setStack_setStack (emission : Emission) (name : StackName) (first second : Stack) :
    (emission.setStack name first).setStack name second = emission.setStack name second := by
  cases name <;> rfl

/-- The stack with its top in another place. -/
def setTop (emission : Emission) (name : StackName) (top : Int) : Emission :=
  emission.setStack name { emission.stack name with top }

/-- The stack with a new slot on top. -/
def pushed (emission : Emission) (name : StackName) : Emission :=
  let stack := emission.stack name
  emission.setStack name ⟨stack.top + 1, max stack.highest (stack.top + 1)⟩

section Fields

variable (emission : Emission) (name : StackName) (place : Int)

@[simp] theorem exits_setTop : (emission.setTop name place).exits = emission.exits := by
  cases name <;> rfl

@[simp] theorem exits_pushed : (emission.pushed name).exits = emission.exits := by
  cases name <;> rfl

@[simp] theorem rule_setTop : (emission.setTop name place).rule = emission.rule := by
  cases name <;> rfl

@[simp] theorem rule_pushed : (emission.pushed name).rule = emission.rule := by
  cases name <;> rfl

@[simp] theorem results_setTop_results :
    (emission.setTop .results place).results = ⟨place, emission.results.highest⟩ := rfl

@[simp] theorem results_setTop_positions :
    (emission.setTop .positions place).results = emission.results := rfl

@[simp] theorem positions_setTop_results :
    (emission.setTop .results place).positions = emission.positions := rfl

@[simp] theorem positions_setTop_positions :
    (emission.setTop .positions place).positions = ⟨place, emission.positions.highest⟩ := rfl

@[simp] theorem results_pushed_results : (emission.pushed .results).results =
    ⟨emission.results.top + 1, max emission.results.highest (emission.results.top + 1)⟩ := rfl

@[simp] theorem results_pushed_positions :
    (emission.pushed .positions).results = emission.results := rfl

@[simp] theorem positions_pushed_results :
    (emission.pushed .results).positions = emission.positions := rfl

@[simp] theorem positions_pushed_positions : (emission.pushed .positions).positions =
    ⟨emission.positions.top + 1, max emission.positions.highest (emission.positions.top + 1)⟩ := rfl

end Fields

/-- The loop around is left here. -/
def noted (emission : Emission) : Emission :=
  { emission with exits := emission.exits.modifyHead (· ++ [emission.depths]) }

/-- Another loop is open. -/
def opened (emission : Emission) : Emission := { emission with exits := [] :: emission.exits }

/-- The innermost loop is closed. -/
def closed (emission : Emission) : Emission := { emission with exits := emission.exits.tail }

@[simp] theorem depths_closed (emission : Emission) : emission.closed.depths = emission.depths := rfl

@[simp] theorem depths_restore (emission : Emission) (depths : Depths) :
    (emission.restore depths).depths = depths := rfl

@[simp] theorem restore_restore (emission : Emission) (first second : Depths) :
    (emission.restore first).restore second = emission.restore second := rfl

@[simp] theorem restore_depths (emission : Emission) : emission.restore emission.depths = emission := rfl

@[simp] theorem exits_restore (emission : Emission) (depths : Depths) :
    (emission.restore depths).exits = emission.exits := rfl

end Emission

namespace Emit

variable {α β : Type} {before after : Emission} {a : α} {b : β} {name : StackName} {slot : Slot}

/-- What emission comes to, and the stacks behind it. -/
def go (emit : Emit α) (before : Emission) : Except EmitFault α × Emission := emit.run.run before

/-- Emission succeeds. -/
def Does (emit : Emit α) (before : Emission) (a : α) (after : Emission) : Prop :=
  go emit before = (.ok a, after)

section Monad

@[simp] theorem does_pure {x : α} : Does (pure x) before a after ↔ a = x ∧ after = before := by
  change ((Except.ok x, before) : Except EmitFault α × Emission) = (.ok a, after) ↔ _
  simp [eq_comm]

@[simp] theorem does_bind {emit : Emit α} {next : α → Emit β} : Does (emit >>= next) before b after ↔
    ∃ a between, Does emit before a between ∧ Does (next a) between b after := by
  have runs : go (emit >>= next) before =
      ExceptT.bindCont next (go emit before).1 (go emit before).2 := rfl
  unfold Does
  rw [runs]
  rcases go emit before with ⟨outcome, between⟩
  cases outcome with
  | error fault =>
    change ((Except.error fault, between) : Except EmitFault β × Emission) = _ ↔ _
    simp
  | ok a =>
    change go (next a) between = _ ↔ _
    simp

@[simp] theorem does_map {emit : Emit α} {f : α → β} :
    Does (f <$> emit) before b after ↔ ∃ a, Does emit before a after ∧ b = f a := by
  change Does (emit >>= fun a => pure (f a)) before b after ↔ _
  rw [does_bind]
  simp only [does_pure]
  grind

@[simp] theorem does_discard {emit : Emit α} {u : PUnit} :
    Does (discard emit) before u after ↔ ∃ a, Does emit before a after := by
  change Does (Function.const α PUnit.unit <$> emit) before u after ↔ _
  simp

@[simp] theorem does_throw {fault : EmitFault} : ¬Does (throw fault : Emit α) before a after := nofun

@[simp] theorem does_get {emission : Emission} :
    Does get before emission after ↔ emission = before ∧ after = before := by
  change ((Except.ok before, before) : Except EmitFault Emission × Emission) = (.ok emission, after) ↔ _
  simp [eq_comm]

@[simp] theorem does_modify {change : Emission → Emission} {u : PUnit} :
    Does (modify change) before u after ↔ after = change before := by
  change ((Except.ok ⟨⟩, change before) : Except EmitFault PUnit × Emission) = (.ok u, after) ↔ _
  simp [eq_comm]

@[simp] theorem does_ite {c : Prop} [Decidable c] {yes no : Emit α} :
    Does (if c then yes else no) before a after ↔
      if c then Does yes before a after else Does no before a after := by
  split <;> rfl

@[simp] theorem does_present {found : Option α} :
    Does (present found) before a after ↔ found = some a ∧ after = before := by
  cases found with
  | none => simp [present, missing]
  | some x => simp [present, eq_comm]

/-- Emission that only looks at the stacks does so for every element of a list. -/
theorem does_mapM {emit : α → Emit β} {holds : α → Prop} {gives : α → β} {as : List α} {bs : List β}
    (each : ∀ a b after, Does (emit a) before b after ↔ holds a ∧ b = gives a ∧ after = before) :
    Does (as.mapM emit) before bs after ↔
      (∀ a ∈ as, holds a) ∧ bs = as.map gives ∧ after = before := by
  induction as generalizing bs with
  | nil => simp
  | cons a rest ih =>
    rw [List.mapM_cons, does_bind]
    simp only [each, does_bind, does_pure, List.forall_mem_cons, List.map_cons]
    constructor
    · rintro ⟨_, _, ⟨first, rfl, rfl⟩, _, _, others, rfl, rfl⟩
      obtain ⟨all, rfl, rfl⟩ := ih.mp others
      exact ⟨⟨first, all⟩, rfl, rfl⟩
    · rintro ⟨⟨first, others⟩, rfl, rfl⟩
      exact ⟨_, _, ⟨first, rfl, rfl⟩, _, _, ih.mpr ⟨others, rfl, rfl⟩, rfl, rfl⟩

/-- Emission that only checks something does so for every element of a list. -/
theorem does_forM {emit : α → Emit Unit} {holds : α → Prop} {as : List α} {u : Unit}
    (each : ∀ a u after, Does (emit a) before u after ↔ holds a ∧ after = before) :
    Does (forM as emit) before u after ↔ (∀ a ∈ as, holds a) ∧ after = before := by
  induction as with
  | nil => simp
  | cons a rest ih =>
    simp only [List.forM_cons, does_bind, each, List.forall_mem_cons]
    constructor
    · rintro ⟨_, _, ⟨first, rfl⟩, others⟩
      obtain ⟨all, rfl⟩ := ih.mp others
      exact ⟨⟨first, all⟩, rfl⟩
    · rintro ⟨⟨first, others⟩, rfl⟩
      exact ⟨⟨⟩, _, ⟨first, rfl⟩, ih.mpr ⟨others, rfl⟩⟩

end Monad

section Slots

@[simp] theorem does_stack {stack : Stack} :
    Does (Emit.stack name) before stack after ↔ stack = before.stack name ∧ after = before := by
  simp [Emit.stack, and_comm]

@[simp] theorem does_setTop {place : Int} {u : Unit} :
    Does (setTop name place) before u after ↔ after = before.setTop name place := by
  simp [setTop, Emission.setTop]

@[simp] theorem does_slotAt {place : Int} : Does (slotAt name place) before slot after ↔
    0 ≤ place ∧ slot = ⟨name, place.toNat⟩ ∧ after = before := by
  simp [slotAt]

@[simp] theorem does_push : Does (push name) before slot after ↔ 0 ≤ (before.stack name).top + 1 ∧
    slot = ⟨name, ((before.stack name).top + 1).toNat⟩ ∧ after = before.pushed name := by
  simp [push, Emission.setTop, Emission.pushed, Emission.stack_setStack, Emission.setStack_setStack]
  grind

@[simp] theorem does_pop : Does (pop name) before slot after ↔ 0 ≤ (before.stack name).top ∧
    slot = ⟨name, (before.stack name).top.toNat⟩ ∧
    after = before.setTop name ((before.stack name).top - 1) := by
  simp [pop]
  grind

/-- Nothing is taken away below the bottom. -/
@[simp] theorem does_popMany {count : Int} {slots : List Slot} :
    Does (popMany name count) before slots after ↔
      (0 < count → 0 ≤ (before.stack name).top - count + 1) ∧
      slots = ((List.range count.toNat).map fun i =>
        ⟨name, ((before.stack name).top - count + 1 + (i : Int)).toNat⟩) ∧
      after = before.setTop name ((before.stack name).top - count) := by
  have each (base : Int) (before : Emission) (i : Nat) (slot : Slot) (after : Emission) :
      Does (slotAt name (base + 1 + (i : Int))) before slot after ↔
        0 ≤ base + 1 + (i : Int) ∧ slot = ⟨name, (base + 1 + (i : Int)).toNat⟩ ∧ after = before :=
    does_slotAt
  have bounds (base : Int) : (∀ i : Nat, (i : Int) < count → 0 ≤ base + 1 + (i : Int)) ↔
      (0 < count → 0 ≤ base + 1) := by
    constructor
    · intro all positive
      simpa using all 0 (by omega)
    · intro first i _
      have := first (by omega)
      omega
  simp [popMany, does_mapM (each _ _), -does_slotAt, bounds]

@[simp] theorem does_top : Does (top name) before slot after ↔ 0 ≤ (before.stack name).top ∧
    slot = ⟨name, (before.stack name).top.toNat⟩ ∧ after = before := by
  simp [top]

@[simp] theorem does_index {distance : Int} : Does (index name distance) before slot after ↔
    0 ≤ distance ∧ 0 ≤ (before.stack name).top - distance ∧
    slot = ⟨name, ((before.stack name).top - distance).toNat⟩ ∧ after = before := by
  simp [index]

@[simp] theorem does_noteExit {u : Unit} : Does noteExit before u after ↔ after = before.noted := by
  rcases before with ⟨rule, results, positions, _ | ⟨exits, outer⟩⟩ <;>
    simp [noteExit, Emission.noted]

end Slots

section Instructions

variable {context : EmitContext} {statements : List Statement}

@[simp] theorem does_pushResult {source : Source} : Does (pushResult source) before statements after ↔
    0 ≤ before.results.top + 1 ∧
    statements = [.set ⟨.results, (before.results.top + 1).toNat⟩ source] ∧
    after = before.pushed .results := by
  simp [pushResult]
  grind

@[simp] theorem does_number {word : Option Word} {n : Int} :
    Does (number word) before n after ↔ word.bind Word.number? = some n ∧ after = before := by
  simp [number]

/-- The slot at the distance from the top that a word says. -/
def distant (top : Int) (distance : Word) : Slot :=
  ⟨.results, (top - distance.number?.getD 0).toNat⟩

/-- A word is the distance of a slot from the top. -/
def IsDistance (top : Int) (distance : Word) : Prop :=
  ∃ n : Int, distance = .number n ∧ 0 ≤ n ∧ n ≤ top

@[simp] theorem does_indexes {distances : List Word} {slots : List Slot} :
    Does (indexes distances) before slots after ↔
      (∀ distance ∈ distances, IsDistance before.results.top distance) ∧
      slots = distances.map (distant before.results.top) ∧ after = before := by
  refine does_mapM fun distance slot after => ?_
  cases distance with
  | text t => simp [Word.number?, IsDistance]
  | number n => simp [Word.number?, IsDistance, distant, and_assoc]

@[simp] theorem does_leave {place count : Int} : Does (leave place count) before statements after ↔
    (0 < count → 0 ≤ before.results.top - count + 1) ∧ before.exits ≠ [] ∧
    statements = (if 0 < count then
      [Statement.set ⟨.results, (before.results.top - count + 1).toNat⟩ .failed] else []) ++
        [Statement.leave] ∧
    after = (if 0 < count then
      (before.setTop .results (before.results.top - count)).pushed .results else before).noted.setTop
        .results before.results.top := by
  by_cases positive : 0 < count
  · simp [leave, fork, positive]
    grind
  · simp [leave, fork, positive]
    grind

@[simp] theorem does_keepOne {count distance : Int} :
    Does (keepOne count distance) before statements after ↔
      0 ≤ distance ∧ distance ≤ before.results.top ∧ count ≤ before.results.top + 1 ∧
      statements = (
        let value : Slot := ⟨.results, (before.results.top - distance).toNat⟩
        let slot : Slot := ⟨.results, (before.results.top - count + 1).toNat⟩
        if slot = value then [] else [.set slot (.slot value)]) ∧
      after = (before.setTop .results (before.results.top - count)).pushed .results := by
  simp [keepOne]
  grind

end Instructions

section Blocks

variable {context : EmitContext} {statements : List Statement} {jumps : Bool}
  {reading : Reading} {rest : List Reading}

@[simp] theorem does_agree {place : Int} {names : List StackName}
    {disagree : StackName → Option Imbalance} {u : Unit} :
    Does (agree place names disagree) before u after ↔
      (∀ name ∈ names, disagree name = none) ∧ after = before := by
  refine does_forM fun name u after => ?_
  cases disagree name <;> simp

theorem does_body_nil : Does (body context []) before (statements, jumps) after ↔
    statements = [] ∧ jumps = false ∧ after = before := by
  simp [body, and_assoc]

theorem does_body_cons : Does (body context (reading :: rest)) before (statements, jumps) after ↔
    ∃ first jump between, Does (one context reading) before (first, jump) between ∧
      if rest = [] then statements = first ∧ jumps = jump ∧ after = between
      else ∃ others, Does (body context rest) between (others, jumps) after ∧
        statements = first ++ others := by
  simp [body, and_assoc]

variable {place : Int} {opcode : Opcode} {operands further : List Word} {yes no block : List Reading}

theorem does_body_singleton : Does (body context [reading]) before (statements, jumps) after ↔
    Does (one context reading) before (statements, jumps) after := by
  rw [does_body_cons]
  simp only [if_true]
  constructor
  · rintro ⟨_, _, _, does, rfl, rfl, rfl⟩
    exact does
  · exact fun does => ⟨_, _, _, does, rfl, rfl, rfl⟩

/-- Depths that agree for both stacks are equal. -/
@[simp] theorem agree_both (first second : Depths) :
    (∀ name ∈ bothStacks, first.of name = second.of name) ↔ first = second := by
  rcases first with ⟨results, positions⟩
  rcases second with ⟨results', positions'⟩
  simp [bothStacks, Depths.of]

/-- All depths at which a loop is left are those behind it. -/
@[simp] theorem does_agreeAll {place : Int} {done : Depths} {exits : List Depths}
    {imbalance : Depths → StackName → Imbalance} {u : Unit} :
    Does (forM exits fun depths => agree place bothStacks fun name =>
        if done.of name = depths.of name then none else some (imbalance depths name)) before u after ↔
      (∀ depths ∈ exits, done = depths) ∧ after = before :=
  does_forM fun depths u after => by simp

theorem does_checkedIf {place : Int} {yes no : Emit (α × Bool)} {whenYes : α} {whenNo : Option α} :
    Does (checkedIf place yes (some no)) before (whenYes, whenNo, jumps) after ↔
      ∃ yesJumps afterYes otherwise noJumps afterNo,
        Does yes before (whenYes, yesJumps) afterYes ∧
        Does no (afterYes.restore before.depths) (otherwise, noJumps) afterNo ∧
        (yesJumps = false → noJumps = false → afterYes.depths = afterNo.depths) ∧
        whenNo = some otherwise ∧ jumps = (yesJumps && noJumps) ∧
        after = afterNo.restore
          (if noJumps || !yesJumps then afterYes.depths else afterNo.depths) := by
  simp [checkedIf]
  grind

/-- An arm that is not there is like one without instructions. -/
theorem does_checkedIf_none {place : Int} {yes : Emit (α × Bool)} {whenYes : α} {whenNo : Option α} :
    Does (checkedIf place yes none) before (whenYes, whenNo, jumps) after ↔
      ∃ yesJumps afterYes, Does yes before (whenYes, yesJumps) afterYes ∧
        (yesJumps = false → afterYes.depths = before.depths) ∧ whenNo = none ∧ jumps = false ∧
        after = afterYes.restore before.depths := by
  have same (between : Emission) (deep : between.depths = before.depths) :
      between.restore before.depths = between := deep ▸ rfl
  simp [checkedIf]
  grind

theorem does_checkedLoop {place : Int} {balanced : List StackName} {inside : Emit (α × Bool)} :
    Does (checkedLoop place balanced inside) before (a, jumps) after ↔
      ∃ behind, Does inside before.opened (a, jumps) behind ∧
        (jumps = false → ∀ name ∈ bothStacks.filter balanced.contains,
          behind.depths.of name = before.depths.of name) ∧
        ∃ done, done = behindLoop (balanced.length == bothStacks.length) jumps before.depths
            behind.depths (behind.exits.headD []) ∧
          (∀ depths ∈ behind.exits.headD [], done = depths) ∧ after = behind.closed.restore done := by
  have opened : ({ before with exits := [] :: before.exits } : Emission) = before.opened := rfl
  have closed (behind : Emission) :
      ({ behind with exits := behind.exits.tail } : Emission) = behind.closed := rfl
  cases jumps <;> simp [checkedLoop, opened, closed]

theorem does_plain : Does (one context (.plain place opcode operands further)) before
      (statements, jumps) after ↔
    Does (simple context place opcode operands further) before statements after ∧
      jumps = (opcode == .leave) := by
  simp [one]

/-- An arm without instructions may have any length that is not positive. -/
theorem does_test {length : Int} (present : 0 < length ∨ no = []) :
    Does (one context (.test place opcode operands length yes no)) before (statements, jumps) after ↔
      ∃ condition between, Does (Emit.condition opcode operands) before condition between ∧
      ∃ whenYes yesJumps afterYes whenNo noJumps afterNo,
        Does (body context yes) between (whenYes, yesJumps) afterYes ∧
        Does (body context no) (afterYes.restore between.depths) (whenNo, noJumps) afterNo ∧
        (yesJumps = false → noJumps = false → afterYes.depths = afterNo.depths) ∧
        statements = [.choose condition whenYes whenNo] ∧ jumps = (yesJumps && noJumps) ∧
        after = afterNo.restore
          (if noJumps || !yesJumps then afterYes.depths else afterNo.depths) := by
  by_cases positive : 0 < length
  · simp only [one, if_pos positive, does_bind, Prod.exists, does_checkedIf, does_pure, Prod.mk.injEq]
    constructor
    · rintro ⟨condition, between, examined, whenYes, _, _, _,
        ⟨yesJumps, afterYes, whenNo, noJumps, afterNo, first, second, agree, rfl, rfl, rfl⟩,
        ⟨rfl, rfl⟩, rfl⟩
      exact ⟨condition, between, examined, whenYes, yesJumps, afterYes, whenNo, noJumps, afterNo,
        first, second, agree, rfl, rfl, rfl⟩
    · rintro ⟨condition, between, examined, whenYes, yesJumps, afterYes, whenNo, noJumps, afterNo,
        first, second, agree, rfl, rfl, rfl⟩
      exact ⟨condition, between, examined, whenYes, some whenNo, _, _,
        ⟨yesJumps, afterYes, whenNo, noJumps, afterNo, first, second, agree, rfl, rfl, rfl⟩,
        ⟨rfl, rfl⟩, rfl⟩
  · obtain rfl := present.resolve_left positive
    simp only [one, if_neg positive, does_bind, Prod.exists, does_checkedIf_none, does_pure,
      does_body_nil, Prod.mk.injEq]
    have restored (yesJumps : Bool) (afterYes : Emission) (depths : Depths)
        (agree : yesJumps = false → afterYes.depths = depths) :
        (afterYes.restore depths).restore
          (if (false || !yesJumps) = true then afterYes.depths else (afterYes.restore depths).depths) =
        afterYes.restore depths := by
      cases yesJumps <;> simp_all
    constructor
    · rintro ⟨condition, between, examined, whenYes, _, _, _,
        ⟨yesJumps, afterYes, first, agree, rfl, rfl, rfl⟩, ⟨rfl, rfl⟩, rfl⟩
      exact ⟨condition, between, examined, whenYes, yesJumps, afterYes, [], false, _, first,
        ⟨rfl, rfl, rfl⟩, fun falls _ => agree falls, rfl, by simp, (restored _ _ _ agree).symm⟩
    · rintro ⟨condition, between, examined, whenYes, yesJumps, afterYes, _, _, _, first,
        ⟨rfl, rfl, rfl⟩, agree, rfl, rfl, rfl⟩
      have agree (falls : yesJumps = false) : afterYes.depths = between.depths := agree falls rfl
      exact ⟨condition, between, examined, whenYes, none, false, _,
        ⟨yesJumps, afterYes, first, agree, rfl, rfl, rfl⟩, ⟨rfl, by simp⟩, restored _ _ _ agree⟩

theorem does_loop {flag : Int} :
    Does (one context (.loop place flag block)) before (statements, jumps) after ↔
      ∃ inner leaves behind done, Does (body context block) before.opened (inner, leaves) behind ∧
        (leaves = false → behind.positions.top = before.positions.top ∧
          (flag ≠ 0 → behind.results.top = before.results.top)) ∧
        done = behindLoop (flag != 0) leaves before.depths behind.depths (behind.exits.headD []) ∧
        (∀ depths ∈ behind.exits.headD [], done = depths) ∧
        statements = [.forever (inner ++ if flag = 0 && !leaves then [Statement.leave] else [])] ∧
        jumps = false ∧ after = behind.closed.restore done := by
  have balanced (behind : Emission) : (∀ name ∈ bothStacks.filter
        (if flag = 0 then [StackName.positions] else bothStacks).contains,
          behind.depths.of name = before.depths.of name) ↔
      behind.positions.top = before.positions.top ∧
        (flag ≠ 0 → behind.results.top = before.results.top) := by
    by_cases once : flag = 0
    · simp [once, bothStacks, Depths.of, Emission.depths]
    · simp [once, bothStacks, Depths.of, Emission.depths, and_comm]
  have endless : ((if flag = 0 then [StackName.positions] else bothStacks).length ==
      bothStacks.length) = (flag != 0) := by
    by_cases once : flag = 0
    · simp [once, bothStacks]
    · simp [once]
  simp only [one, does_bind, Prod.exists, does_checkedLoop, does_pure, Prod.mk.injEq, balanced, endless]
  constructor
  · rintro ⟨inner, leaves, _, ⟨behind, inside, falls, done, same, agree, rfl⟩, ⟨rfl, rfl⟩, rfl⟩
    exact ⟨inner, leaves, behind, done, inside, falls, same, agree, rfl, rfl, rfl⟩
  · rintro ⟨inner, leaves, behind, done, inside, falls, same, agree, rfl, rfl, rfl⟩
    exact ⟨inner, leaves, _, ⟨behind, inside, falls, done, same, agree, rfl⟩, ⟨rfl, rfl⟩, rfl⟩

end Blocks

end Emit

end PegCompiler
