import PegCompiler.Proofs.Emit.Operations

/-!
Which slots emitted statements use. The highest place of a stack only rises, no depth is above it, and
so every slot in a statement is one of those that are defined at the beginning of the rule
(`Emit.body_extends`). A negative count would raise a stack without its highest place being noted,
so that counts have to be natural numbers.
-/

namespace PegCompiler

namespace Source

/-- The variables that a source reads. -/
def slots : Source → List Slot
  | .list others | .call _ others => others
  | .inputFrom other | .slot other => [other]
  | _ => []

end Source

namespace Statement

mutual

/-- All variables in a statement. -/
def slots : Statement → List Slot
  | set target source => target :: source.slots
  | append list item => [list, item]
  | goTo position | markAt position => [position]
  | choose condition yes no => condition.slots ++ allSlots yes ++ allSlots no
  | forever body => allSlots body
  | _ => []

def allSlots : List Statement → List Slot
  | [] => []
  | statement :: rest => statement.slots ++ allSlots rest

end

theorem allSlots_append (first second : List Statement) :
    allSlots (first ++ second) = allSlots first ++ allSlots second := by
  induction first with
  | nil => rfl
  | cons statement rest ih => simp only [List.cons_append, allSlots, ih, List.append_assoc]

end Statement

mutual

/-- Operands are natural numbers, as far as they are numbers, and a length that is not positive has no
instructions. -/
def Reading.IsNatural : Reading → Prop
  | .plain _ opcode operands _ =>
    (∀ word ∈ operands, word.IsNatural) ∧ (∀ n, opcode.layout ≠ .test n) ∧ opcode.layout ≠ .loop
  | .test _ _ _ length yes no =>
    (0 < length ∨ no = []) ∧ Reading.AllNatural yes ∧ Reading.AllNatural no
  | .loop _ _ body => Reading.AllNatural body
  | .cutTest .. | .invalid .. | .missing => True

def Reading.AllNatural : List Reading → Prop
  | [] => True
  | reading :: rest => reading.IsNatural ∧ Reading.AllNatural rest

end

namespace Emission

variable {emission before between after : Emission} {name : StackName}

/-- The depths are not above the highest places. -/
def Bounds (emission : Emission) (depths : Depths) : Prop :=
  depths.results ≤ emission.results.highest ∧ depths.positions ≤ emission.positions.highest

/-- No depth is above the highest places. -/
structure Within (emission : Emission) : Prop where
  depths : emission.Bounds emission.depths
  exits : ∀ exits ∈ emission.exits, ∀ depths ∈ exits, emission.Bounds depths

/-- The slot is defined. -/
def Holds (emission : Emission) (slot : Slot) : Prop :=
  (slot.index : Int) ≤ (emission.stack slot.stack).highest

/-- Highest places rise, and depths are noted for the innermost loop only. -/
structure Extends (before after : Emission) : Prop where
  results : before.results.highest ≤ after.results.highest
  positions : before.positions.highest ≤ after.positions.highest
  exits : ∃ added, after.exits = before.exits.modifyHead (· ++ added)
  within : after.Within

theorem Extends.bounds (extend : Extends before after) {depths : Depths} (bounds : before.Bounds depths) :
    after.Bounds depths :=
  ⟨Int.le_trans bounds.1 extend.results, Int.le_trans bounds.2 extend.positions⟩

theorem Extends.holds (extend : Extends before after) {slot : Slot} (holds : before.Holds slot) :
    after.Holds slot := by
  rcases slot with ⟨_ | _, index⟩
  · exact Int.le_trans holds extend.results
  · exact Int.le_trans holds extend.positions

theorem Extends.refl (within : before.Within) : Extends before before :=
  ⟨Int.le_refl _, Int.le_refl _, ⟨[], by cases before.exits <;> simp⟩, within⟩

theorem Extends.trans (first : Extends before between) (second : Extends between after) :
    Extends before after := by
  obtain ⟨added, exits⟩ := first.exits
  obtain ⟨added', exits'⟩ := second.exits
  refine ⟨Int.le_trans first.results second.results, Int.le_trans first.positions second.positions,
    ⟨added ++ added', ?_⟩, second.within⟩
  rw [exits', exits]
  cases before.exits <;> simp

/-- What was noted stays. -/
theorem Extends.leftAt (extend : Extends before after) {depths : Depths} (left : before.LeftAt depths) :
    after.LeftAt depths := by
  obtain ⟨added, exits⟩ := extend.exits
  obtain ⟨noted, first, member⟩ := left
  obtain ⟨outer, same⟩ := List.head?_eq_some_iff.mp first
  exact ⟨noted ++ added, by simp [exits, same], List.mem_append_left _ member⟩

/-- Without a new exit, only the depths have to be looked at. -/
theorem Extends.of_exits (within : before.Within)
    (results : before.results.highest ≤ after.results.highest)
    (positions : before.positions.highest ≤ after.positions.highest)
    (exits : after.exits = before.exits) (bounds : after.Bounds after.depths) : Extends before after :=
  ⟨results, positions, ⟨[], by rw [exits]; cases before.exits <;> simp⟩, bounds, fun es hes depths member =>
    have before := within.exits es (exits ▸ hes) depths member
    ⟨Int.le_trans before.1 results, Int.le_trans before.2 positions⟩⟩

theorem Extends.restore (within : before.Within) {depths : Depths} (bounds : before.Bounds depths) :
    Extends before (before.restore depths) :=
  .of_exits within (Int.le_refl _) (Int.le_refl _) rfl bounds

theorem Extends.setTop (within : before.Within) {place : Int}
    (below : place ≤ (before.stack name).highest) : Extends before (before.setTop name place) := by
  cases name
  · exact .of_exits within (Int.le_refl _) (Int.le_refl _) rfl ⟨below, within.depths.2⟩
  · exact .of_exits within (Int.le_refl _) (Int.le_refl _) rfl ⟨within.depths.1, below⟩

theorem Within.top (within : before.Within) : (before.stack name).top ≤ (before.stack name).highest := by
  cases name
  · exact within.depths.1
  · exact within.depths.2

/-- A natural number of slots is taken away. -/
theorem Extends.lowered (within : before.Within) {count : Int} (natural : 0 ≤ count) :
    Extends before (before.setTop name ((before.stack name).top - count)) := by
  have : (before.stack name).top ≤ (before.stack name).highest := within.top
  exact .setTop within (by omega)

theorem Extends.pushed (within : before.Within) : Extends before (before.pushed name) := by
  cases name
  · exact .of_exits within (Int.le_max_left _ _) (Int.le_refl _) rfl
      ⟨Int.le_max_right _ _, within.depths.2⟩
  · exact .of_exits within (Int.le_refl _) (Int.le_max_left _ _) rfl
      ⟨within.depths.1, Int.le_max_right _ _⟩

theorem Extends.noted (within : before.Within) : Extends before before.noted := by
  refine ⟨Int.le_refl _, Int.le_refl _, ⟨_, rfl⟩, within.depths, fun es member depths noted => ?_⟩
  have exits := within.exits
  change es ∈ before.exits.modifyHead (· ++ [before.depths]) at member
  cases open? : before.exits with
  | nil => simp [open?] at member
  | cons innermost outer =>
    rw [open?, List.modifyHead_cons] at member
    rcases List.mem_cons.mp member with rfl | member
    · rcases List.mem_append.mp noted with old | new
      · exact exits innermost (by simp [open?]) depths old
      · exact List.mem_singleton.mp new ▸ within.depths
    · exact exits es (by simp [open?, member]) depths noted

/-- A jump out of the loop, after which the stack of results is as deep as it was. -/
theorem Extends.leaving (within : before.Within) (extend : Extends before between) :
    Extends between (between.noted.setTop .results before.results.top) :=
  have noted : Extends between between.noted := .noted extend.within
  noted.trans (.setTop noted.within
    (Int.le_trans within.depths.1 (Int.le_trans extend.results noted.results)))

/-- A loop is opened and closed. What is noted for it does not count outside. -/
theorem Extends.around (within : before.Within) (inside : Extends before.opened between)
    {done : Depths} (bounds : between.Bounds done) : Extends before (between.closed.restore done) := by
  obtain ⟨added, exits⟩ := inside.exits
  have closed : between.closed.exits = before.exits := by
    change between.exits.tail = _
    rw [exits]
    rfl
  exact .of_exits within inside.results inside.positions closed bounds

/-- The second arm of a condition begins as deep as the first one did, and the depths behind both are
those of one of them. -/
theorem Extends.arms {afterYes afterNo : Emission} (within : before.Within)
    (first : Extends before afterYes) (second : Extends (afterYes.restore before.depths) afterNo)
    (jumps : Bool) : Extends afterYes afterNo ∧
      Extends afterNo (afterNo.restore (if jumps then afterYes.depths else afterNo.depths)) := by
  have back := Extends.restore first.within (first.bounds within.depths)
  have second := back.trans second
  refine ⟨second, .restore second.within ?_⟩
  split
  · exact second.bounds first.within.depths
  · exact second.within.depths

theorem Within.opened (within : before.Within) : before.opened.Within :=
  ⟨within.depths, List.forall_mem_cons.mpr ⟨nofun, within.exits⟩⟩

theorem holds_closed_restore {depths : Depths} {slot : Slot} :
    (emission.closed.restore depths).Holds slot ↔ emission.Holds slot := by
  rcases slot with ⟨_ | _, index⟩ <;> rfl

theorem holds_pushed (place : 0 ≤ (before.stack name).top + 1) :
    (before.pushed name).Holds ⟨name, ((before.stack name).top + 1).toNat⟩ := by
  have natural := Int.toNat_of_nonneg place
  cases name
  · exact Int.le_trans (Int.le_of_eq natural) (Int.le_max_right _ _)
  · exact Int.le_trans (Int.le_of_eq natural) (Int.le_max_right _ _)

theorem Within.holds (within : before.Within) {place : Int} (natural : 0 ≤ place)
    (below : place ≤ (before.stack name).top) : before.Holds ⟨name, place.toNat⟩ := by
  have natural := Int.toNat_of_nonneg natural
  exact Int.le_trans (Int.le_of_eq natural) (Int.le_trans below within.top)

/-- The slots at distances from the top. -/
theorem Within.distant (within : before.Within) {distances : List Word}
    (are : ∀ distance ∈ distances, Emit.IsDistance before.results.top distance) :
    ∀ slot ∈ distances.map (Emit.distant before.results.top), before.Holds slot := by
  intro slot member
  obtain ⟨distance, here, rfl⟩ := List.mem_map.mp member
  obtain ⟨n, rfl, lower, upper⟩ := are distance here
  exact within.holds (by simp [Word.number?]; omega) (by simp [Word.number?]; omega)

end Emission

namespace Emit

open Emission

variable {context : EmitContext} {before between after : Emission} {statements : List Statement}

/-- A statement that sets a new slot on top of what is left of a stack. -/
theorem set_extends (source : Source) (first : Extends before between)
    (place : 0 ≤ between.results.top + 1) (sources : ∀ slot ∈ source.slots, before.Holds slot) :
    Extends before (between.pushed .results) ∧
      ∀ slot ∈ Statement.allSlots [.set ⟨.results, (between.results.top + 1).toNat⟩ source],
        (between.pushed .results).Holds slot := by
  have pushed : Extends between (between.pushed .results) := .pushed first.within
  have extend := first.trans pushed
  refine ⟨extend, fun slot member => ?_⟩
  simp only [Statement.allSlots, Statement.slots, List.append_nil, List.mem_cons] at member
  rcases member with rfl | member
  · exact holds_pushed place
  · exact extend.holds (sources slot member)

theorem simple_extends {opcode : Opcode} {place : Int} {operands further : List Word}
    (does : Does (simple context place opcode operands further) before statements after)
    (natural : ∀ word ∈ operands, word.IsNatural) (within : before.Within) :
    Extends before after ∧ ∀ slot ∈ Statement.allSlots statements, after.Holds slot := by
  cases opcode <;> simp only [simple, does_bind, does_pure, does_discard, does_pushResult,
    does_number, does_present, does_indexes, does_keepOne, does_push, does_pop, does_popMany,
    does_top, does_leave, stack_results, stack_positions] at does
  case pushEmptyText | pushUndefined | pushNull | pushFailed | pushEmptyList | matchAny =>
    obtain ⟨place, rfl, rfl⟩ := does
    exact set_extends _ (.refl within) place (List.forall_mem_nil _)
  case matchLowercase | matchClass =>
    obtain ⟨n, _, ⟨number, rfl⟩, place, rfl, rfl⟩ := does
    exact set_extends _ (.refl within) place (List.forall_mem_nil _)
  case matchLiteral =>
    obtain ⟨n, _, ⟨number, rfl⟩, literal, _, ⟨-, rfl⟩, place, rfl, rfl⟩ := does
    exact set_extends _ (.refl within) place (by split <;> exact List.forall_mem_nil _)
  case rule =>
    obtain ⟨n, _, ⟨number, rfl⟩, name, _, ⟨named, rfl⟩, place, rfl, rfl⟩ := does
    exact set_extends _ (.refl within) place (List.forall_mem_nil _)
  case acceptCount =>
    obtain ⟨n, _, ⟨number, rfl⟩, _, _, ⟨place, rfl, rfl⟩, rfl, rfl⟩ := does
    exact set_extends _ (.refl within) place (List.forall_mem_nil _)
  case acceptLiteral =>
    obtain ⟨n, _, ⟨number, rfl⟩, _, _, ⟨place, rfl, rfl⟩, literal, _, ⟨there, rfl⟩, rfl, rfl⟩ := does
    exact set_extends _ (.refl within) place (List.forall_mem_nil _)
  case markHere | silence | unsilence | openRecord =>
    obtain ⟨rfl, rfl⟩ := does
    exact ⟨.refl within, List.forall_mem_nil _⟩
  case ifTrue | ifFailed | ifMatched | ifFewer | ifReached | ifFewerThan | ifReachedBy | loop =>
    obtain ⟨rfl, rfl⟩ := does
    exact ⟨.refl within, List.forall_mem_nil _⟩
  case expect | closeRecord =>
    obtain ⟨n, _, ⟨number, rfl⟩, rfl, rfl⟩ := does
    exact ⟨.refl within, List.forall_mem_nil _⟩
  case loadPosition | markTop =>
    obtain ⟨_, _, ⟨bound, rfl, rfl⟩, rfl, rfl⟩ := does
    refine ⟨.refl within, fun slot member => ?_⟩
    obtain rfl := List.mem_singleton.mp member
    exact within.holds bound (Int.le_refl _)
  case pushPosition =>
    obtain ⟨_, _, ⟨place, rfl, rfl⟩, rfl, rfl⟩ := does
    refine ⟨.pushed within, fun slot member => ?_⟩
    obtain rfl := List.mem_singleton.mp member
    exact holds_pushed place
  case pop | popPosition =>
    obtain ⟨_, _, ⟨_, bound, rfl, rfl⟩, rfl, rfl⟩ := does
    exact ⟨.lowered within (by decide), List.forall_mem_nil _⟩
  case append =>
    obtain ⟨_, _, ⟨bound, rfl, rfl⟩, _, _, ⟨bound', rfl, rfl⟩, rfl, rfl⟩ := does
    have extend : Extends before (before.setTop .results (before.results.top - 1)) :=
      .lowered within (by decide)
    refine ⟨extend, fun slot member => ?_⟩
    simp only [Statement.allSlots, Statement.slots, List.append_nil, List.mem_cons,
      List.not_mem_nil, or_false] at member
    rcases member with rfl | rfl
    · exact extend.within.holds bound' (Int.le_refl _)
    · exact extend.holds (within.holds bound (Int.le_refl _))
  case text =>
    obtain ⟨_, _, ⟨_, bound, rfl, rfl⟩, _, _, ⟨bound', rfl, rfl⟩, place, rfl, rfl⟩ := does
    refine set_extends _ (.lowered within (by decide)) place fun slot member => ?_
    obtain rfl := List.mem_singleton.mp member
    exact within.holds bound' (Int.le_refl _)
  case wrap =>
    obtain ⟨n, _, ⟨number, rfl⟩, _, _, ⟨-, rfl, rfl⟩, place, rfl, rfl⟩ := does
    have natural := Word.natural_of_number? natural number
    refine set_extends _ (.lowered within natural) place fun slot member => ?_
    obtain ⟨i, inside, rfl⟩ := List.mem_map.mp member
    simp only [List.mem_range] at inside
    simp only [results_setTop_results] at place
    exact within.holds (by omega) (by simp only [stack_results]; omega)
  case wrapSome =>
    obtain ⟨_, _, ⟨are, rfl, rfl⟩, n, _, ⟨number, rfl⟩, _, _, ⟨_, -, rfl, rfl⟩, place, rfl, rfl⟩ := does
    have natural := Word.natural_of_number? natural number
    exact set_extends _ (.lowered within natural) place (within.distant are)
  case call =>
    obtain ⟨_, _, ⟨are, rfl, rfl⟩, n, _, ⟨number, rfl⟩, _, _, ⟨_, -, rfl, rfl⟩, f, _, ⟨number', rfl⟩,
      place, rfl, rfl⟩ := does
    have natural := Word.natural_of_number? natural number
    exact set_extends _ (.lowered within natural) place (within.distant are)
  case get =>
    obtain ⟨distance, _, ⟨number, rfl⟩, n, before, ⟨number', rfl⟩, lower, upper, bound, rfl, rfl⟩ := does
    have natural := Word.natural_of_number? natural number'
    have lowered : Extends before (before.setTop .results (before.results.top - n)) :=
      .lowered within natural
    have value : before.Holds ⟨.results, (before.results.top - distance).toNat⟩ :=
      within.holds (by omega) (by simp only [stack_results]; omega)
    obtain ⟨extend, holds⟩ := set_extends (.slot _) lowered
      (by simp only [results_setTop_results]; omega) (List.forall_mem_singleton.mpr value)
    refine ⟨extend, ?_⟩
    split
    · exact List.forall_mem_nil _
    · exact holds
  case leave =>
    obtain ⟨n, before, ⟨number, rfl⟩, bound, looping, rfl, rfl⟩ := does
    by_cases positive : 0 < n
    · have lowered : Extends before (before.setTop .results (before.results.top - n)) :=
        .lowered within (Int.le_of_lt positive)
      obtain ⟨extend, holds⟩ := set_extends .failed lowered (bound positive) (List.forall_mem_nil _)
      have leaving := Extends.leaving within extend
      rw [if_pos positive, if_pos positive]
      exact ⟨extend.trans leaving, fun slot member => leaving.holds (holds slot member)⟩
    · rw [if_neg positive, if_neg positive]
      exact ⟨.leaving within (.refl within), List.forall_mem_nil _⟩

theorem condition_extends {opcode : Opcode} {operands : List Word} {condition : Condition}
    (does : Does (Emit.condition opcode operands) before condition after) (within : before.Within) :
    after = before ∧ ∀ slot ∈ condition.slots, before.Holds slot := by
  simp only [Emit.condition, does_bind, does_top, stack_results] at does
  obtain ⟨_, before, ⟨bound, rfl, rfl⟩, does⟩ := does
  have top : before.Holds ⟨.results, before.results.top.toNat⟩ := within.holds bound (Int.le_refl _)
  have alone := List.forall_mem_singleton.mpr top
  cases opcode
  case ifFewer =>
    simp only [does_bind, does_number, does_pure] at does
    obtain ⟨n, _, ⟨-, rfl⟩, rfl, rfl⟩ := does
    exact ⟨rfl, alone⟩
  case ifReached =>
    simp only [does_bind, does_present, does_pure] at does
    obtain ⟨word, _, ⟨-, rfl⟩, rfl, rfl⟩ := does
    exact ⟨rfl, alone⟩
  case ifFewerThan | ifReachedBy =>
    simp only [does_bind, does_number, does_index, stack_results, does_pure] at does
    obtain ⟨n, before, ⟨-, rfl⟩, _, _, ⟨lower, upper, rfl, rfl⟩, rfl, rfl⟩ := does
    refine ⟨rfl, List.forall_mem_cons.mpr ⟨top, List.forall_mem_singleton.mpr ?_⟩⟩
    exact within.holds upper (by simp only [stack_results]; omega)
  all_goals
    obtain ⟨rfl, rfl⟩ := does_pure.mp does
    exact ⟨rfl, alone⟩

/-- The depths behind a loop are some that there were. -/
theorem behindLoop_bounds (endless jumps : Bool) {base : Depths} (within : between.Within)
    (bounds : between.Bounds base) :
    between.Bounds (behindLoop endless jumps base between.depths (between.exits.headD [])) := by
  unfold behindLoop
  split
  · exact bounds
  · split
    · exact within.depths
    · cases noted : between.exits with
      | nil => exact bounds
      | cons exits outer =>
        cases exits with
        | nil => exact bounds
        | cons depths rest => exact within.exits (depths :: rest) (by simp [noted]) depths (by simp)

mutual

theorem one_extends (context : EmitContext) (reading : Reading) (natural : reading.IsNatural)
    {before after : Emission} {statements : List Statement} {jumps : Bool} (within : before.Within)
    (does : Does (one context reading) before (statements, jumps) after) :
    Extends before after ∧ ∀ slot ∈ Statement.allSlots statements, after.Holds slot := by
  match reading, natural with
  | .plain place opcode operands further, natural =>
    exact simple_extends (does_plain.mp does).1 natural.1 within
  | .test place opcode operands length yes no, ⟨present, natural, natural'⟩ =>
    obtain ⟨condition, _, examined, whenYes, yesJumps, afterYes, whenNo, noJumps, afterNo, first,
      second, -, rfl, rfl, rfl⟩ := (does_test present).mp does
    obtain ⟨rfl, holds⟩ := condition_extends examined within
    obtain ⟨extend, holds'⟩ := body_extends context yes natural within first
    have back := Extends.restore extend.within (extend.bounds within.depths)
    obtain ⟨extend', holds''⟩ := body_extends context no natural' back.within second
    obtain ⟨later, last⟩ := extend.arms within extend' (noJumps || !yesJumps)
    have whole := extend.trans (later.trans last)
    refine ⟨whole, fun slot member => ?_⟩
    simp only [Statement.allSlots, Statement.slots, List.append_nil, List.mem_append] at member
    rcases member with (member | member) | member
    · exact whole.holds (holds slot member)
    · exact (later.trans last).holds (holds' slot member)
    · exact last.holds (holds'' slot member)
  | .loop place flag block, natural =>
    obtain ⟨inner, leaves, behind, done, inside, -, rfl, -, rfl, rfl, rfl⟩ := does_loop.mp does
    obtain ⟨extend, holds⟩ := body_extends context block natural within.opened inside
    have bounds := behindLoop_bounds (flag != 0) leaves extend.within
      (extend.bounds within.opened.depths)
    refine ⟨.around within extend bounds, fun slot member => ?_⟩
    have inner : slot ∈ Statement.allSlots inner := by
      simp only [Statement.allSlots, Statement.slots, Statement.allSlots_append, List.append_nil,
        List.mem_append] at member
      rcases member with member | member
      · exact member
      · split at member <;> exact absurd member (by simp [Statement.allSlots, Statement.slots])
    exact holds_closed_restore.mpr (holds slot inner)
  | .cutTest place opcode operands, _ => simp [one, missing] at does
  | .invalid place word, _ => simp [one] at does
  | .missing, _ => simp [one, missing] at does

theorem body_extends (context : EmitContext) (block : List Reading)
    (natural : Reading.AllNatural block) {before after : Emission} {statements : List Statement}
    {jumps : Bool} (within : before.Within)
    (does : Does (body context block) before (statements, jumps) after) :
    Extends before after ∧ ∀ slot ∈ Statement.allSlots statements, after.Holds slot := by
  match block, natural with
  | [], _ =>
    obtain ⟨rfl, rfl, rfl⟩ := does_body_nil.mp does
    exact ⟨.refl within, nofun⟩
  | reading :: rest, ⟨natural, natural'⟩ =>
    obtain ⟨first, jump, between, here, others⟩ := does_body_cons.mp does
    obtain ⟨extend, holds⟩ := one_extends context reading natural within here
    split at others
    · obtain ⟨rfl, rfl, rfl⟩ := others
      exact ⟨extend, holds⟩
    · obtain ⟨others, later, rfl⟩ := others
      obtain ⟨extend', holds'⟩ := body_extends context rest natural' extend.within later
      refine ⟨extend.trans extend', fun slot member => ?_⟩
      rw [Statement.allSlots_append, List.mem_append] at member
      rcases member with member | member
      · exact extend'.holds (holds slot member)
      · exact holds' slot member

end

/-- The arms of a test, one after the other. -/
theorem arms_extend {yes no : List Reading} {afterYes afterNo : Emission}
    {whenYes whenNo : List Statement} {yesJumps noJumps : Bool} (natural : Reading.AllNatural yes)
    (natural' : Reading.AllNatural no) (within : before.Within)
    (first : Does (body context yes) before (whenYes, yesJumps) afterYes)
    (second : Does (body context no) (afterYes.restore before.depths) (whenNo, noJumps) afterNo) :
    (afterYes.restore before.depths).Within ∧ Extends afterYes afterNo ∧
      Extends afterNo (afterNo.restore
        (if noJumps || !yesJumps then afterYes.depths else afterNo.depths)) := by
  have extend := (body_extends context yes natural within first).1
  have back := Extends.restore extend.within (extend.bounds within.depths)
  have extend' := (body_extends context no natural' back.within second).1
  exact ⟨back.within, extend.arms within extend' _⟩

end Emit

end PegCompiler
