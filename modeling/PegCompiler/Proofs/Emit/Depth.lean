import PegCompiler.Proofs.Code.Lowered
import PegCompiler.Proofs.Emit.Readings
import PegCompiler.Proofs.Emit.Slots

/-!
Depths of instructions. `Emits` says that instructions are emitted from given depths on, what the
depths are behind them, whether they end in a jump, and at which depths they leave the loop around.
There is one rule for every kind of instruction, and one for instructions in a row.
-/

namespace PegCompiler

namespace Op

/-- The depths behind an instruction. -/
def depths (d : Depths) : Op → Depths
  | push _ | matchAny | matchLiteral _ | matchLowercase _ | matchClass _ | acceptCount _
  | acceptLiteral _ | rule _ => { d with results := d.results + 1 }
  | pop | append => { d with results := d.results - 1 }
  | wrap count | wrapSome count _ | get count _ | call _ count _ =>
    { d with results := d.results - count + 1 }
  | pushPosition => { d with positions := d.positions + 1 }
  | popPosition => { d with positions := d.positions - 1 }
  | leave _ | text | loadPosition | expect _ | markTop | markHere | silence | unsilence | openRecord
  | closeRecord _ => d

/-- What an instruction needs on the stacks and in the tables. -/
def Fits (context : EmitContext) (d : Depths) : Op → Prop
  | pop => 0 ≤ d.results
  | append => 1 ≤ d.results
  | wrap count => count ≤ d.results + 1
  | wrapSome count indexes => count ≤ d.results + 1 ∧ ∀ i ∈ indexes, i ≤ d.results
  | get count index => count ≤ d.results + 1 ∧ index ≤ d.results
  | call _ count arguments => count ≤ d.results + 1 ∧ ∀ i ∈ arguments, i ≤ d.results
  | text => 0 ≤ d.results ∧ 0 ≤ d.positions
  | loadPosition | popPosition | markTop => 0 ≤ d.positions
  | matchLiteral i | acceptLiteral i => ∃ value, Index.at? context.literals i = some value
  | rule i => i < context.ruleNames.length
  | leave _ => False
  | _ => True

/-- Instructions in a row that have what they need lead from one depth to another. -/
def Leads (context : EmitContext) (a : Depths) : List Op → Depths → Prop
  | [], b => a = b
  | op :: rest, b => op.Fits context a ∧ (∀ n ∈ op.operands, 0 ≤ n) ∧
      (-1 ≤ a.results ∧ -1 ≤ a.positions) ∧ Leads context (op.depths a) rest b

/-- Operands are natural numbers, and a rule is one that there is. -/
def IsValid (rules : Nat) (op : Op) : Prop :=
  (∀ n ∈ op.operands, 0 ≤ n) ∧ ∀ i, op = rule i → i < rules

end Op

namespace Test

/-- What a test needs on the stack of results. -/
def Fits (d : Depths) : Test → Prop
  | fewerThan index | reachedBy index => 0 ≤ d.results ∧ 0 ≤ index ∧ index ≤ d.results
  | _ => 0 ≤ d.results

end Test

namespace Instr

mutual

/-- Something holds of all instructions without blocks. -/
def AllOps (P : Op → Prop) : Instr → Prop
  | op o => P o
  | branch _ yes no => RowOps P yes ∧ RowOps P no
  | loop _ body => RowOps P body

def RowOps (P : Op → Prop) : List Instr → Prop
  | [] => True
  | i :: rest => AllOps P i ∧ RowOps P rest

end

variable {P : Op → Prop}

theorem rowOps_append {first second : List Instr} :
    RowOps P (first ++ second) ↔ RowOps P first ∧ RowOps P second := by
  induction first with
  | nil => simp [RowOps]
  | cons i rest ih => simp [RowOps, ih, and_assoc]

theorem readings_append (place : Int) (first second : List Instr) :
    readings place (first ++ second) =
      readings place first ++ readings (place + (encode first).length) second := by
  induction first generalizing place with
  | nil => simp [readings, encode]
  | cons i rest ih =>
    simp only [List.cons_append, readings, ih, encode, List.length_append]
    rw [show place + ((words i).length + (encode rest).length : Nat) =
      place + (words i).length + (encode rest).length by omega]

mutual

/-- Instructions with natural operands are read with natural operands. -/
theorem reading_natural (natural : ∀ op, P op → ∀ n ∈ op.operands, 0 ≤ n) (place : Int) (i : Instr)
    (all : AllOps P i) : (reading place i).IsNatural := by
  match i with
  | op o =>
    have words : ∀ word ∈ Word.ofInts o.split.1, word.IsNatural := by
      intro word member
      obtain ⟨n, here, rfl⟩ := List.mem_map.mp member
      refine natural o all n ?_
      rcases operands_layout o with ⟨-, split⟩ | ⟨first, further, -, operands, split⟩
      · simpa [split] using here
      · rw [operands]
        exact List.mem_append_left _ (by simpa [split] using here)
    have layout : (∀ n, o.opcode.layout ≠ .test n) ∧ o.opcode.layout ≠ .loop := by
      rcases operands_layout o with ⟨layout, -⟩ | ⟨_, _, layout, -⟩ <;> simp [layout]
    exact ⟨words, layout⟩
  | branch test yes no =>
    refine ⟨?_, readings_natural natural _ yes all.1, readings_natural natural _ no all.2⟩
    cases no with
    | nil => exact .inr rfl
    | cons i rest =>
      have := length_words_pos i
      simp only [encode, List.length_append]
      omega
  | loop endless body => exact readings_natural natural _ body all

theorem readings_natural (natural : ∀ op, P op → ∀ n ∈ op.operands, 0 ≤ n) (place : Int)
    (code : List Instr) (all : RowOps P code) : Reading.AllNatural (readings place code) := by
  match code with
  | [] => trivial
  | i :: rest => exact ⟨reading_natural natural place i all.1, readings_natural natural _ rest all.2⟩

end

theorem readings_eq_nil {place : Int} {code : List Instr} : readings place code = [] ↔ code = [] := by
  cases code <;> simp [readings]

end Instr

namespace Emit

theorem does_body_append {context : EmitContext} {first second : List Reading}
    {before between after : Emission} {statements others : List Statement} {jump jumps : Bool}
    (does : Does (body context first) before (statements, jump) between)
    (later : Does (body context second) between (others, jumps) after) :
    Does (body context (first ++ second)) before
      (statements ++ others, if second = [] then jump else jumps) after := by
  induction first generalizing before statements with
  | nil =>
    obtain ⟨rfl, rfl, rfl⟩ := does_body_nil.mp does
    split
    · rename_i empty
      subst empty
      obtain ⟨-, rfl, -⟩ := does_body_nil.mp later
      exact later
    · exact later
  | cons reading rest ih =>
    obtain ⟨one, jump', here, head, others'⟩ := does_body_cons.mp does
    rw [List.cons_append]
    refine does_body_cons.mpr ⟨one, jump', here, head, ?_⟩
    split at others'
    · rename_i last
      subst last
      obtain ⟨rfl, rfl, rfl⟩ := others'
      rw [List.nil_append]
      split
      · rename_i empty
        subst empty
        obtain ⟨rfl, -, rfl⟩ := does_body_nil.mp later
        exact ⟨by simp, rfl, rfl⟩
      · exact ⟨others, later, rfl⟩
    · rename_i more
      obtain ⟨rest', tail, rfl⟩ := others'
      rw [if_neg (by simp [more])]
      exact ⟨rest' ++ others, ih tail, by simp⟩

/-- Instructions are emitted between these depths. `out` is the depth at which they may leave the loop
around. -/
def Emits (context : EmitContext) (code : List Instr) (start stop : Depths) (jumps : Bool)
    (out : Option Depths) : Prop :=
  Instr.RowOps (Op.IsValid context.ruleNames.length) code ∧
  ∀ (place : Int) (before : Emission), before.depths = start → (out.isSome → before.exits ≠ []) →
    ∃ statements after added,
      Does (body context (Instr.readings place code)) before (statements, jumps) after ∧
      after.depths = stop ∧ after.exits = before.exits.modifyHead (· ++ added) ∧
      ∀ depths ∈ added, out = some depths

namespace Emits

variable {context : EmitContext} {code first second yes no : List Instr} {a b c : Depths}
  {jump jumps : Bool} {out : Option Depths}

theorem nil : Emits context [] a a false out :=
  ⟨trivial, fun place before deep _ =>
    ⟨[], before, [], does_body_nil.mpr ⟨rfl, rfl, rfl⟩, deep, by cases before.exits <;> simp, nofun⟩⟩

theorem append (one : Emits context first a b jump out) (two : Emits context second b c jumps out) :
    Emits context (first ++ second) a c (if second = [] then jump else jumps) out := by
  refine ⟨Instr.rowOps_append.mpr ⟨one.1, two.1⟩, fun place before deep looping => ?_⟩
  obtain ⟨statements, between, added, does, deep, exits, left⟩ := one.2 place before deep looping
  have looping' : out.isSome → between.exits ≠ [] := by
    intro some
    rw [exits]
    cases open? : before.exits with
    | nil => exact absurd open? (looping some)
    | cons => simp
  obtain ⟨others, after, added', does', deep', exits', left'⟩ :=
    two.2 (place + (Instr.encode first).length) between deep looping'
  refine ⟨statements ++ others, after, added ++ added', ?_, deep', ?_, ?_⟩
  · have := does_body_append does does'
    simpa only [← Instr.readings_append, Instr.readings_eq_nil] using this
  · rw [exits', exits]
    cases before.exits <;> simp
  · exact fun depths member => (List.mem_append.mp member).elim (left depths) (left' depths)

/-- Code that falls through, and more of it. -/
theorem followed (one : Emits context first a b false out) (two : Emits context second b c false out) :
    Emits context (first ++ second) a c false out := by
  simpa using one.append two

/-- Code with anything in front, which may be a jump. -/
theorem behind (one : Emits context first a b jump out) (two : Emits context second b c jumps out)
    (more : second ≠ []) : Emits context (first ++ second) a c jumps out := by
  simpa [more] using one.append two

/-- Code that does not leave the loop around may stand in any. -/
theorem anywhere (emits : Emits context code a b jumps none) : Emits context code a b jumps out :=
  ⟨emits.1, fun place before deep _ => by
    obtain ⟨statements, after, added, does, deep, exits, left⟩ := emits.2 place before deep nofun
    exact ⟨statements, after, added, does, deep, exits, fun depths member => nomatch left depths member⟩⟩

section Instructions

variable {op : Op} {os : List Op} {test : Test}

/-- An instruction without blocks that leaves no loop. -/
theorem of_simple (valid : op.IsValid context.ruleNames.length) (stays : op.opcode ≠ .leave)
    (does : ∀ (place : Int) (before : Emission), before.depths = a → ∃ statements after,
      Does (simple context place op.opcode (Word.ofInts op.split.1) (Word.ofInts op.split.2)) before
        statements after ∧ after.depths = b ∧ after.exits = before.exits) :
    Emits context [.op op] a b false out := by
  refine ⟨⟨valid, trivial⟩, fun place before deep _ => ?_⟩
  obtain ⟨statements, after, does, deep, exits⟩ := does place before deep
  exact ⟨statements, after, [], does_body_singleton.mpr (does_plain.mpr ⟨does, by simpa using stays⟩),
    deep, by rw [exits]; cases before.exits <;> simp, nofun⟩

/-- What an instruction needs is enough. -/
theorem of_op (fits : op.Fits context a) (natural : ∀ n ∈ op.operands, 0 ≤ n)
    (lower : -1 ≤ a.results ∧ -1 ≤ a.positions) : Emits context [.op op] a (op.depths a) false out := by
  have valid : op.IsValid context.ruleNames.length :=
    ⟨natural, fun i same => by subst same; exact fits⟩
  have stays : op.opcode ≠ .leave := by
    cases op with
    | push constant => cases constant <;> nofun
    | leave count => exact absurd fits id
    | _ => nofun
  refine of_simple valid stays ?_
  rintro place before rfl
  simp only [Emission.depths] at lower
  have pushed : (0 : Int) ≤ before.results.top + 1 := by omega
  cases op with
  | push constant => cases constant <;> simp [Op.opcode, simple, Op.depths, Emission.depths, pushed]
  | leave count => exact absurd rfl stays
  | matchAny | matchLowercase | matchClass | acceptCount | expect | markHere | silence | unsilence
  | openRecord | closeRecord =>
    simp [Op.opcode, Op.split, Opcode.layout, Op.operands, simple, Op.depths, Emission.depths,
      Word.ofInts, Word.number?, pushed]
  | matchLiteral | acceptLiteral =>
    simpa [Op.opcode, Op.split, Opcode.layout, Op.operands, Op.Fits, simple, Op.depths,
      Emission.depths, Word.ofInts, Word.number?, pushed] using fits
  | rule index =>
    obtain ⟨i, rfl⟩ := Int.eq_ofNat_of_zero_le (natural index (by simp [Op.operands]))
    have bound : i < context.ruleNames.length := Int.ofNat_lt.mp fits
    simp [Op.opcode, Op.split, Opcode.layout, Op.operands, simple, Op.depths, Emission.depths,
      Word.ofInts, Word.number?, pushed, Index.at?, Index.place?_natCast bound, bound]
  | wrapSome | call =>
    simp [Op.opcode, Op.split, Opcode.layout, Op.operands, Op.Fits, simple, Op.depths,
      Emission.depths, Word.ofInts, Word.number?, IsDistance] at fits natural ⊢
    grind
  | pop | get | append | wrap | text | pushPosition | loadPosition | popPosition | markTop =>
    simp [Op.opcode, Op.split, Opcode.layout, Op.operands, Op.Fits, simple, Op.depths,
      Emission.depths, Word.ofInts, Word.number?] at fits natural ⊢
    omega

/-- Instructions in a row. -/
theorem ops (leads : Op.Leads context a os b) : Emits context (Build.ops os) a b false out := by
  rw [Build.ops_eq]
  induction os generalizing a with
  | nil =>
    obtain rfl : a = b := leads
    exact .nil
  | cons op rest ih =>
    obtain ⟨fits, natural, lower, others⟩ := leads
    exact (of_op fits natural lower).followed (ih others)

/-- A jump out of the loop. If there are results to take away, a failure takes their place. -/
theorem leave {count : Int} (natural : 0 ≤ count) (bound : count ≤ a.results + 1)
    (left : out = some (if 0 < count then { a with results := a.results - count + 1 } else a)) :
    Emits context [.op (.leave count)] a a true out := by
  refine ⟨⟨⟨by simpa [Op.operands] using natural, nofun⟩, trivial⟩, ?_⟩
  rintro place before rfl looping
  have inside : before.exits ≠ [] := looping (by simp [left])
  simp only [Emission.depths] at bound left
  let behind := if 0 < count then
    (before.setTop .results (before.results.top - count)).pushed .results else before
  have exits : behind.exits = before.exits := by
    simp only [behind]
    split <;> simp
  have deep : out = some behind.depths := by
    rw [left]
    simp only [behind]
    split <;> simp [Emission.depths]
  obtain ⟨statements, does⟩ : ∃ statements, Does (Emit.leave place count) before statements
      (behind.noted.setTop .results before.results.top) :=
    ⟨_, does_leave.mpr ⟨fun _ => by omega, inside, rfl, rfl⟩⟩
  refine ⟨statements, behind.noted.setTop .results before.results.top, [behind.depths],
    does_body_singleton.mpr (does_plain.mpr ⟨?_, rfl⟩), ?_, ?_, by simp [deep]⟩
  · simpa [Op.opcode, Op.split, Opcode.layout, Op.operands, simple, Word.ofInts, Word.number?] using does
  · simp only [behind]
    split <;> simp [Emission.depths, Emission.noted]
  · simp [Emission.noted, exits]

end Instructions

section Blocks

variable {test : Test}

/-- A test looks at the stack of results and leaves it alone. -/
theorem does_condition {before : Emission} (fits : test.Fits before.depths) :
    ∃ condition, Does (Emit.condition test.opcode test.operands) before condition before := by
  cases test <;>
    simpa [Test.Fits, Emission.depths, Emit.condition, Test.opcode, Test.operands, Word.number?] using fits

/-- Both arms end at the same depths. -/
theorem branch (fits : test.Fits a) (whenYes : Emits context yes a b jump out)
    (whenNo : Emits context no a b jumps out) :
    Emits context [.branch test yes no] a b (jump && jumps) out := by
  refine ⟨⟨⟨whenYes.1, whenNo.1⟩, trivial⟩, ?_⟩
  rintro place before rfl looping
  obtain ⟨condition, examined⟩ := does_condition fits
  let behind := place + 3 + test.operands.length
  obtain ⟨taken, afterYes, addedYes, doesYes, deepYes, exitsYes, leftYes⟩ :=
    whenYes.2 behind before rfl looping
  obtain ⟨others, afterNo, addedNo, doesNo, deepNo, exitsNo, leftNo⟩ :=
    whenNo.2 (behind + (Instr.encode yes).length) (afterYes.restore before.depths) rfl
      (fun some => by simpa [exitsYes] using looping some)
  have present : (0 : Int) < (Instr.encode no).length ∨
      Instr.readings (behind + (Instr.encode yes).length) no = [] := by
    cases no with
    | nil => exact .inr rfl
    | cons i rest =>
      have := Instr.length_words_pos i
      simp only [Instr.encode, List.length_append]
      omega
  refine ⟨_, afterNo.restore b, addedYes ++ addedNo,
    does_body_singleton.mpr ((does_test present).mpr ⟨condition, before, examined, taken, jump, afterYes,
      others, jumps, afterNo, doesYes, doesNo, ?_, rfl, rfl, ?_⟩), rfl, ?_, ?_⟩
  · exact fun _ _ => deepYes.trans deepNo.symm
  · rw [deepYes, deepNo, ite_self]
  · rw [Emission.exits_restore, exitsNo, Emission.exits_restore, exitsYes]
    cases before.exits <;> simp
  · exact fun depths member => (List.mem_append.mp member).elim (leftYes depths) (leftNo depths)

/-- A loop that goes round and is left at the depths it began with. -/
theorem loop (body : Emits context code a a jump (some a)) :
    Emits context [.loop true code] a a false out := by
  refine ⟨⟨body.1, trivial⟩, ?_⟩
  rintro place before rfl -
  obtain ⟨inner, behind, added, does, deep, exits, left⟩ :=
    body.2 (place + 3) before.opened rfl (by simp [Emission.opened])
  have noted : behind.exits = added :: before.exits := by simpa [Emission.opened] using exits
  refine ⟨_, behind.closed.restore before.depths, [], does_body_singleton.mpr (does_loop.mpr ⟨inner, jump,
    behind, before.depths, does, ?_, ?_, ?_, rfl, rfl, rfl⟩), rfl, ?_, nofun⟩
  · exact fun _ => ⟨congrArg Depths.positions deep, fun _ => congrArg Depths.results deep⟩
  · rfl
  · simp only [noted, List.headD_cons]
    exact fun depths member => Option.some.inj (left depths member)
  · rw [Emission.exits_restore, Emission.closed, noted]
    cases before.exits <;> simp

/-- A loop that is left behind its body at the latest. -/
theorem once (body : Emits context code a b false (some b)) (same : b.positions = a.positions) :
    Emits context [.loop false code] a b false out := by
  refine ⟨⟨body.1, trivial⟩, ?_⟩
  rintro place before rfl -
  obtain ⟨inner, behind, added, does, deep, exits, left⟩ :=
    body.2 (place + 3) before.opened rfl (by simp [Emission.opened])
  have noted : behind.exits = added :: before.exits := by simpa [Emission.opened] using exits
  refine ⟨_, behind.closed.restore b, [], does_body_singleton.mpr (does_loop.mpr ⟨inner, false,
    behind, b, does, ?_, ?_, ?_, rfl, rfl, rfl⟩), rfl, ?_, nofun⟩
  · exact fun _ => ⟨(congrArg Depths.positions deep).trans same, fun endless => absurd rfl endless⟩
  · rw [deep]
    rfl
  · simp only [noted, List.headD_cons]
    exact fun depths member => Option.some.inj (left depths member)
  · rw [Emission.exits_restore, Emission.closed, noted]
    cases before.exits <;> simp

end Blocks

/-- A rule whose code pushes one result is emitted, and that result is the only one. -/
theorem rule (emits : Emits context code ⟨-1, -1⟩ ⟨0, -1⟩ false none) (name : Text) :
    ∃ statements emission, Emit.rule context name (Instr.encode code) = (.ok statements, emission) ∧
      emission.results.top = 0 ∧ emission.positions.top = -1 ∧ 0 ≤ emission.results.highest := by
  obtain ⟨statements, after, -, does, deep, -⟩ := emits.2 0 { rule := name } rfl nofun
  have natural := Instr.readings_natural (fun _ valid => valid.1) 0 code emits.1
  have within : ({ rule := name } : Emission).Within := ⟨⟨Int.le_refl _, Int.le_refl _⟩, nofun⟩
  have bounds := (body_extends context _ natural within does).1.within.depths.1
  have results : after.results.top = 0 := congrArg Depths.results deep
  have runs : Emit.rule context name (Instr.encode code) = (.ok statements, after) := by
    have runs : go (body context (Instr.readings 0 code)) { rule := name } =
        (.ok (statements, false), after) := does
    unfold Emit.rule
    rw [Instr.ofWords_encode]
    change ((go (body context (Instr.readings 0 code)) { rule := name }).1.map Prod.fst,
      (go (body context (Instr.readings 0 code)) { rule := name }).2) = _
    rw [runs]
    rfl
  refine ⟨statements, after, runs, results, congrArg Depths.positions deep, ?_⟩
  exact results ▸ bounds

end Emits

end Emit

end PegCompiler
