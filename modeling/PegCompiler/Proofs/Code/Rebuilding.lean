import Mathlib.Logic.Function.Basic
import PegCompiler.Proofs.Code.Outlines

/-!
A listing shows blocks by their indentation alone: no length is written, and the second block of a
test leaves no line if it is empty. The words can be rebuilt from it all the same. The lines are
gathered from the last to the first, so that a block is there by the time its test or its loop is
met (`Pending.gather?_outlines`). Listings of well-nested words are therefore different if the words
are (`WellNested.listings_tell`).
-/

namespace PegCompiler

/-- Numbers laid out as opcodes with all their operands and blocks. -/
inductive WellNested : List Int → Prop
  | nil : WellNested []
  | plain {opcode : Opcode} {operands rest : List Int}
      (layout : opcode.layout = .operands operands.length) (others : WellNested rest) :
      WellNested (opcode.number :: (operands ++ rest))
  | counted {opcode : Opcode} {first further rest : List Int}
      (layout : opcode.layout = .counted (first.length + 1)) (others : WellNested rest) :
      WellNested (opcode.number :: (first ++ (further.length : Int) :: (further ++ rest)))
  | test {opcode : Opcode} {operands yes no rest : List Int}
      (layout : opcode.layout = .test operands.length) (inYes : WellNested yes)
      (inNo : WellNested no) (others : WellNested rest) :
      WellNested (opcode.number ::
        (operands ++ (yes.length : Int) :: (no.length : Int) :: (yes ++ (no ++ rest))))
  | loop {flag : Int} {body rest : List Int} (truth : flag = 0 ∨ flag = 1)
      (inBody : WellNested body) (others : WellNested rest) :
      WellNested (Opcode.loop.number :: flag :: (body.length : Int) :: (body ++ rest))

section Instructions

variable {opcode : Opcode}

theorem Op.ofWords?_eq_some {operands : List Int} {op : Op}
    (read : Op.ofWords? opcode operands = some op) :
    op.opcode = opcode ∧ op.operands = operands := by
  revert read
  fun_cases Op.ofWords? opcode operands <;> intro read <;> cases read <;>
    simp_all [Op.opcode, Op.operands]

theorem Op.exists_plain {operands : List Int}
    (layout : opcode.layout = .operands operands.length) :
    ∃ op : Op, op.opcode = opcode ∧ op.operands = operands := by
  have read : ∃ op, Op.ofWords? opcode operands = some op := by
    match operands with
    | [] => cases opcode <;> first | exact ⟨_, rfl⟩ | cases layout
    | [_] => cases opcode <;> first | exact ⟨_, rfl⟩ | cases layout
    | [_, _] => cases opcode <;> first | exact ⟨_, rfl⟩ | cases layout
    | _ :: _ :: _ :: _ => cases opcode <;> cases layout
  exact read.imp fun _ => Op.ofWords?_eq_some

theorem Op.exists_counted {first : List Int} (further : List Int)
    (layout : opcode.layout = .counted (first.length + 1)) :
    ∃ op : Op, op.opcode = opcode ∧
      op.operands = first ++ (further.length : Int) :: further := by
  match first with
  | [count] =>
    have : opcode = .wrapSome := by cases opcode <;> first | rfl | cases layout
    exact ⟨.wrapSome count further, this.symm, rfl⟩
  | [function, count] =>
    have : opcode = .call := by cases opcode <;> first | rfl | cases layout
    exact ⟨.call function count further, this.symm, rfl⟩
  | [] | _ :: _ :: _ :: _ => cases opcode <;> cases layout

theorem Test.exists_operands {operands : List Int}
    (layout : opcode.layout = .test operands.length) :
    ∃ test : Test, test.opcode = opcode ∧ test.operands = Word.ofInts operands := by
  match operands with
  | [] =>
    cases opcode with
    | ifTrue => exact ⟨.isTrue, rfl, rfl⟩
    | ifFailed => exact ⟨.isFailed, rfl, rfl⟩
    | ifMatched => exact ⟨.isMatched, rfl, rfl⟩
    | _ => cases layout
  | [n] =>
    cases opcode with
    | ifFewer => exact ⟨.fewer n, rfl, rfl⟩
    | ifReached => exact ⟨.reached n, rfl, rfl⟩
    | ifFewerThan => exact ⟨.fewerThan n, rfl, rfl⟩
    | ifReachedBy => exact ⟨.reachedBy n, rfl, rfl⟩
    | _ => cases layout
  | _ :: _ :: _ => cases opcode <;> cases layout

/-- Well-nested numbers are the words of instructions. -/
theorem WellNested.exists_encode {ns : List Int} (nested : WellNested ns) :
    ∃ code : List Instr, Instr.encode code = Word.ofInts ns := by
  induction nested with
  | nil => exact ⟨[], rfl⟩
  | plain layout _ others =>
    obtain ⟨rest, others⟩ := others
    obtain ⟨op, rfl, operands⟩ := Op.exists_plain layout
    refine ⟨.op op :: rest, ?_⟩
    simp only [Instr.encode, Instr.words, Op.words, operands, others, Word.ofInts_cons,
      Word.ofInts_append, List.cons_append]
  | @counted _ first further _ layout _ others =>
    obtain ⟨rest, others⟩ := others
    obtain ⟨op, rfl, operands⟩ := Op.exists_counted further layout
    refine ⟨.op op :: rest, ?_⟩
    simp only [Instr.encode, Instr.words, Op.words, operands, others, Word.ofInts_cons,
      Word.ofInts_append, List.cons_append, List.append_assoc]
  | test layout _ _ _ inYes inNo others =>
    obtain ⟨yes, inYes⟩ := inYes
    obtain ⟨no, inNo⟩ := inNo
    obtain ⟨rest, others⟩ := others
    obtain ⟨test, rfl, operands⟩ := Test.exists_operands layout
    refine ⟨.branch test yes no :: rest, ?_⟩
    simp only [Instr.encode, Instr.words, Test.words, operands, others, inYes, inNo,
      Word.length_ofInts, Word.ofInts_cons, Word.ofInts_append, List.cons_append,
      List.append_assoc]
    rfl
  | loop truth _ _ inBody others =>
    obtain ⟨body, inBody⟩ := inBody
    obtain ⟨rest, others⟩ := others
    obtain ⟨endless, rfl⟩ : ∃ endless, flagWord endless = _ :=
      truth.elim (fun zero => ⟨false, zero.symm⟩) fun one => ⟨true, one.symm⟩
    refine ⟨.loop endless body :: rest, ?_⟩
    simp only [Instr.encode, Instr.words, others, inBody, Word.length_ofInts, Word.ofInts_cons,
      Word.ofInts_append, List.cons_append]
    rfl

end Instructions

namespace Listing

/-- What the lines behind some place of a listing are: the instructions of the blocks at every
depth, and the blocks of a test whose own line is further up. -/
structure Pending where
  block : Nat → List Instr := fun _ => []
  arms : Nat → List (List Instr) := fun _ => []

namespace Pending

def front (pending : Pending) (depth : Nat) (code : List Instr) : Pending :=
  { pending with block := Function.update pending.block depth (code ++ pending.block depth) }

/-- Without the block at a depth. -/
def without (pending : Pending) (depth : Nat) : Pending :=
  { pending with block := Function.update pending.block depth [] }

def withArms (pending : Pending) (depth : Nat) (arms : List (List Instr)) : Pending :=
  { pending with arms := Function.update pending.arms depth arms }

/-- One line further up. -/
def take? (pending : Pending) (depth : Nat) : Line → Option Pending
  | .heading opcode operands =>
    match Test.ofWords? opcode operands with
    | some test =>
      let arms := pending.arms depth
      some ((pending.withArms depth []).front depth [.branch test (arms.getD 0 []) (arms.getD 1 [])])
    | none => do
      let op ← Op.ofWords? opcode (← Word.toInts? operands)
      return pending.front depth [.op op]
  | .loop endless =>
    some ((pending.without (depth + 1)).front depth [.loop endless (pending.block (depth + 1))])
  | .yes | .no =>
    let inner := pending.block (depth + 1)
    some ((pending.without (depth + 1)).withArms depth (inner :: pending.arms depth))

def gather? (outline : Outline) (pending : Pending) : Option Pending :=
  match outline with
  | [] => some pending
  | (depth, line) :: rest => do (← gather? rest pending).take? depth line

variable {pending : Pending} {depth : Nat}

theorem gather?_append (first second : Outline) (pending : Pending) :
    gather? (first ++ second) pending = (gather? second pending).bind (gather? first) := by
  induction first with
  | nil => simp [gather?]
  | cons entry rest ih =>
    obtain ⟨depth, line⟩ := entry
    cases later : gather? second pending <;> simp [gather?, ih, later]

/-- Nothing waits for a line that is as deep or deeper. -/
structure Settled (pending : Pending) (depth : Nat) : Prop where
  block : ∀ deeper, depth < deeper → pending.block deeper = []
  arms : ∀ deeper, depth ≤ deeper → pending.arms deeper = []

theorem withArms_arms {arms : List (List Instr)} :
    (pending.withArms depth arms).arms = Function.update pending.arms depth arms := rfl

theorem front_block {code : List Instr} :
    (pending.front depth code).block =
      Function.update pending.block depth (code ++ pending.block depth) := rfl

theorem Settled.inner (settled : pending.Settled depth) : pending.Settled (depth + 1) where
  block deeper below := settled.block deeper (by omega)
  arms deeper below := settled.arms deeper (by omega)

theorem Settled.withArms (settled : pending.Settled depth) (arms : List (List Instr)) :
    (pending.withArms depth arms).Settled (depth + 1) where
  block deeper below := settled.block deeper (by omega)
  arms deeper below := by
    rw [withArms_arms, Function.update_of_ne (by omega)]
    exact settled.arms deeper (by omega)

theorem Settled.front (settled : pending.Settled depth) (code : List Instr) :
    (pending.front depth code).Settled depth where
  block deeper below := by
    rw [front_block, Function.update_of_ne (by omega)]
    exact settled.block deeper below
  arms deeper below := settled.arms deeper below

section Block

variable {code : List Instr} (empty : pending.block depth = [])

include empty

theorem without_front : (pending.front depth code).without depth = pending := by
  rw [without, front_block, Function.update_idem, ← empty, Function.update_eq_self]
  rfl

theorem front_block_self : (pending.front depth code).block depth = code := by
  rw [front_block, empty, Function.update_self, List.append_nil]

end Block

theorem withArms_nil (settled : pending.Settled depth) : pending.withArms depth [] = pending := by
  rw [withArms, ← settled.arms depth (Nat.le_refl _), Function.update_eq_self]

theorem withArms_withArms (first second : List (List Instr)) :
    (pending.withArms depth first).withArms depth second = pending.withArms depth second := by
  simp [withArms]

theorem front_front (first second : List Instr) :
    (pending.front depth second).front depth first = pending.front depth (first ++ second) := by
  simp [front]

theorem take?_op (op : Op) :
    pending.take? depth (.heading op.opcode (Word.ofInts op.operands)) =
      some (pending.front depth [.op op]) := by
  have noTest : Test.ofWords? op.opcode (Word.ofInts op.operands) = none := by
    cases op with
    | push constant => cases constant <;> rfl
    | _ => rfl
  simp [take?, noTest, Word.toInts?_ofInts, Op.ofWords?_operands]

theorem take?_test (settled : pending.Settled depth) (test : Test) (arms : List (List Instr)) :
    (pending.withArms depth arms).take? depth (.heading test.opcode test.operands) =
      some (pending.front depth [.branch test (arms.getD 0 []) (arms.getD 1 [])]) := by
  simp only [take?, Test.ofWords?_operands, withArms_withArms, withArms_nil settled, withArms_arms,
    Function.update_self]

theorem take?_loop (settled : pending.Settled depth) (endless : Bool) (body : List Instr) :
    (pending.front (depth + 1) body).take? depth (.loop endless) =
      some (pending.front depth [.loop endless body]) := by
  have empty := settled.block (depth + 1) (by omega)
  simp only [take?, without_front empty, front_block_self empty]

/-- A mark above one of the blocks of a test. -/
theorem take?_mark {mark : Line} (isMark : mark = .yes ∨ mark = .no)
    (settled : pending.Settled depth) (arms : List (List Instr)) (code : List Instr) :
    ((pending.withArms depth arms).front (depth + 1) code).take? depth mark =
      some (pending.withArms depth (code :: arms)) := by
  have empty : (pending.withArms depth arms).block (depth + 1) = [] :=
    settled.block (depth + 1) (by omega)
  have waiting : ((pending.withArms depth arms).front (depth + 1) code).arms depth = arms :=
    Function.update_self ..
  rcases isMark with rfl | rfl <;>
    simp only [take?, without_front empty, front_block_self empty, waiting, withArms_withArms]

mutual

theorem gather?_outline (i : Instr) (pending : Pending) (depth : Nat)
    (settled : pending.Settled depth) :
    gather? (i.outline depth) pending = some (pending.front depth [i]) := by
  cases i with
  | op o => simp [Instr.outline, gather?, take?_op]
  | branch test yes no =>
    -- The second block is gathered first; if it is empty, there is no arm but the first.
    obtain ⟨arms, second, gathered⟩ : ∃ arms : List (List Instr), arms.getD 0 [] = no ∧
        gather? (if no.isEmpty then [] else (depth, .no) :: Instr.outlines (depth + 1) no) pending =
          some (pending.withArms depth arms) := by
      by_cases empty : no = []
      · subst empty
        exact ⟨[], rfl, by simp [gather?, withArms_nil settled]⟩
      · have inNo := gather?_outlines no (pending.withArms depth []) (depth + 1)
          (settled.withArms [])
        have mark := take?_mark (.inr rfl) settled [] no
        rw [withArms_nil settled] at inNo mark
        exact ⟨[no], rfl, by simp [empty, gather?, inNo, mark]⟩
    have inYes := gather?_outlines yes (pending.withArms depth arms) (depth + 1)
      (settled.withArms arms)
    have mark := take?_mark (.inl rfl) settled arms yes
    have heading := take?_test settled test (yes :: arms)
    simp only [Instr.outline, gather?, gather?_append, gathered, inYes, mark, heading,
      Option.bind_some, Option.bind_eq_bind]
    simp only [List.getD_cons_zero, List.getD_cons_succ, second]
  | loop endless body =>
    have inBody := gather?_outlines body pending (depth + 1) settled.inner
    simp [Instr.outline, gather?, take?_loop settled, inBody]

theorem gather?_outlines (code : List Instr) (pending : Pending) (depth : Nat)
    (settled : pending.Settled depth) :
    gather? (Instr.outlines depth code) pending = some (pending.front depth code) := by
  cases code with
  | nil => simp [Instr.outlines, gather?, front]
  | cons i rest =>
    rw [Instr.outlines, gather?_append, gather?_outlines rest pending depth settled,
      Option.bind_some, gather?_outline i _ depth (settled.front rest), front_front]
    rfl

end

end Pending

/-- The lines of a listing; one without lines is empty. -/
def linesOf (listing : Text) : List Text :=
  if listing.isEmpty then [] else Text.splitAt Text.newline listing

/-- The numbers of which this is the listing. -/
def rebuild? (listing : Text) : Option (List Int) := do
  let pending ← Pending.gather? (← (linesOf listing).mapM Line.readIndented?) {}
  Word.toInts? (Instr.encode (pending.block 0))

variable {outline : Outline}

theorem mapM_readIndented?_shown (numeric : ∀ entry ∈ outline, entry.2.IsNumeric) :
    (Instr.shown outline).mapM Line.readIndented? = some outline := by
  induction outline with
  | nil => rfl
  | cons entry rest ih =>
    obtain ⟨first, others⟩ := List.forall_mem_cons.mp numeric
    have ih := ih others
    simp only [Instr.shown] at ih
    simp [Instr.shown, readIndented?_indent _ first, ih]

theorem linesOf_unlines (numeric : ∀ entry ∈ outline, entry.2.IsNumeric) :
    linesOf (Text.unlines (Instr.shown outline)) = Instr.shown outline := by
  cases outline with
  | nil => rfl
  | cons entry rest =>
    have some : Instr.shown (entry :: rest) ≠ [] := List.cons_ne_nil _ _
    have split : Text.splitAt Text.newline (Text.unlines (Instr.shown (entry :: rest))) =
        Instr.shown (entry :: rest) := by
      refine Text.splitAt_join (fun line member => ?_) some
      obtain ⟨shown, inOutline, rfl⟩ := List.mem_map.mp member
      exact newline_free _ (numeric shown inOutline)
    have nonempty : Text.unlines (Instr.shown (entry :: rest)) ≠ [] := by
      intro empty
      obtain ⟨c, text, begins, -⟩ := text_begins entry.2
      rw [empty] at split
      simp [Text.splitAt, Instr.shown, indent, begins] at split
    rw [linesOf, List.isEmpty_eq_false_iff.mpr nonempty, split]
    rfl

end Listing

namespace Instr

open Listing

mutual

theorem numeric_outline (i : Instr) (depth : Nat)
    (numbers : ∀ word ∈ words i, ∃ n : Int, word = .number n) :
    ∀ entry ∈ outline depth i, entry.2.IsNumeric := by
  cases i with
  | op o =>
    have notLoop : o.opcode ≠ .loop := by
      cases o with
      | push constant => cases constant <;> exact Opcode.noConfusion
      | _ => exact Opcode.noConfusion
    refine List.forall_mem_singleton.mpr ⟨notLoop, fun word member => ?_⟩
    exact numbers word (List.mem_cons_of_mem _ member)
  | branch test yes no =>
    have notLoop : test.opcode ≠ .loop := by cases test <;> exact Opcode.noConfusion
    simp only [words, List.forall_mem_append] at numbers
    obtain ⟨⟨⟨inTest, -⟩, inYes⟩, inNo⟩ := numbers
    have heading : (Line.heading test.opcode test.operands).IsNumeric :=
      ⟨notLoop, fun word member => inTest word (List.mem_cons_of_mem _ member)⟩
    have yesLines := numeric_outlines yes (depth + 1) inYes
    have noLines := numeric_outlines no (depth + 1) inNo
    simp only [outline, List.forall_mem_cons, List.forall_mem_append]
    refine ⟨heading, trivial, yesLines, ?_⟩
    split
    · exact fun _ member => nomatch member
    · exact List.forall_mem_cons.mpr ⟨trivial, noLines⟩
  | loop endless body =>
    simp only [words, List.forall_mem_append] at numbers
    exact List.forall_mem_cons.mpr ⟨trivial, numeric_outlines body (depth + 1) numbers.2⟩

theorem numeric_outlines (code : List Instr) (depth : Nat)
    (numbers : ∀ word ∈ encode code, ∃ n : Int, word = .number n) :
    ∀ entry ∈ outlines depth code, entry.2.IsNumeric := by
  cases code with
  | nil => exact fun _ member => nomatch member
  | cons i rest =>
    obtain ⟨first, others⟩ := List.forall_mem_append.mp numbers
    exact List.forall_mem_append.mpr
      ⟨numeric_outline i depth first, numeric_outlines rest depth others⟩

end

end Instr

/-- Well-nested numbers have a listing, and they are rebuilt from it. -/
theorem WellNested.rebuilt {ns : List Int} (nested : WellNested ns) :
    ∃ lines, Listing.ofWords (Word.ofInts ns) = .ok lines ∧
      Listing.rebuild? (Text.unlines lines) = some ns := by
  obtain ⟨code, words⟩ := nested.exists_encode
  have numeric : ∀ entry ∈ Instr.outlines 0 code, entry.2.IsNumeric := by
    refine Instr.numeric_outlines code 0 fun word member => ?_
    rw [words] at member
    obtain ⟨n, -, rfl⟩ := List.mem_map.mp member
    exact ⟨n, rfl⟩
  refine ⟨_, words ▸ Instr.ofWords_encode_shown code, ?_⟩
  have gathered := Listing.Pending.gather?_outlines code {} 0 ⟨fun _ _ => rfl, fun _ _ => rfl⟩
  have front : (Listing.Pending.front {} 0 code).block 0 = code :=
    Listing.Pending.front_block_self rfl
  rw [Listing.rebuild?, Listing.linesOf_unlines numeric, Listing.mapM_readIndented?_shown numeric]
  simp only [Option.bind_eq_bind, Option.bind_some, gathered, front, words, Word.toInts?_ofInts]

/-- Listings of well-nested numbers tell them apart. -/
theorem WellNested.listings_tell {ms ns : List Int} (first : WellNested ms)
    (second : WellNested ns) :
    ∃ firstLines secondLines, Listing.ofWords (Word.ofInts ms) = .ok firstLines ∧
      Listing.ofWords (Word.ofInts ns) = .ok secondLines ∧
      Listing.rebuild? (Text.unlines firstLines) = some ms ∧
      Listing.rebuild? (Text.unlines secondLines) = some ns ∧
      (Text.unlines firstLines = Text.unlines secondLines → ms = ns) := by
  obtain ⟨firstLines, firstListed, firstRebuilt⟩ := first.rebuilt
  obtain ⟨secondLines, secondListed, secondRebuilt⟩ := second.rebuilt
  refine ⟨firstLines, secondLines, firstListed, secondListed, firstRebuilt, secondRebuilt,
    fun same => ?_⟩
  rw [same, secondRebuilt] at firstRebuilt
  exact (Option.some.inj firstRebuilt).symm

/-- The same instructions in a loop, the last of them in the first block of a test or in the
second one. -/
theorem arms_tell :
    let inYes : List Int := [41, 0, 9, 37, 1, 2, 1, 0, 14, 1, 0, 6]
    let inNo : List Int := [41, 0, 9, 37, 1, 2, 1, 0, 14, 0, 1, 6]
    WellNested inYes ∧ WellNested inNo ∧ ∃ yesLines noLines,
      Listing.ofWords (Word.ofInts inYes) = .ok yesLines ∧
      Listing.ofWords (Word.ofInts inNo) = .ok noLines ∧
      Listing.rebuild? (Text.unlines yesLines) = some inYes ∧
      Listing.rebuild? (Text.unlines noLines) = some inNo ∧
      (Text.unlines yesLines = Text.unlines noLines → inYes = inNo) := by
  have pop : WellNested [6] := @WellNested.plain .pop [] [] rfl .nil
  have yesTest : WellNested [14, 1, 0, 6] :=
    @WellNested.test .ifFailed [] [6] [] [] rfl pop .nil .nil
  have noTest : WellNested [14, 0, 1, 6] :=
    @WellNested.test .ifFailed [] [] [6] [] rfl .nil pop .nil
  have inLoop {test : List Int} (nested : WellNested test) (size : test.length = 4) :
      WellNested ([41, 0, 9, 37, 1, 2, 1, 0] ++ test) := by
    have body : WellNested ([37, 1, 2, 1, 0] ++ test) :=
      @WellNested.counted .wrapSome [1] [1, 0] test rfl nested
    have looped := @WellNested.loop 0 ([37, 1, 2, 1, 0] ++ test) [] (.inl rfl) body .nil
    simpa [size, Opcode.number] using looped
  have yesNested := inLoop yesTest rfl
  have noNested := inLoop noTest rfl
  exact ⟨yesNested, noNested, yesNested.listings_tell noNested⟩

end PegCompiler
