import PegCompiler.Code.Opcode
import PegCompiler.Code.Word
import PegCompiler.Text.Index

/-!
Walking over words that need not be well nested. The walk goes from one instruction to the next and
into the blocks of tests and loops, wherever their lengths lead; words may be made by hand. A
negative place counts from the end of the words. What the walk meets is kept as a tree: an opcode
that does not exist and a word beyond the end become leaves of their own, so that whoever uses the
tree stumbles over them exactly when it gets there.
-/

namespace PegCompiler

inductive Reading
  /-- Fewer operands than the layout says are there if the words end. -/
  | plain (place : Int) (opcode : Opcode) (operands further : List Word)
  | test (place : Int) (opcode : Opcode) (operands : List Word) (elseLength : Int)
      (yes no : List Reading)
  /-- A test whose lengths are beyond the end. -/
  | cutTest (place : Int) (opcode : Opcode) (operands : List Word)
  | loop (place : Int) (flag : Int) (body : List Reading)
  | invalid (place : Int) (word : Word)
  | missing
  deriving Repr

namespace Words

/-- Up to `count` words from `index` on, as far as there are any. -/
def following (ws : List Word) (index : Int) : (count : Nat) → List Word
  | 0 => []
  | count + 1 =>
    match Index.at? ws index with
    | some word => word :: following ws (index + 1) count
    | none => []

/-- The number at an index. -/
def number? (ws : List Word) (index : Int) : Option Int := (Index.at? ws index).bind Word.number?

end Words

namespace Reading

/-- The instructions of the block from `place` up to `stop`. -/
def block (ws : List Word) : (fuel : Nat) → (place stop : Int) → List Reading
  | 0, _, _ => []
  | fuel + 1, place, stop =>
    if stop ≤ place then []
    else match Index.at? ws place with
      | none => [missing]
      | some word =>
        match word.number?.bind Opcode.ofNumber? with
        | none => [invalid place word]
        | some opcode =>
          match opcode.layout with
          | .operands count =>
            plain place opcode (Words.following ws (place + 1) count) [] ::
              block ws fuel (place + 1 + count) stop
          | .counted before =>
            match Words.number? ws (place + before) with
            | none => [missing]
            | some count =>
              let behind := place + 1 + before
              plain place opcode (Words.following ws (place + 1) before)
                  (Index.slice ws behind (behind + count)) ::
                block ws fuel (behind + count) stop
          | .test count =>
            let operands := Words.following ws (place + 1) count
            let behind := place + 3 + count
            match Words.number? ws (behind - 2), Words.number? ws (behind - 1) with
            | some yes, some no =>
              test place opcode operands no (block ws fuel behind (behind + yes))
                  (block ws fuel (behind + yes) (behind + yes + no)) ::
                block ws fuel (behind + yes + no) stop
            | _, _ => [cutTest place opcode operands]
          | .loop =>
            match Words.number? ws (place + 1), Words.number? ws (place + 2) with
            | some flag, some length =>
              loop place flag (block ws fuel (place + 3) (place + 3 + length)) ::
                block ws fuel (place + 3 + length) stop
            | _, _ => [missing]

/-- How many instructions a walk may meet on one path. Lengths that are not negative lead forward,
so that the number of words is enough; the square leaves room for walks that go back. -/
def fuel (ws : List Word) : Nat := (ws.length + 2) * (ws.length + 2)

/-- All instructions of a rule. -/
def ofWords (ws : List Word) : List Reading := block ws (fuel ws) 0 ws.length

end Reading

end PegCompiler
