import PegCompiler.Code.Reading
import PegCompiler.Proofs.Code.Encoding

/-!
Encoded instructions are read as what they are: walking over the words of nested instructions gives
the same tree again, with the place of every instruction (`Instr.ofWords_encode`).
-/

namespace PegCompiler

namespace Op

/-- The operands that are always there, and those of which there may be any number. -/
def split (op : Op) : List Int × List Int :=
  match op.opcode.layout with
  | .counted before => op.operands.splitAt before
  | _ => (op.operands, [])

def reading (place : Int) (op : Op) : Reading :=
  .plain place op.opcode (Word.ofInts op.split.1) (Word.ofInts op.split.2)

end Op

namespace Instr

mutual

/-- The reading of an instruction at a place. -/
def reading (place : Int) : Instr → Reading
  | op o => o.reading place
  | branch test yes no =>
    let behind := place + 3 + test.operands.length
    .test place test.opcode test.operands (encode no).length (readings behind yes)
      (readings (behind + (encode yes).length) no)
  | loop endless body => .loop place (flagWord endless) (readings (place + 3) body)

def readings (place : Int) : List Instr → List Reading
  | [] => []
  | i :: rest => reading place i :: readings (place + (words i).length) rest

end

section Walking

variable {ws : List Word} {place : Int}

theorem at?_append (before : List Word) (word : Word) (after : List Word)
    (whole : ws = before ++ word :: after) (here : place = before.length) :
    Index.at? ws place = some word := by
  subst whole here
  rw [Index.at?, Index.place?_natCast (by simp)]
  simp

theorem following_append (before mid after : List Word) (whole : ws = before ++ (mid ++ after))
    (here : place = before.length) :
    Words.following ws place mid.length = mid := by
  induction mid generalizing before place with
  | nil => rfl
  | cons word rest ih =>
    rw [List.length_cons, Words.following, at?_append _ _ _ whole here]
    simp only [List.cons.injEq, true_and]
    exact ih (before ++ [word]) (by simp [whole]) (by simp [here])

theorem slice_append (before mid after : List Word) (whole : ws = before ++ (mid ++ after))
    (here : place = before.length) :
    Index.slice ws place (place + mid.length) = mid := by
  subst whole here
  have upTo : (before ++ (mid ++ after)).take (before.length + mid.length) = before ++ mid := by
    rw [← List.append_assoc]
    exact List.take_left' (by simp)
  rw [Index.slice, Index.upTo, ← Int.natCast_add, Index.bound_natCast, Index.bound_natCast]
  simp [upTo]

end Walking

variable {ws before after : List Word} {place stop : Int} {fuel : Nat} {others : List Reading}

/-- Either an opcode says how many operands there are, or the last of the first ones does. -/
theorem operands_layout (op : Op) :
    (op.opcode.layout = .operands op.operands.length ∧ op.split = (op.operands, [])) ∨
    ∃ first further : List Int, op.opcode.layout = .counted (first.length + 1) ∧
      op.operands = (first ++ [(further.length : Int)]) ++ further ∧
      op.split = (first ++ [(further.length : Int)], further) := by
  cases op with
  | push constant => cases constant <;> exact .inl ⟨rfl, rfl⟩
  | wrapSome count indexes =>
    exact .inr ⟨[count], indexes, rfl, rfl, by simp [Op.split, Op.opcode, Opcode.layout, Op.operands]⟩
  | call function count arguments =>
    exact .inr ⟨[function, count], arguments, rfl, rfl,
      by simp [Op.split, Op.opcode, Opcode.layout, Op.operands]⟩
  | _ => exact .inl ⟨rfl, rfl⟩

theorem block_op (op : Op) (whole : ws = before ++ (op.words ++ after)) (here : place = before.length)
    (inside : place < stop)
    (later : Reading.block ws fuel (place + op.words.length) stop = others) :
    Reading.block ws (fuel + 1) place stop = op.reading place :: others := by
  have whole : ws = before ++ .number op.opcode.number :: (Word.ofInts op.operands ++ after) := whole
  have length : (op.words.length : Int) = 1 + op.operands.length := by
    simp [Op.words, Word.length_ofInts]
    omega
  rw [Reading.block, if_neg (by omega), at?_append _ _ _ whole here]
  simp only [Word.number?, Option.bind_some, Opcode.ofNumber?_number]
  rcases operands_layout op with ⟨layout, split⟩ | ⟨first, further, layout, operands, split⟩
  · have following : Words.following ws (place + 1) op.operands.length = Word.ofInts op.operands := by
      have whole : ws = (before ++ [Word.number op.opcode.number]) ++
          (Word.ofInts op.operands ++ after) := by
        simp [whole]
      have there : place + 1 = (before ++ [Word.number op.opcode.number]).length := by simp [here]
      simpa only [Word.length_ofInts] using following_append _ _ _ whole there
    simp only [layout, Op.reading, split, following]
    rw [show place + 1 + (op.operands.length : Int) = place + op.words.length by omega, later]
    rfl
  · have first' : ws = (before ++ [Word.number op.opcode.number]) ++
        (Word.ofInts (first ++ [(further.length : Int)]) ++ (Word.ofInts further ++ after)) := by
      simp [whole, operands, Word.ofInts]
    have count : Words.number? ws (place + (first.length + 1 : Nat)) = some (further.length : Int) := by
      rw [Words.number?, at?_append ((before ++ [Word.number op.opcode.number]) ++ Word.ofInts first)
        (.number further.length) (Word.ofInts further ++ after) (by simp [whole, operands, Word.ofInts])
        (by simp [here, Word.length_ofInts])]
      rfl
    have following : Words.following ws (place + 1) (first.length + 1) =
        Word.ofInts (first ++ [(further.length : Int)]) := by
      have there : place + 1 = (before ++ [Word.number op.opcode.number]).length := by simp [here]
      have := following_append _ _ _ first' there
      rwa [Word.length_ofInts, List.length_append] at this
    have slice : Index.slice ws (place + 1 + (first.length + 1 : Nat))
        (place + 1 + (first.length + 1 : Nat) + further.length) = Word.ofInts further := by
      let front := (before ++ [Word.number op.opcode.number]) ++
        Word.ofInts (first ++ [(further.length : Int)])
      have there : place + 1 + (first.length + 1 : Nat) = front.length := by
        simp [front, here, Word.length_ofInts]
        omega
      have whole' : ws = front ++ (Word.ofInts further ++ after) := by
        rw [first', List.append_assoc (before ++ _)]
      simpa only [Word.length_ofInts] using slice_append _ _ _ whole' there
    simp only [layout, Op.reading, split, count, following, slice]
    rw [show place + 1 + (first.length + 1 : Nat) + (further.length : Int) = place + op.words.length by
      simp [length, operands]; omega, later]

/-- Blocks of these instructions are read as what they are, wherever they stand. -/
def Reads (ws : List Word) (fuel : Nat) (code : List Instr) : Prop :=
  ∀ (before after : List Word) (place stop : Int), ws = before ++ (encode code ++ after) →
    place = before.length → stop = place + (encode code).length →
      Reading.block ws fuel place stop = readings place code

/-- The number at a place. -/
theorem number?_append (before : List Word) (n : Int) (after : List Word)
    (whole : ws = before ++ Word.number n :: after)
    (here : place = before.length) : Words.number? ws place = some n := by
  rw [Words.number?, at?_append _ _ _ whole here]
  rfl

theorem test_layout (test : Test) : test.opcode.layout = .test test.operands.length := by
  cases test <;> rfl

theorem block_branch (test : Test) {yes no : List Instr} (inYes : Reads ws fuel yes)
    (inNo : Reads ws fuel no) (whole : ws = before ++ (words (.branch test yes no) ++ after))
    (here : place = before.length) (inside : place < stop)
    (later : Reading.block ws fuel (place + (words (.branch test yes no)).length) stop = others) :
    Reading.block ws (fuel + 1) place stop = reading place (.branch test yes no) :: others := by
  let behind := place + 3 + test.operands.length
  let front := before ++ Word.number test.opcode.number :: test.operands
  have whole : ws = front ++ (Word.ofInts [(encode yes).length, (encode no).length] ++
      (encode yes ++ (encode no ++ after))) := by
    simp [whole, front, words, Test.words]
  have yesLength : Words.number? ws (behind - 2) = some ((encode yes).length : Int) :=
    number?_append _ _ _ whole (by simp [behind, front, here]; omega)
  have noLength : Words.number? ws (behind - 1) = some ((encode no).length : Int) :=
    number?_append (front ++ [Word.number (encode yes).length]) _ (encode yes ++ (encode no ++ after))
      (by simp [whole, Word.ofInts])
      (by simp [behind, front, here]; omega)
  have operands : Words.following ws (place + 1) test.operands.length = test.operands :=
    following_append (before ++ [Word.number test.opcode.number]) _
      (Word.ofInts [(encode yes).length, (encode no).length] ++ (encode yes ++ (encode no ++ after)))
      (by simp [whole, front]) (by simp [here])
  have yesRead : Reading.block ws fuel behind (behind + (encode yes).length) = readings behind yes :=
    inYes (front ++ Word.ofInts [(encode yes).length, (encode no).length]) (encode no ++ after) _ _
      (by simp [whole]) (by simp [behind, front, here, Word.length_ofInts]; omega) rfl
  have noRead : Reading.block ws fuel (behind + (encode yes).length)
      (behind + (encode yes).length + (encode no).length) =
        readings (behind + (encode yes).length) no :=
    inNo (front ++ (Word.ofInts [(encode yes).length, (encode no).length] ++ encode yes)) after _ _
      (by simp [whole]) (by simp [behind, front, here, Word.length_ofInts]; omega) rfl
  have first : Index.at? ws place = some (.number test.opcode.number) :=
    at?_append _ _ (test.operands ++ (Word.ofInts [(encode yes).length, (encode no).length] ++
      (encode yes ++ (encode no ++ after)))) (by simp [whole, front]) here
  have there : behind + (encode yes).length + (encode no).length =
      place + (words (.branch test yes no)).length := by
    simp [behind, words, Test.words, Word.length_ofInts]
    omega
  rw [Reading.block, if_neg (by omega), first]
  simp only [Word.number?, Option.bind_some, Opcode.ofNumber?_number, test_layout, operands]
  rw [yesLength, noLength]
  simp only [reading]
  rw [yesRead, noRead, there, later]

theorem block_loop (endless : Bool) {body : List Instr} (inBody : Reads ws fuel body)
    (whole : ws = before ++ (words (.loop endless body) ++ after))
    (here : place = before.length) (inside : place < stop)
    (later : Reading.block ws fuel (place + (words (.loop endless body)).length) stop = others) :
    Reading.block ws (fuel + 1) place stop = reading place (.loop endless body) :: others := by
  have first : Index.at? ws place = some (.number Opcode.loop.number) :=
    at?_append _ _ _ (by simpa [words, Word.ofInts] using whole) here
  have flag : Words.number? ws (place + 1) = some (flagWord endless) :=
    number?_append (before ++ [Word.number Opcode.loop.number]) _
      (Word.number (encode body).length :: (encode body ++ after)) (by simp [whole, words, Word.ofInts])
      (by simp [here])
  have length : Words.number? ws (place + 2) = some ((encode body).length : Int) :=
    number?_append (before ++ [Word.number Opcode.loop.number, Word.number (flagWord endless)]) _
      (encode body ++ after) (by simp [whole, words, Word.ofInts]) (by simp [here])
  have bodyRead : Reading.block ws fuel (place + 3) (place + 3 + (encode body).length) =
      readings (place + 3) body :=
    inBody (before ++ Word.ofInts [Opcode.loop.number, flagWord endless, (encode body).length]) after
      _ _ (by simp [whole, words]) (by simp [here, Word.length_ofInts]) rfl
  have there : place + 3 + (encode body).length = place + (words (.loop endless body)).length := by
    simp [words, Word.length_ofInts]
    omega
  rw [Reading.block, if_neg (by omega), first]
  simp only [Word.number?, Option.bind_some, Opcode.ofNumber?_number, Opcode.layout, flag, length,
    reading]
  rw [bodyRead, there, later]

theorem reads (fuel : Nat) (code : List Instr) (enough : (encode code).length < fuel) :
    Reads ws fuel code := by
  induction fuel generalizing code with
  | zero => omega
  | succ fuel ih =>
    intro before after place stop whole here there
    cases code with
    | nil =>
      simp only [encode, List.length_nil] at there
      rw [Reading.block, if_pos (by omega)]
      rfl
    | cons i rest =>
      have positive := length_words_pos i
      simp only [encode, List.length_append, List.append_assoc] at whole there enough
      have later : Reading.block ws fuel (place + (words i).length) stop =
          readings (place + (words i).length) rest :=
        ih rest (by omega) (before ++ words i) after _ _ (by simp [whole]) (by simp [here])
          (by simp [there]; omega)
      cases i with
      | op op => exact block_op op whole here (by omega) later
      | branch test yes no =>
        simp only [words, List.length_append, Test.words, List.length_cons] at enough
        exact block_branch test (ih yes (by omega)) (ih no (by omega)) whole here (by omega) later
      | loop endless body =>
        simp only [words, List.length_append, Word.length_ofInts, List.length_cons] at enough
        exact block_loop endless (ih body (by omega)) whole here (by omega) later

/-- The words of instructions are read as these instructions. -/
theorem ofWords_encode (code : List Instr) : Reading.ofWords (encode code) = readings 0 code := by
  refine reads _ code ?_ [] [] 0 _ (by simp) rfl (by simp)
  have : (encode code).length + 2 ≤ ((encode code).length + 2) * ((encode code).length + 2) :=
    Nat.le_mul_of_pos_left _ (by omega)
  unfold Reading.fuel
  omega

end Instr

end PegCompiler
