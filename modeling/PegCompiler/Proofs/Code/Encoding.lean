import PegCompiler.Code.Instruction

/-!
Reading back encoded instructions. Every opcode says how many operands it has, and every block how
long it is, so that `Instr.decode?` finds exactly the instructions that were encoded
(`Instr.decode?_encode`).
-/

namespace PegCompiler

namespace Word

theorem length_ofInts (ns : List Int) : (ofInts ns).length = ns.length := List.length_map ..

end Word

namespace Op

theorem ofWords?_operands (op : Op) : ofWords? op.opcode op.operands = some op := by
  cases op with
  | push constant => cases constant <;> rfl
  | wrapSome | call => simp [opcode, operands, ofWords?]
  | _ => rfl

end Op

namespace Test

theorem ofWords?_operands (test : Test) : ofWords? test.opcode test.operands = some test := by
  cases test <;> rfl

end Test

theorem flag?_flagWord (flag : Bool) : flag? (flagWord flag) = some flag := by cases flag <;> rfl

namespace Instr

variable {ws rest : List Word}

variable (ws) in
/-- The words in front of the others. -/
theorem cut?_append {n : Int} (h : n = ws.length) : cut? n (ws ++ rest) = some (ws, rest) := by
  subst h
  simp only [cut?, List.length_append, List.splitAt_eq]
  rw [if_pos ⟨by omega, by omega⟩]
  simp

variable (rest) in
/-- The opcode of an instruction without blocks tells where its operands end. -/
theorem cutOperands?_op (op : Op) :
    (∃ n, op.opcode.layout = .operands n ∨ op.opcode.layout = .counted n) ∧
      cutOperands? op.opcode.layout (Word.ofInts op.operands ++ rest) =
        some (Word.ofInts op.operands, rest) := by
  cases op with
  | push constant => cases constant <;> exact ⟨⟨_, .inl rfl⟩, cut?_append [] rfl⟩
  | wrapSome count indexes =>
    refine ⟨⟨_, .inr rfl⟩, ?_⟩
    have length : (2 : Int) + indexes.length =
        (Word.ofInts (Op.wrapSome count indexes).operands).length := by
      simp [Word.length_ofInts, Op.operands]
      omega
    exact cut?_append _ length
  | call function count arguments =>
    refine ⟨⟨_, .inr rfl⟩, ?_⟩
    have length : (3 : Int) + arguments.length =
        (Word.ofInts (Op.call function count arguments).operands).length := by
      simp [Word.length_ofInts, Op.operands]
      omega
    exact cut?_append _ length
  | leave n | wrap n | matchLiteral n | matchLowercase n | matchClass n | acceptCount n
  | acceptLiteral n | expect n | rule n | closeRecord n =>
    exact ⟨⟨_, .inl rfl⟩, cut?_append [.number n] rfl⟩
  | get count index => exact ⟨⟨_, .inl rfl⟩, cut?_append [.number count, .number index] rfl⟩
  | _ => exact ⟨⟨_, .inl rfl⟩, cut?_append [] rfl⟩

variable (rest) in
theorem cutOperands?_test (test : Test) :
    (∃ n, test.opcode.layout = .test n) ∧
      cutOperands? test.opcode.layout (test.operands ++ rest) = some (test.operands, rest) := by
  cases test with
  | isTrue | isFailed | isMatched => exact ⟨⟨_, rfl⟩, cut?_append [] rfl⟩
  | fewer n | fewerThan n | reachedBy n => exact ⟨⟨_, rfl⟩, cut?_append [.number n] rfl⟩
  | reached bound => exact ⟨⟨_, rfl⟩, cut?_append [bound] rfl⟩

variable {fuel : Nat} {others : List Instr}

theorem decodeFrom?_op (op : Op) (h : decodeFrom? fuel rest = some others) :
    decodeFrom? (fuel + 1) (op.words ++ rest) = some (.op op :: others) := by
  obtain ⟨⟨n, layout⟩, cut⟩ := cutOperands?_op rest op
  have words : op.words ++ rest =
      .number op.opcode.number :: (Word.ofInts op.operands ++ rest) := rfl
  rw [words, decodeFrom?]
  simp only [Word.number?, Option.bind_eq_bind, Option.bind_some, Opcode.ofNumber?_number, cut]
  rcases layout with layout | layout <;>
    simp only [layout, Word.toInts?_ofInts, Op.ofWords?_operands, h, Option.pure_def, Option.bind_some]

theorem decodeFrom?_branch (test : Test) {yes no : List Instr}
    (hyes : decodeFrom? fuel (encode yes) = some yes) (hno : decodeFrom? fuel (encode no) = some no)
    (h : decodeFrom? fuel rest = some others) :
    decodeFrom? (fuel + 1) (words (.branch test yes no) ++ rest) =
      some (.branch test yes no :: others) := by
  obtain ⟨⟨n, layout⟩, cut⟩ :=
    cutOperands?_test (Word.ofInts [(encode yes).length, (encode no).length] ++
      (encode yes ++ (encode no ++ rest))) test
  rw [layout] at cut
  have words : words (.branch test yes no) ++ rest = Word.number test.opcode.number :: (test.operands ++
      (Word.ofInts [(encode yes).length, (encode no).length] ++
        (encode yes ++ (encode no ++ rest)))) := by
    simp [words, Test.words]
  have lengths : cut? 2 (Word.ofInts [(encode yes).length, (encode no).length] ++
      (encode yes ++ (encode no ++ rest))) = some (_, _) := cut?_append _ rfl
  rw [words, decodeFrom?]
  simp only [Word.number?, Option.bind_eq_bind, Option.bind_some, Opcode.ofNumber?_number, cut,
    layout, lengths, Test.ofWords?_operands]
  simp only [Word.ofInts, List.map_cons, List.map_nil, List.length_cons, List.length_nil, Nat.zero_add,
    Nat.reduceAdd, Nat.zero_lt_succ, getElem?_pos, List.getElem_cons_zero, Nat.lt_add_one,
    List.getElem_cons_succ, Option.pure_def, Option.bind_some, cut?_append, hyes, hno, h]

theorem decodeFrom?_loop (endless : Bool) {body : List Instr}
    (hbody : decodeFrom? fuel (encode body) = some body) (h : decodeFrom? fuel rest = some others) :
    decodeFrom? (fuel + 1) (words (.loop endless body) ++ rest) =
      some (.loop endless body :: others) := by
  have words : words (.loop endless body) ++ rest = Word.number Opcode.loop.number ::
      ([Word.number (flagWord endless)] ++ ([Word.number (encode body).length] ++
        (encode body ++ rest))) := by
    simp [words, Word.ofInts]
  have flag : cut? 1 ([Word.number (flagWord endless)] ++ ([Word.number (encode body).length] ++
      (encode body ++ rest))) = some (_, _) := cut?_append _ rfl
  have length : cut? 1 ([Word.number (encode body).length] ++ (encode body ++ rest)) = some (_, _) :=
    cut?_append _ rfl
  rw [words, decodeFrom?]
  simp only [Word.number?, Option.bind_eq_bind, Option.bind_some, Opcode.ofNumber?_number,
    Opcode.layout, cutOperands?, flag, length]
  simp only [List.length_cons, List.length_nil, Nat.zero_add, Nat.lt_add_one, getElem?_pos,
    List.getElem_cons_zero, Option.pure_def, Option.bind_some, flag?_flagWord, cut?_append, hbody, h]

theorem length_words_pos (i : Instr) : 0 < (words i).length := by
  cases i with
  | op op => simp [words, Op.words, Word.length_ofInts]
  | branch test => simp [words, Test.words]
  | loop =>
    simp only [words, List.length_append, Word.length_ofInts, List.length_cons]
    omega

/-- Enough fuel for the words is enough for all blocks. -/
theorem decodeFrom?_encode (fuel : Nat) (code : List Instr) (enough : (encode code).length ≤ fuel) :
    decodeFrom? fuel (encode code) = some code := by
  induction fuel generalizing code with
  | zero =>
    cases code with
    | nil => rfl
    | cons i rest =>
      have := length_words_pos i
      simp only [encode, List.length_append] at enough
      omega
  | succ fuel ih =>
    cases code with
    | nil => rfl
    | cons i rest =>
      have positive := length_words_pos i
      rw [encode] at enough ⊢
      rw [List.length_append] at enough
      have others := ih rest (by omega)
      cases i with
      | op op => exact decodeFrom?_op op others
      | branch test yes no =>
        simp only [words, List.length_append, Test.words, List.length_cons] at enough
        exact decodeFrom?_branch test (ih yes (by omega)) (ih no (by omega)) others
      | loop endless body =>
        simp only [words, List.length_append, Word.length_ofInts, List.length_cons] at enough
        exact decodeFrom?_loop endless (ih body (by omega)) others

/-- Decoding undoes encoding. -/
theorem decode?_encode (code : List Instr) : decode? (encode code) = some code :=
  decodeFrom?_encode _ code (Nat.le_refl _)

end Instr

end PegCompiler
