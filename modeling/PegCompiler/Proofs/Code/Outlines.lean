import PegCompiler.Code.Listing
import PegCompiler.Proofs.Emit.Readings
import PegCompiler.Proofs.Text.Splitting

/-!
Listings of instructions, line by line. The listing of the words of instructions is an outline of
them, a line with its depth for each instruction and each block of a test
(`Instr.ofWords_encode_shown`). A line can be read back from its text, indentation included
(`Listing.readIndented?_indent`).
-/

namespace PegCompiler

theorem Word.ofInts_append (ms ns : List Int) : ofInts (ms ++ ns) = ofInts ms ++ ofInts ns :=
  List.map_append

theorem Word.ofInts_cons (n : Int) (ns : List Int) : ofInts (n :: ns) = .number n :: ofInts ns := rfl

namespace Listing

/-- A line of a listing without its indentation. -/
inductive Line
  | heading (opcode : Opcode) (operands : List Word)
  | loop (endless : Bool)
  | yes
  | no
  deriving DecidableEq, Repr

/-- Lines with the depth of their blocks. -/
abbrev Outline := List (Nat × Line)

def Line.text : Line → Text
  | heading opcode operands => Listing.heading opcode operands
  | loop false => "LOOP false"
  | loop true => "LOOP true"
  | yes => "then:"
  | no => "else:"

end Listing

namespace Instr

open Listing

mutual

/-- The lines of an instruction whose block is `depth` blocks deep. -/
def outline (depth : Nat) : Instr → Outline
  | op o => [(depth, .heading o.opcode (Word.ofInts o.operands))]
  | branch test yes no =>
    (depth, .heading test.opcode test.operands) :: (depth, .yes) :: (outlines (depth + 1) yes ++
      if no.isEmpty then [] else (depth, .no) :: outlines (depth + 1) no)
  | loop endless body => (depth, .loop endless) :: outlines (depth + 1) body

def outlines (depth : Nat) : List Instr → Outline
  | [] => []
  | i :: rest => outline depth i ++ outlines depth rest

end

theorem encode_eq_nil {code : List Instr} : encode code = [] ↔ code = [] := by
  cases code with
  | nil => exact iff_of_true rfl rfl
  | cons i rest =>
    have := length_words_pos i
    refine iff_of_false (fun empty => ?_) (by simp)
    have := congrArg List.length empty
    simp only [encode, List.length_append, List.length_nil] at this
    omega

section Lines

variable {ws before after : List Word} {place : Int}

/-- The operands of an instruction without blocks, as they are shown. -/
theorem operands_op (op : Op) (whole : ws = before ++ (op.words ++ after))
    (here : place = before.length) :
    Listing.operands ws place op.opcode = Word.ofInts op.operands := by
  have whole : ws = (before ++ [Word.number op.opcode.number]) ++
      (Word.ofInts op.operands ++ after) := by
    rw [whole, Op.words, Word.ofInts_cons]
    simp
  have there : place + 1 = (before ++ [Word.number op.opcode.number]).length := by simp [here]
  have slice := slice_append _ _ _ whole there
  rcases operands_layout op with ⟨layout, -⟩ | ⟨first, further, layout, operands, -⟩
  · simp only [Listing.operands, layout]
    rwa [Word.length_ofInts] at slice
  · have count : Words.number? ws (place + (first.length + 1 : Nat)) = some (further.length : Int) :=
      number?_append ((before ++ [Word.number op.opcode.number]) ++ Word.ofInts first) _
        (Word.ofInts further ++ after) (by simp [whole, operands, Word.ofInts])
        (by simp [here, Word.length_ofInts])
    have length : (((Word.ofInts op.operands).length : Nat) : Int) =
        (first.length + 1 : Nat) + further.length := by
      simp [Word.length_ofInts, operands]
      omega
    simp only [Listing.operands, layout, count, Option.getD_some]
    rwa [length] at slice

theorem operands_test (test : Test) (whole : ws = before ++ (test.words ++ after))
    (here : place = before.length) :
    Listing.operands ws place test.opcode = test.operands := by
  have whole : ws = (before ++ [Word.number test.opcode.number]) ++ (test.operands ++ after) := by
    rw [whole, Test.words]
    simp
  have there : place + 1 = (before ++ [Word.number test.opcode.number]).length := by simp [here]
  simp only [Listing.operands, test_layout]
  exact slice_append _ _ _ whole there

/-- The lines of an outline as they are shown. -/
def shown (outline : Outline) : List Text :=
  outline.map fun (depth, line) => indent depth line.text

mutual

theorem one_reading (i : Instr) (depth : Nat) (before after : List Word) (place : Int)
    (whole : ws = before ++ (words i ++ after)) (here : place = before.length) :
    Listing.one ws depth (reading place i) = .ok (shown (outline depth i)) := by
  cases i with
  | op o =>
    have operands := operands_op o whole here
    simp only [reading, Op.reading, Listing.one, operands]
    rfl
  | branch test yes no =>
    have whole' : ws = before ++ (test.words ++
        (Word.ofInts [(encode yes).length, (encode no).length] ++
          (encode yes ++ (encode no ++ after)))) := by
      simp [whole, words]
    have operands := operands_test test whole' here
    let front := before ++ (test.words ++ Word.ofInts [(encode yes).length, (encode no).length])
    have behind : place + 3 + test.operands.length = front.length := by
      simp [front, here, Test.words, Word.length_ofInts]
      omega
    have inYes := lines_readings yes (depth + 1) front (encode no ++ after) _
      (by simp [whole, front, words]) behind
    have inNo := lines_readings no (depth + 1) (front ++ encode yes) after
      (place + 3 + test.operands.length + (encode yes).length)
      (by simp [whole, front, words]) (by simp [behind])
    simp only [reading, Listing.one, operands, inYes, inNo]
    by_cases empty : no = []
    · subst empty
      simp [outline, shown, encode, Line.text, bind, Except.bind, pure, Except.pure]
    · have nonempty : encode no ≠ [] := mt encode_eq_nil.mp empty
      simp [outline, shown, empty, nonempty, Line.text, bind, Except.bind, pure, Except.pure]
  | loop endless body =>
    have inBody := lines_readings body (depth + 1)
      (before ++ Word.ofInts [Opcode.loop.number, flagWord endless, (encode body).length]) after
      (place + 3) (by simp [whole, words]) (by simp [here, Word.length_ofInts])
    simp only [reading, Listing.one, inBody]
    cases endless <;> rfl

theorem lines_readings (code : List Instr) (depth : Nat) (before after : List Word) (place : Int)
    (whole : ws = before ++ (encode code ++ after)) (here : place = before.length) :
    Listing.lines ws depth (readings place code) = .ok (shown (outlines depth code)) := by
  cases code with
  | nil => rfl
  | cons i rest =>
    have first := one_reading i depth before (encode rest ++ after) place
      (by simp [whole, encode]) here
    have others := lines_readings rest depth (before ++ words i) after
      (place + (words i).length) (by simp [whole, encode]) (by simp [here])
    simp only [readings, Listing.lines, first, others]
    simp [outlines, shown]
    rfl

end

theorem ofWords_encode_shown (code : List Instr) :
    Listing.ofWords (encode code) = .ok (shown (outlines 0 code)) := by
  rw [Listing.ofWords, ofWords_encode]
  exact lines_readings code 0 [] [] 0 (by simp) rfl

end Lines

end Instr

namespace Text

/-- The number that a text is the decimal form of. -/
def readInt : Text → Int
  | .scalar '-' :: digits => -(Nat.ofDigitChars 10 (digits.filterMap CodePoint.toChar?) 0 : Nat)
  | digits => (Nat.ofDigitChars 10 (digits.filterMap CodePoint.toChar?) 0 : Nat)

theorem filterMap_ofNat (n : Nat) : (ofNat n).filterMap CodePoint.toChar? = Nat.toDigits 10 n := by
  have inverse : CodePoint.toChar? ∘ CodePoint.scalar = some := rfl
  rw [ofNat, ofChars, List.filterMap_map, inverse, List.filterMap_some]

theorem isDigit_of_mem_ofNat {n : Nat} {c : CodePoint} (h : c ∈ ofNat n) :
    ∃ digit : Char, digit.isDigit ∧ c = .scalar digit := by
  obtain ⟨digit, member, rfl⟩ := List.mem_map.mp h
  exact ⟨digit, Nat.isDigit_of_mem_toDigits (by decide) (by decide) member, rfl⟩

theorem readInt_ofNat (n : Nat) : readInt (ofNat n) = n := by
  have digits := filterMap_ofNat n
  have number := Nat.ofDigitChars_ten_toDigits (n := n)
  -- No digit is a sign, so that the first case of `readInt` does not apply.
  have unsigned : ∀ rest, ofNat n ≠ .scalar '-' :: rest := by
    intro rest same
    have member : CodePoint.scalar '-' ∈ ofNat n := by simp [same]
    obtain ⟨digit, isDigit, sign⟩ := isDigit_of_mem_ofNat member
    cases sign
    simp at isDigit
  revert digits unsigned
  generalize ofNat n = t
  intro digits unsigned
  fun_cases readInt t with
  | case1 rest => exact absurd rfl (unsigned rest)
  | case2 => rw [digits, number]

theorem readInt_ofInt (n : Int) : readInt (ofInt n) = n := by
  match n with
  | .ofNat n => exact readInt_ofNat n
  | .negSucc n =>
    rw [ofInt, readInt, filterMap_ofNat, Nat.ofDigitChars_ten_toDigits]
    rfl

/-- A numeral consists of digits behind at most one sign. -/
theorem not_mem_ofInt {c : Char} (n : Int) (sign : c ≠ '-') (digit : c.isDigit = false) :
    CodePoint.scalar c ∉ ofInt n := by
  have free (n : Nat) : CodePoint.scalar c ∉ ofNat n := by
    intro member
    obtain ⟨d, isDigit, same⟩ := isDigit_of_mem_ofNat member
    cases same
    simp [digit] at isDigit
  cases n with
  | ofNat n => exact free n
  | negSucc n =>
    rw [ofInt, List.mem_cons, CodePoint.scalar.injEq, not_or]
    exact ⟨sign, free _⟩

end Text

namespace Opcode

def ofName? (name : Text) : Option Opcode := all.find? fun opcode => opcode.name = name

theorem ofName?_name (opcode : Opcode) : ofName? opcode.name = some opcode := by
  cases opcode <;> rfl

/-- Names are made of letters and low lines. -/
theorem plain_name (opcode : Opcode) :
    opcode.name ≠ [] ∧ CodePoint.scalar ' ' ∉ opcode.name ∧ CodePoint.scalar '\n' ∉ opcode.name ∧
      CodePoint.scalar ':' ∉ opcode.name := by
  cases opcode <;> decide

end Opcode

namespace Listing

/-- The line with this text. -/
def Line.read? (t : Text) : Option Line :=
  match Text.splitAt (CodePoint.scalar ' ') t with
  | [] => none
  | word :: operands =>
    if word = "then:" then some yes
    else if word = "else:" then some no
    else if word = Opcode.loop.name then some (loop (operands = [Text.ofString "true"]))
    else (Opcode.ofName? word).map fun opcode =>
      heading opcode (operands.map fun operand => .number operand.readInt)

/-- The line with this text behind its indentation, and the depth of its block. -/
def Line.readIndented? (t : Text) : Option (Nat × Line) :=
  (read? (t.dropWhile (· = CodePoint.scalar ' '))).map fun line =>
    ((t.takeWhile (· = CodePoint.scalar ' ')).length / 2, line)

/-- The lines of instructions whose words are numbers. -/
def Line.IsNumeric : Line → Prop
  | heading opcode operands => opcode ≠ .loop ∧ ∀ word ∈ operands, ∃ n : Int, word = .number n
  | _ => True

variable {opcode : Opcode} {operands : List Word}

theorem read?_heading (numeric : (Line.heading opcode operands).IsNumeric) :
    Line.read? (heading opcode operands) = some (.heading opcode operands) := by
  obtain ⟨notLoop, numbers⟩ := numeric
  obtain ⟨-, blank, -, colon⟩ := opcode.plain_name
  have shownFree : ∀ piece ∈ operands.map Word.shown, CodePoint.scalar ' ' ∉ piece := by
    intro piece member
    obtain ⟨word, inOperands, rfl⟩ := List.mem_map.mp member
    obtain ⟨n, rfl⟩ := numbers word inOperands
    exact Text.not_mem_ofInt n (by decide) (by decide)
  have split : Text.splitAt (CodePoint.scalar ' ') (heading opcode operands) =
      opcode.name :: operands.map Word.shown :=
    Text.splitAt_join (List.forall_mem_cons.mpr ⟨blank, shownFree⟩) (List.cons_ne_nil _ _)
  have numerals : operands.map ((fun operand => Word.number operand.readInt) ∘ Word.shown) =
      operands := by
    refine (List.map_congr_left fun word member => ?_).trans (List.map_id operands)
    obtain ⟨n, rfl⟩ := numbers word member
    exact congrArg Word.number (Text.readInt_ofInt n)
  have notYes : opcode.name ≠ "then:" := fun same => colon (by rw [same]; decide)
  have notNo : opcode.name ≠ "else:" := fun same => colon (by rw [same]; decide)
  have notLoopName : opcode.name ≠ Opcode.loop.name := by
    intro same
    have := congrArg Opcode.ofName? same
    simp only [Opcode.ofName?_name, Option.some.injEq] at this
    exact notLoop this
  simp only [Line.read?, split, notYes, notNo, notLoopName, if_false, Opcode.ofName?_name,
    Option.map_some, List.map_map, numerals]

theorem read?_text {line : Line} (numeric : line.IsNumeric) : Line.read? line.text = some line := by
  match line with
  | .heading .. => exact read?_heading numeric
  | .loop false | .loop true | .yes | .no => rfl

theorem heading_begins (opcode : Opcode) (operands : List Word) :
    ∃ more, heading opcode operands = opcode.name ++ more := by
  match operands with
  | [] => exact ⟨[], by simp [heading, Text.join]⟩
  | word :: rest =>
    exact ⟨_, by rw [heading, Text.join, List.map_cons, List.intercalate_cons_cons, List.append_assoc]⟩

/-- No line begins with a blank. -/
theorem text_begins (line : Line) :
    ∃ c rest, line.text = c :: rest ∧ c ≠ CodePoint.scalar ' ' := by
  match line with
  | .heading opcode operands =>
    obtain ⟨nonempty, free, -⟩ := opcode.plain_name
    obtain ⟨more, text⟩ := heading_begins opcode operands
    obtain ⟨c, rest, name⟩ := List.exists_cons_of_ne_nil nonempty
    rw [name] at free
    refine ⟨c, rest ++ more, by rw [Line.text, text, name, List.cons_append], ?_⟩
    rintro rfl
    exact free List.mem_cons_self
  | .loop false | .loop true | .yes | .no => exact ⟨_, _, rfl, by decide⟩

theorem blank_free (line : Line) (n : Nat) :
    (Text.blanks n ++ line.text).takeWhile (· = CodePoint.scalar ' ') = Text.blanks n ∧
      (Text.blanks n ++ line.text).dropWhile (· = CodePoint.scalar ' ') = line.text := by
  have blank : ∀ c ∈ Text.blanks n, decide (c = CodePoint.scalar ' ') = true := by
    intro c member
    simp [List.eq_of_mem_replicate member]
  obtain ⟨c, rest, text, other⟩ := text_begins line
  rw [List.takeWhile_append_of_pos blank, List.dropWhile_append_of_pos blank, text]
  simp [other]

theorem readIndented?_indent {line : Line} (depth : Nat) (numeric : line.IsNumeric) :
    Line.readIndented? (indent depth line.text) = some (depth, line) := by
  obtain ⟨blanks, rest⟩ := blank_free line (2 * depth)
  rw [Line.readIndented?, indent, rest, blanks, read?_text numeric]
  simp [Text.blanks]

theorem newline_free {line : Line} (depth : Nat) (numeric : line.IsNumeric) :
    Text.newline ∉ indent depth line.text := by
  have inText : CodePoint.scalar '\n' ∉ line.text := by
    match line with
    | .heading opcode operands =>
      obtain ⟨-, -, free, -⟩ := opcode.plain_name
      intro member
      rcases Text.mem_join member with blank | ⟨piece, inPieces, inPiece⟩
      · exact absurd blank (by decide)
      · rcases List.mem_cons.mp inPieces with rfl | inPieces
        · exact free inPiece
        · obtain ⟨word, inOperands, rfl⟩ := List.mem_map.mp inPieces
          obtain ⟨n, rfl⟩ := numeric.2 word inOperands
          exact Text.not_mem_ofInt n (by decide) (by decide) inPiece
    | .loop false | .loop true | .yes | .no => decide
  rw [indent, List.mem_append, not_or]
  exact ⟨fun blank => absurd (List.eq_of_mem_replicate blank) (by decide), inText⟩

end Listing

end PegCompiler
