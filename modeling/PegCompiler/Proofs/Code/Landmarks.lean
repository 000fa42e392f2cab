import PegCompiler.Code.Listing
import PegCompiler.Proofs.Emit.Balance

/-!
Walks over words, and where they meet instructions. A listing can be made while walking, with a table
of its own for the operands that follow an opcode (`Listing.operandCount`) and without a tree of what
has been read. For words without negative numbers that gives the listing, and the walk meets the
instructions of the tree, in the same blocks (`Listing.agrees`).
-/

namespace PegCompiler

/-- Where a walk meets an instruction, and what it meets in the blocks of it. -/
inductive Landmark
  | plain (place : Int)
  | test (place : Int) (yes no : List Landmark)
  | loop (place : Int) (body : List Landmark)
  deriving Repr

namespace Reading

mutual

/-- Where an instruction was read. -/
def landmark : Reading → List Landmark
  | .plain place .. => [.plain place]
  | .test place _ _ _ yes no => [.test place (landmarks yes) (landmarks no)]
  | .loop place _ body => [.loop place (landmarks body)]
  | .cutTest .. | .invalid .. | .missing => []

def landmarks : List Reading → List Landmark
  | [] => []
  | reading :: rest => reading.landmark ++ landmarks rest

end

end Reading

namespace Opcode

/-- How many operands a test has, if it is one. -/
def test? : Opcode → Option Nat
  | .ifTrue | .ifFailed | .ifMatched => some 0
  | .ifFewer | .ifReached | .ifFewerThan | .ifReachedBy => some 1
  | _ => none

variable {opcode : Opcode}

theorem test?_of_test {count : Nat} (layout : opcode.layout = .test count) :
    opcode.test? = some count := by
  cases opcode <;> cases layout <;> rfl

theorem test?_of_ne_test (layout : ∀ count, opcode.layout ≠ .test count) : opcode.test? = none := by
  cases opcode <;> first | rfl | exact absurd rfl (layout _)

theorem eq_loop_of_layout (layout : opcode.layout = .loop) : opcode = .loop := by
  cases opcode <;> first | rfl | cases layout

end Opcode

namespace Listing

/-- The word at a place, which has to be there. -/
def wordAt (ws : List Word) (place : Int) : Except ListingError Word :=
  match Index.at? ws place with
  | some word => return word
  | none => throw .missingWord

/-- The number at a place. -/
def numberAt (ws : List Word) (place : Int) : Except ListingError Int :=
  match Words.number? ws place with
  | some n => return n
  | none => throw .missingWord

/-- How many operands follow the opcode at `place`, if it has no blocks. -/
def operandCount (ws : List Word) (place : Int) : Opcode → Except ListingError Int
  | .leave | .wrap | .matchLiteral | .matchLowercase | .matchClass | .acceptCount | .acceptLiteral
  | .expect | .rule | .closeRecord => return 1
  | .get => return 2
  | .wrapSome => return 2 + (← numberAt ws (place + 2))
  | .call => return 3 + (← numberAt ws (place + 3))
  | _ => return 0

/-- The lines of the block from `place` up to `stop`, and what the walk meets there. A walk that needs
more fuel than there is fails. -/
def walk (ws : List Word) : (fuel : Nat) → (place stop : Int) → (depth : Nat) →
    Except ListingError (List Text × List Landmark)
  | 0, _, _, _ => throw .missingWord
  | fuel + 1, place, stop, depth =>
    if stop ≤ place then return ([], [])
    else do
      let word ← wordAt ws place
      match word.number?.bind Opcode.ofNumber? with
      | none => throw (.invalidOpcode word)
      | some opcode =>
        match opcode.test? with
        | some count => do
          let head := heading opcode (Index.slice ws (place + 1) (place + 1 + count))
          let yesLength ← numberAt ws (place + 1 + count)
          let noLength ← numberAt ws (place + 2 + count)
          let yesStart := place + count + 3
          let noStart := yesStart + yesLength
          let (yes, inYes) ← walk ws fuel yesStart noStart (depth + 1)
          let (no, inNo) ← if noLength = 0 then pure ([], []) else do
            let (lines, inNo) ← walk ws fuel noStart (noStart + noLength) (depth + 1)
            pure (indent depth "else:" :: lines, inNo)
          let (rest, others) ← walk ws fuel (noStart + noLength) stop depth
          return (indent depth head :: indent depth "then:" :: (yes ++ no ++ rest),
            .test place inYes inNo :: others)
        | none =>
          if opcode = .loop then do
            let flag ← numberAt ws (place + 1)
            let length ← numberAt ws (place + 2)
            let shown : Text := if flag = 0 then "LOOP false" else "LOOP true"
            let (body, inBody) ← walk ws fuel (place + 3) (place + 3 + length) (depth + 1)
            let (rest, others) ← walk ws fuel (place + 3 + length) stop depth
            return (indent depth shown :: (body ++ rest), .loop place inBody :: others)
          else do
            let count ← operandCount ws place opcode
            let head := heading opcode (Index.slice ws (place + 1) (place + 1 + count))
            let (rest, others) ← walk ws fuel (place + 1 + count) stop depth
            return (indent depth head :: rest, .plain place :: others)

end Listing

section Places

variable {ws : List Word} {place : Int}

theorem Index.lt_of_at? {word : Word} (found : Index.at? ws place = some word) : place < ws.length := by
  obtain ⟨n, inside, -⟩ := Option.bind_eq_some_iff.mp found
  simp only [Index.place?, Option.ite_none_right_eq_some] at inside
  omega

theorem Words.natural_of_number? (natural : ∀ word ∈ ws, word.IsNatural) {n : Int}
    (found : Words.number? ws place = some n) : 0 ≤ n := by
  obtain ⟨word, at?, number⟩ := Option.bind_eq_some_iff.mp found
  obtain rfl := Word.eq_of_number? number
  exact natural _ (Reading.mem_of_at? at?)

/-- Fuel for a walk from `place` on that leads forward. -/
structure EnoughFuel (ws : List Word) (fuel : Nat) (place : Int) : Prop where
  natural : 0 ≤ place
  left : 0 < fuel
  whole : ws.length < place + fuel

theorem EnoughFuel.later {fuel : Nat} {next : Int} (enough : EnoughFuel ws (fuel + 1) place)
    (inside : place < ws.length) (forward : place < next) : EnoughFuel ws fuel next := by
  have := enough.natural
  have := enough.whole
  constructor <;> omega

theorem EnoughFuel.all (ws : List Word) : EnoughFuel ws (ws.length + 1) 0 :=
  ⟨Int.le_refl 0, by omega, by omega⟩

theorem EnoughFuel.ofWords (ws : List Word) : EnoughFuel ws (Reading.fuel ws) 0 := by
  have : ws.length + 2 ≤ Reading.fuel ws := Nat.le_mul_of_pos_left _ (by omega)
  constructor <;> omega

/-- More fuel than enough does not change what is read. -/
theorem Reading.block_fuel (natural : ∀ word ∈ ws, word.IsNatural) {fuel fuel' : Nat} {stop : Int}
    (enough : EnoughFuel ws fuel place) (enough' : EnoughFuel ws fuel' place) :
    block ws fuel place stop = block ws fuel' place stop := by
  induction fuel generalizing fuel' place stop with
  | zero => exact absurd enough.left (Nat.lt_irrefl 0)
  | succ fuel ih =>
    obtain ⟨fuel', rfl⟩ := Nat.exists_eq_succ_of_ne_zero (Nat.ne_of_gt enough'.left)
    by_cases before : stop ≤ place
    · rw [block, block, if_pos before, if_pos before]
    rw [block, block, if_neg before, if_neg before]
    cases found : Index.at? ws place with
    | none => rfl
    | some word =>
      have inside := Index.lt_of_at? found
      have later (next stop : Int) (forward : place < next) :
          block ws fuel next stop = block ws fuel' next stop :=
        ih (enough.later inside forward) (enough'.later inside forward)
      cases decoded : word.number?.bind Opcode.ofNumber? with
      | none => simp only [decoded]
      | some opcode =>
        cases layout : opcode.layout with
        | operands count =>
          simp only [decoded, layout, later (place + 1 + count) stop (by omega)]
        | counted known =>
          cases counted : Words.number? ws (place + known) with
          | none => simp only [decoded, layout, counted]
          | some count =>
            have := Words.natural_of_number? natural counted
            simp only [decoded, layout, counted, later (place + 1 + known + count) stop (by omega)]
        | test count =>
          cases yes : Words.number? ws (place + 3 + count - 2) with
          | none => simp only [decoded, layout, yes]
          | some yesLength =>
            cases no : Words.number? ws (place + 3 + count - 1) with
            | none => simp only [decoded, layout, yes, no]
            | some noLength =>
              have := Words.natural_of_number? natural yes
              have := Words.natural_of_number? natural no
              simp only [decoded, layout, yes, no, later (place + 3 + count) _ (by omega),
                later (place + 3 + count + yesLength) _ (by omega),
                later (place + 3 + count + yesLength + noLength) _ (by omega)]
        | loop =>
          cases Words.number? ws (place + 1) with
          | none => simp only [decoded, layout]
          | some flag =>
            cases counted : Words.number? ws (place + 2) with
            | none => simp only [decoded, layout]
            | some length =>
              have := Words.natural_of_number? natural counted
              simp only [decoded, layout, later (place + 3) _ (by omega),
                later (place + 3 + length) _ (by omega)]

end Places

namespace Listing

variable {ws : List Word} {opcode : Opcode}

theorem operandCount_of_operands {count : Nat} (place : Int) (layout : opcode.layout = .operands count) :
    operandCount ws place opcode = pure (count : Int) := by
  cases opcode <;> cases layout <;> rfl

theorem operandCount_of_counted {before : Nat} (place : Int) (layout : opcode.layout = .counted before) :
    operandCount ws place opcode = ((before : Int) + ·) <$> numberAt ws (place + before) := by
  cases opcode <;> cases layout <;> rfl

/-- The walk gives what the tree that was read gives. -/
def Agrees (ws : List Word) (fuel : Nat) (place stop : Int) (depth : Nat) : Prop :=
  walk ws fuel place stop depth =
    (fun ls => (ls, Reading.landmarks (Reading.block ws fuel place stop))) <$>
      lines ws depth (Reading.block ws fuel place stop)

section Steps

variable {fuel : Nat} {place stop : Int} {depth : Nat} {word : Word}
  (natural : ∀ word ∈ ws, word.IsNatural) (before : ¬stop ≤ place)
  (found : Index.at? ws place = some word)
  (decoded : word.number?.bind Opcode.ofNumber? = some opcode)
  (later : ∀ next stop depth, place < next → Agrees ws fuel next stop depth)

include before found decoded later

theorem agrees_operands {count : Nat} (layout : opcode.layout = .operands count) :
    Agrees ws (fuel + 1) place stop depth := by
  have notTest : opcode.test? = none := Opcode.test?_of_ne_test (by simp [layout])
  have notLoop : opcode ≠ .loop := by rintro rfl; cases layout
  have rest : walk ws fuel (place + 1 + count) stop depth = _ := later _ _ _ (by omega)
  rw [Agrees, walk, Reading.block, if_neg before, if_neg before]
  simp only [wordAt, found, pure_bind, decoded, notTest, if_neg notLoop, layout,
    operandCount_of_operands place layout, lines, one, Listing.operands, Reading.landmarks,
    Reading.landmark, rest]
  cases lines ws depth (Reading.block ws fuel (place + 1 + count) stop) <;> rfl

include natural

theorem agrees_counted {known : Nat} (layout : opcode.layout = .counted known) :
    Agrees ws (fuel + 1) place stop depth := by
  have notTest : opcode.test? = none := Opcode.test?_of_ne_test (by simp [layout])
  have notLoop : opcode ≠ .loop := by rintro rfl; cases layout
  rw [Agrees, walk, Reading.block, if_neg before, if_neg before]
  simp only [wordAt, found, pure_bind, decoded, notTest, if_neg notLoop, layout,
    operandCount_of_counted place layout, numberAt]
  cases counted : Words.number? ws (place + known) with
  | none => rfl
  | some count =>
    have := Words.natural_of_number? natural counted
    have rest : walk ws fuel (place + 1 + known + count) stop depth = _ := later _ _ _ (by omega)
    have next : place + 1 + (known + count) = place + 1 + known + count := by omega
    simp only [map_pure, pure_bind, lines, one, Listing.operands, layout, counted, Option.getD_some,
      Reading.landmarks, Reading.landmark, next, rest]
    cases lines ws depth (Reading.block ws fuel (place + 1 + known + count) stop) <;> rfl

theorem agrees_loop (layout : opcode.layout = .loop) : Agrees ws (fuel + 1) place stop depth := by
  obtain rfl := Opcode.eq_loop_of_layout layout
  have notTest : Opcode.loop.test? = none := rfl
  rw [Agrees, walk, Reading.block, if_neg before, if_neg before]
  simp only [wordAt, found, pure_bind, decoded, notTest, if_true, layout, numberAt]
  cases flagged : Words.number? ws (place + 1) with
  | none => rfl
  | some flag =>
    cases counted : Words.number? ws (place + 2) with
    | none => rfl
    | some length =>
      have := Words.natural_of_number? natural counted
      have inside : walk ws fuel (place + 3) (place + 3 + length) (depth + 1) = _ :=
        later _ _ _ (by omega)
      have rest : walk ws fuel (place + 3 + length) stop depth = _ := later _ _ _ (by omega)
      simp only [pure_bind, inside, rest, lines, one, Reading.landmarks, Reading.landmark]
      cases lines ws (depth + 1) (Reading.block ws fuel (place + 3) (place + 3 + length)) with
      | error => rfl
      | ok body => cases lines ws depth (Reading.block ws fuel (place + 3 + length) stop) <;> rfl

theorem agrees_test {count : Nat} (layout : opcode.layout = .test count) :
    Agrees ws (fuel + 1) place stop depth := by
  have yesPlace : place + 3 + (count : Int) - 2 = place + 1 + count := by omega
  have noPlace : place + 3 + (count : Int) - 1 = place + 2 + count := by omega
  rw [Agrees, walk, Reading.block, if_neg before, if_neg before]
  simp only [wordAt, found, pure_bind, decoded, Opcode.test?_of_test layout, layout, numberAt, yesPlace,
    noPlace]
  cases yes : Words.number? ws (place + 1 + count) with
  | none => rfl
  | some yesLength =>
    cases no : Words.number? ws (place + 2 + count) with
    | none => rfl
    | some noLength =>
      have := Words.natural_of_number? natural yes
      have := Words.natural_of_number? natural no
      obtain ⟨yesStart, start⟩ : ∃ yesStart, yesStart = place + 3 + (count : Int) := ⟨_, rfl⟩
      have start' : place + count + 3 = yesStart := by omega
      have inYes : walk ws fuel yesStart (yesStart + yesLength) (depth + 1) = _ :=
        later _ _ _ (by omega)
      have inNo : walk ws fuel (yesStart + yesLength) (yesStart + yesLength + noLength) (depth + 1) = _ :=
        later _ _ _ (by omega)
      have rest : walk ws fuel (yesStart + yesLength + noLength) stop depth = _ :=
        later _ _ _ (by omega)
      simp only [pure_bind, start', ← start, inYes, inNo, rest, lines, one, Listing.operands, layout,
        Reading.landmarks, Reading.landmark]
      cases lines ws (depth + 1) (Reading.block ws fuel yesStart (yesStart + yesLength)) with
      | error => rfl
      | ok yesLines =>
        by_cases empty : noLength = 0
        · subst empty
          rw [Int.add_zero, Reading.block_of_le (Int.le_refl _), Reading.landmarks]
          cases lines ws depth (Reading.block ws fuel (yesStart + yesLength) stop) with
          | error => rfl
          | ok => simp [Functor.map, Except.map, bind, Except.bind, pure, Except.pure]
        · simp only [if_neg empty]
          cases lines ws (depth + 1)
              (Reading.block ws fuel (yesStart + yesLength) (yesStart + yesLength + noLength)) with
          | error => rfl
          | ok =>
            cases lines ws depth (Reading.block ws fuel (yesStart + yesLength + noLength) stop) with
            | error => rfl
            | ok => simp [Functor.map, Except.map, bind, Except.bind, pure, Except.pure]

end Steps

/-- A walk through words without negative numbers. -/
theorem agrees (natural : ∀ word ∈ ws, word.IsNatural) {fuel : Nat} {place stop : Int} {depth : Nat}
    (enough : EnoughFuel ws fuel place) : Agrees ws fuel place stop depth := by
  induction fuel generalizing place stop depth with
  | zero => exact absurd enough.left (Nat.lt_irrefl 0)
  | succ fuel ih =>
    by_cases before : stop ≤ place
    · rw [Agrees, walk, Reading.block, if_pos before, if_pos before]
      rfl
    cases found : Index.at? ws place with
    | none =>
      rw [Agrees, walk, Reading.block, if_neg before, if_neg before]
      simp only [wordAt, found]
      rfl
    | some word =>
      cases decoded : word.number?.bind Opcode.ofNumber? with
      | none =>
        rw [Agrees, walk, Reading.block, if_neg before, if_neg before]
        simp only [wordAt, found, pure_bind, decoded]
        rfl
      | some opcode =>
        have later (next stop : Int) (depth : Nat) (forward : place < next) :
            Agrees ws fuel next stop depth := ih (enough.later (Index.lt_of_at? found) forward)
        cases layout : opcode.layout with
        | operands => exact agrees_operands before found decoded later layout
        | counted => exact agrees_counted natural before found decoded later layout
        | test => exact agrees_test natural before found decoded later layout
        | loop => exact agrees_loop natural before found decoded later layout

end Listing

end PegCompiler
