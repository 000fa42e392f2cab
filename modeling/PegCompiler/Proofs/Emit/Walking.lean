import PegCompiler.Proofs.Code.Landmarks

/-!
Emission while walking over words, with the lengths of the instructions written into its branches
(`Emit.step`) and no tree of what has been read. For words without negative numbers it is emission
from the tree, by the same steps and with the same errors (`Emit.agrees`). A listing does not look at
stacks and fails only where the tree stops, so that what is emitted can also be listed
(`Emit.body_listed`). Emission and listing then go the same way through the words, well nested or not
(`Emit.walks_agree`).
-/

namespace PegCompiler

namespace Words

variable {ws : List Word} {place : Int}

/-- There is nothing behind the end. -/
theorem following_getElem? (natural : 0 ≤ place) {count i : Nat} (bound : i < count) :
    (following ws place count)[i]? = Index.at? ws (place + i) := by
  induction count generalizing place i with
  | zero => omega
  | succ count ih =>
    unfold following
    split
    · cases i with
      | zero => simpa using Eq.symm ‹_›
      | succ i =>
        rw [List.getElem?_cons_succ, ih (by omega) (by omega)]
        congr 1
        omega
    · rename_i missing
      have beyond (n : Int) (later : place ≤ n) : Index.at? ws n = none := by
        cases found : Index.at? ws n with
        | none => rfl
        | some word =>
          have inside := Index.lt_of_at? found
          simp [Index.at?, Index.place?] at missing
          omega
      rw [beyond _ (by omega)]
      rfl

end Words

namespace Emit

/-- The number at a place. -/
def numberAt (ws : List Word) (place : Int) : Emit Int := number (Index.at? ws place)

/-- The statements of an instruction without blocks, and the place behind it. -/
def step (context : EmitContext) (ws : List Word) (place : Int) (opcode : Opcode) :
    Emit (List Statement × Int) :=
  let onward (further : List Word) (next : Int) : Emit (List Statement × Int) :=
    (·, next) <$> simple context place opcode (Words.following ws (place + 1) 3) further
  match opcode with
  | .pushEmptyText | .pushUndefined | .pushNull | .pushFailed | .pushEmptyList | .pop | .append | .text
  | .pushPosition | .loadPosition | .popPosition | .matchAny | .markTop | .markHere | .silence
  | .unsilence | .openRecord => onward [] (place + 1)
  | .leave | .wrap | .matchLiteral | .matchLowercase | .matchClass | .acceptCount | .acceptLiteral
  | .expect | .rule | .closeRecord => onward [] (place + 2)
  | .get => onward [] (place + 3)
  | .wrapSome => do
    let count ← numberAt ws (place + 2)
    onward (Index.slice ws (place + 3) (place + 3 + count)) (place + 3 + count)
  | .call => do
    let count ← numberAt ws (place + 3)
    onward (Index.slice ws (place + 4) (place + 4 + count)) (place + 4 + count)
  | .ifTrue | .ifFailed | .ifMatched | .ifFewer | .ifReached | .ifFewerThan | .ifReachedBy
  | .loop => missing

/-- The statements of the block from `place` up to `stop`, what the walk meets there, and whether the
block ends in a jump; `jumps` says it of the instruction in front. A walk that needs more fuel than
there is fails. -/
def compile (context : EmitContext) (ws : List Word) : (fuel : Nat) → (place stop : Int) →
    (jumps : Bool) → Emit ((List Statement × List Landmark) × Bool)
  | 0, _, _, _ => missing
  | fuel + 1, place, stop, jumps =>
    if stop ≤ place then return (([], []), jumps)
    else do
      let word ← present (Index.at? ws place)
      match word.number?.bind Opcode.ofNumber? with
      | none => throw (.invalidOpcode (← get).rule place word)
      | some opcode =>
        match opcode.test? with
        | some count => do
          let condition ← condition opcode (Words.following ws (place + 1) count)
          let yesStart := place + count + 3
          let noStart := yesStart + (← numberAt ws (place + count + 1))
          let noStop := noStart + (← numberAt ws (place + count + 2))
          let otherwise :=
            if noStart < noStop then some (compile context ws fuel noStart noStop false) else none
          let (yes, no, jumps) ←
            checkedIf place (compile context ws fuel yesStart noStart false) otherwise
          let no := no.getD ([], [])
          let ((others, landmarks), jumps) ← compile context ws fuel noStop stop jumps
          return ((.choose condition yes.1 no.1 :: others, .test place yes.2 no.2 :: landmarks), jumps)
        | none =>
          if opcode = .loop then do
            let flag ← numberAt ws (place + 1)
            let length ← numberAt ws (place + 2)
            let (inner, leaves) ← checkedLoop place (if flag = 0 then [.positions] else bothStacks)
              (compile context ws fuel (place + 3) (place + 3 + length) false)
            let ending := if flag = 0 && !leaves then [.leave] else []
            let ((others, landmarks), jumps) ←
              compile context ws fuel (place + 3 + length) stop false
            return ((.forever (inner.1 ++ ending) :: others, .loop place inner.2 :: landmarks), jumps)
          else do
            let (first, next) ← step context ws place opcode
            let ((others, landmarks), jumps) ← compile context ws fuel next stop (opcode == .leave)
            return ((first ++ others, .plain place :: landmarks), jumps)

@[simp] theorem missing_bind {α β : Type} (next : α → Emit β) : (missing >>= next) = missing := rfl

@[simp] theorem map_missing {α β : Type} (f : α → β) : (f <$> (missing : Emit α)) = missing := rfl

theorem discard_bind {α β : Type} (emit : Emit α) (next : PUnit → Emit β) :
    (discard emit >>= next) = emit >>= fun _ => next ⟨⟩ := by
  change (Function.const α PUnit.unit <$> emit) >>= next = _
  simp

theorem numberAt_eq (ws : List Word) (place : Int) :
    numberAt ws place = present (Words.number? ws place) := rfl

section Actions

variable {α β : Type} {context : EmitContext} {ws : List Word} {place : Int} {opcode : Opcode}

/-- An instruction looks at no more words than its operands. -/
theorem simple_window {count : Nat} (natural : 0 ≤ place)
    (layout : opcode.layout = .operands count ∨ opcode.layout = .counted count) (further : List Word) :
    simple context place opcode (Words.following ws (place + 1) 3) further =
      simple context place opcode (Words.following ws (place + 1) count) further := by
  have at? (size i : Nat) (bound : i < size) :
      (Words.following ws (place + 1) size)[i]? = Index.at? ws (place + 1 + i) :=
    Words.following_getElem? (by omega) bound
  have ones := at? 1 0 (by omega)
  have twos := And.intro (at? 2 0 (by omega)) (at? 2 1 (by omega))
  have threes := And.intro (at? 3 0 (by omega)) (at? 3 1 (by omega))
  cases opcode <;> simp [Opcode.layout] at layout <;> subst layout <;>
    simp only [simple, ones, twos, threes]

theorem step_of_operands {count : Nat} (natural : 0 ≤ place) (layout : opcode.layout = .operands count) :
    step context ws place opcode = (·, place + 1 + (count : Int)) <$>
      simple context place opcode (Words.following ws (place + 1) count) [] := by
  rw [← simple_window natural (.inl layout)]
  cases opcode <;> cases layout <;> simp [step, Int.add_assoc]

theorem step_of_counted {known : Nat} (natural : 0 ≤ place) (layout : opcode.layout = .counted known) :
    step context ws place opcode = (do
      let count ← numberAt ws (place + known)
      (·, place + 1 + known + count) <$> simple context place opcode
        (Words.following ws (place + 1) known)
        (Index.slice ws (place + 1 + known) (place + 1 + known + count))) := by
  simp only [← simple_window natural (.inr layout)]
  cases opcode <;> cases layout <;> simp [step, Int.add_assoc]

theorem body_cons (reading : Reading) (rest : List Reading) : body context (reading :: rest) = (do
    let (first, jump) ← one context reading
    let (others, jumps) ← body context rest
    return (first ++ others, if rest.isEmpty then jump else jumps)) := by
  rw [body]
  cases rest with
  | nil => simp [body]
  | cons => simp

/-- What is done with the code of arms can be done when both are there. -/
theorem checkedIf_both (place : Int) (f g : α → β) (code : α) (yes no : Emit (α × Bool)) :
    checkedIf place (Prod.map f id <$> yes) (some (Prod.map g id <$> no)) =
      (fun (whenYes, whenNo, jumps) => (f whenYes, some (g (whenNo.getD code)), jumps)) <$>
        checkedIf place yes (some no) := by
  simp [checkedIf, apply_ite (Functor.map _)]

theorem checkedIf_only (place : Int) (f g : α → β) (yes : Emit (α × Bool)) :
    checkedIf place (Prod.map f id <$> yes) none =
      (fun (whenYes, whenNo, jumps) => (f whenYes, whenNo.map g, jumps)) <$>
        checkedIf place yes none := by
  simp [checkedIf, apply_ite (Functor.map _)]

theorem checkedLoop_map (place : Int) (balanced : List StackName) (f : α → β)
    (inside : Emit (α × Bool)) :
    checkedLoop place balanced (Prod.map f id <$> inside) =
      Prod.map f id <$> checkedLoop place balanced inside := by
  simp [checkedLoop, apply_ite (Functor.map _)]

end Actions

/-- The walk emits what is emitted from the tree that was read. -/
def Agrees (context : EmitContext) (ws : List Word) (fuel : Nat) (place stop : Int) (jumps : Bool) :
    Prop :=
  let block := Reading.block ws fuel place stop
  compile context ws fuel place stop jumps =
    (fun (code, jump) => ((code, Reading.landmarks block), if block.isEmpty then jumps else jump)) <$>
      body context block

/-- A block has nothing in front of it. -/
theorem Agrees.inner {context : EmitContext} {ws : List Word} {fuel : Nat} {place stop : Int}
    (agrees : Agrees context ws fuel place stop false) :
    compile context ws fuel place stop false =
      Prod.map (·, Reading.landmarks (Reading.block ws fuel place stop)) id <$>
        body context (Reading.block ws fuel place stop) := by
  rw [agrees]
  cases Reading.block ws fuel place stop with
  | nil => simp [body]
  | cons => rfl

section Steps

variable {context : EmitContext} {ws : List Word} {fuel : Nat} {place stop : Int} {jumps : Bool}
  {word : Word} {opcode : Opcode}
  (natural : ∀ word ∈ ws, word.IsNatural) (before : ¬stop ≤ place)
  (found : Index.at? ws place = some word)
  (decoded : word.number?.bind Opcode.ofNumber? = some opcode)
  (later : ∀ next stop jumps, place < next → Agrees context ws fuel next stop jumps)

include before found decoded later

theorem agrees_operands {count : Nat} (start : 0 ≤ place) (layout : opcode.layout = .operands count) :
    Agrees context ws (fuel + 1) place stop jumps := by
  have notTest : opcode.test? = none := Opcode.test?_of_ne_test (by simp [layout])
  have notLoop : opcode ≠ .loop := by rintro rfl; cases layout
  have rest : compile context ws fuel (place + 1 + count) stop (opcode == .leave) = _ :=
    later _ _ _ (by omega)
  rw [Agrees, compile, Reading.block, if_neg before, if_neg before]
  simp only [found, present, pure_bind, decoded, notTest, if_neg notLoop, layout,
    step_of_operands start layout, body_cons, one]
  simp [rest, Reading.landmarks, Reading.landmark]

include natural

theorem agrees_counted {known : Nat} (start : 0 ≤ place) (layout : opcode.layout = .counted known) :
    Agrees context ws (fuel + 1) place stop jumps := by
  have notTest : opcode.test? = none := Opcode.test?_of_ne_test (by simp [layout])
  have notLoop : opcode ≠ .loop := by rintro rfl; cases layout
  rw [Agrees, compile, Reading.block, if_neg before, if_neg before]
  simp only [found, present, pure_bind, decoded, notTest, if_neg notLoop, layout,
    step_of_counted start layout, numberAt_eq]
  cases counted : Words.number? ws (place + known) with
  | none => rfl
  | some count =>
    have := Words.natural_of_number? natural counted
    have rest : compile context ws fuel (place + 1 + known + count) stop (opcode == .leave) = _ :=
      later _ _ _ (by omega)
    simp only [pure_bind, body_cons, one]
    simp [rest, Reading.landmarks, Reading.landmark]

theorem agrees_loop (layout : opcode.layout = .loop) :
    Agrees context ws (fuel + 1) place stop jumps := by
  obtain rfl := Opcode.eq_loop_of_layout layout
  have notTest : Opcode.loop.test? = none := rfl
  rw [Agrees, compile, Reading.block, if_neg before, if_neg before]
  simp only [found, present, pure_bind, decoded, notTest, if_true, layout, numberAt_eq]
  cases flagged : Words.number? ws (place + 1) with
  | none => rfl
  | some flag =>
    cases counted : Words.number? ws (place + 2) with
    | none => rfl
    | some length =>
      have := Words.natural_of_number? natural counted
      have inside := (later (place + 3) (place + 3 + length) false (by omega)).inner
      have rest : compile context ws fuel (place + 3 + length) stop false = _ :=
        later _ _ _ (by omega)
      simp only [pure_bind, body_cons, one, inside, checkedLoop_map]
      simp [rest, Reading.landmarks, Reading.landmark]

theorem agrees_test {count : Nat} (layout : opcode.layout = .test count) :
    Agrees context ws (fuel + 1) place stop jumps := by
  have yesPlace : place + 3 + (count : Int) - 2 = place + count + 1 := by omega
  have noPlace : place + 3 + (count : Int) - 1 = place + count + 2 := by omega
  rw [Agrees, compile, Reading.block, if_neg before, if_neg before]
  simp only [found, present, pure_bind, decoded, Opcode.test?_of_test layout, layout, numberAt_eq,
    yesPlace, noPlace]
  cases yes : Words.number? ws (place + count + 1) with
  | none => simp [Reading.landmarks, Reading.landmark, body_cons, one, discard_bind]
  | some yesLength =>
    cases no : Words.number? ws (place + count + 2) with
    | none => simp [Reading.landmarks, Reading.landmark, body_cons, one, discard_bind]
    | some noLength =>
      have := Words.natural_of_number? natural yes
      have := Words.natural_of_number? natural no
      obtain ⟨yesStart, start⟩ : ∃ yesStart, yesStart = place + 3 + (count : Int) := ⟨_, rfl⟩
      have start' : place + count + 3 = yesStart := by omega
      have inYes := (later yesStart (yesStart + yesLength) false (by omega)).inner
      have inNo := (later (yesStart + yesLength) (yesStart + yesLength + noLength) false (by omega)).inner
      have rest (jumps : Bool) :
          compile context ws fuel (yesStart + yesLength + noLength) stop jumps = _ :=
        later _ _ _ (by omega)
      have there : yesStart + yesLength < yesStart + yesLength + noLength ↔ 0 < noLength := by omega
      simp only [pure_bind, start', ← start, body_cons, one, there, inYes, inNo]
      by_cases positive : 0 < noLength
      · simp only [if_pos positive]
        rw [checkedIf_both _ _ _ []]
        simp [rest, Reading.landmarks, Reading.landmark]
      · have empty : Reading.block ws fuel (yesStart + yesLength) (yesStart + yesLength + noLength) = [] :=
          Reading.block_of_le (by omega)
        simp only [if_neg positive, empty]
        rw [checkedIf_only _ _ (·, Reading.landmarks [])]
        simp [rest, Reading.landmarks, Reading.landmark]

end Steps

/-- A walk through words without negative numbers. -/
theorem agrees {context : EmitContext} {ws : List Word} (natural : ∀ word ∈ ws, word.IsNatural)
    {fuel : Nat} {place stop : Int} {jumps : Bool} (enough : EnoughFuel ws fuel place) :
    Agrees context ws fuel place stop jumps := by
  induction fuel generalizing place stop jumps with
  | zero => exact absurd enough.left (Nat.lt_irrefl 0)
  | succ fuel ih =>
    by_cases before : stop ≤ place
    · rw [Agrees, compile, Reading.block, if_pos before, if_pos before]
      simp [body, Reading.landmarks]
    cases found : Index.at? ws place with
    | none =>
      rw [Agrees, compile, Reading.block, if_neg before, if_neg before]
      simp only [found]
      rfl
    | some word =>
      cases decoded : word.number?.bind Opcode.ofNumber? with
      | none =>
        rw [Agrees, compile, Reading.block, if_neg before, if_neg before]
        simp only [found, present, pure_bind, decoded]
        rfl
      | some opcode =>
        have later (next stop : Int) (jumps : Bool) (forward : place < next) :
            Agrees context ws fuel next stop jumps :=
          ih (enough.later (Index.lt_of_at? found) forward)
        cases layout : opcode.layout with
        | operands => exact agrees_operands before found decoded later enough.natural layout
        | counted => exact agrees_counted natural before found decoded later enough.natural layout
        | test => exact agrees_test natural before found decoded later layout
        | loop => exact agrees_loop natural before found decoded later layout

mutual

/-- What can be emitted can be listed. -/
theorem one_listed (context : EmitContext) (reading : Reading) (natural : reading.IsNatural)
    {before after : Emission} {statements : List Statement} {jumps : Bool}
    (does : Does (one context reading) before (statements, jumps) after) (ws : List Word)
    (depth : Nat) : ∃ lines, Listing.one ws depth reading = .ok lines := by
  match reading, natural with
  | .plain place opcode operands further, _ => exact ⟨_, rfl⟩
  | .test place opcode operands length yes no, ⟨present, natural, natural'⟩ =>
    obtain ⟨_, _, -, whenYes, yesJumps, afterYes, whenNo, noJumps, afterNo, first, second, -⟩ :=
      (does_test present).mp does
    obtain ⟨yesLines, inYes⟩ := body_listed context yes natural first ws (depth + 1)
    obtain ⟨noLines, inNo⟩ := body_listed context no natural' second ws (depth + 1)
    simp only [Listing.one, inYes, inNo]
    change ∃ lines, (if length = 0 then _ else _) = Except.ok lines
    split <;> exact ⟨_, rfl⟩
  | .loop place flag block, natural =>
    obtain ⟨_, _, _, _, inside, -⟩ := does_loop.mp does
    obtain ⟨lines, inBody⟩ := body_listed context block natural inside ws (depth + 1)
    simp only [Listing.one, inBody]
    exact ⟨_, rfl⟩
  | .cutTest .., _ => simp [one, missing] at does
  | .invalid .., _ => simp [one] at does
  | .missing, _ => simp [one, missing] at does

theorem body_listed (context : EmitContext) (block : List Reading)
    (natural : Reading.AllNatural block) {before after : Emission} {statements : List Statement}
    {jumps : Bool} (does : Does (body context block) before (statements, jumps) after) (ws : List Word)
    (depth : Nat) : ∃ lines, Listing.lines ws depth block = .ok lines := by
  match block, natural with
  | [], _ => exact ⟨[], rfl⟩
  | reading :: rest, ⟨natural, natural'⟩ =>
    obtain ⟨first, jump, between, here, others⟩ := does_body_cons.mp does
    obtain ⟨lines, listed⟩ := one_listed context reading natural here ws depth
    have remaining : ∃ lines, Listing.lines ws depth rest = .ok lines := by
      split at others
      · rename_i last
        exact last ▸ ⟨[], rfl⟩
      · obtain ⟨_, later, -⟩ := others
        exact body_listed context rest natural' later ws depth
    obtain ⟨more, listed'⟩ := remaining
    simp only [Listing.lines, listed, listed']
    exact ⟨_, rfl⟩

end

section Rules

variable {context : EmitContext} {name : Text} {ws : List Word} {statements : List Statement}
  {emission : Emission}

/-- Where a rule is emitted from words without negative numbers, they have a listing. Emission with
lengths of its own and the listing with a table of its own for operands, each walking over the words
anew, give the same statements and the same lines, and both meet the same instructions in the same
blocks. -/
theorem walks_agree (natural : ∀ word ∈ ws, word.IsNatural)
    (emitted : rule context name ws = (.ok statements, emission)) :
    ∃ landmarks jumps lines,
      go (compile context ws (ws.length + 1) 0 ws.length false) { rule := name } =
        (.ok ((statements, landmarks), jumps), emission) ∧
      Listing.walk ws (ws.length + 1) 0 ws.length 0 = .ok (lines, landmarks) ∧
      Listing.ofWords ws = .ok lines := by
  obtain ⟨jumps, does⟩ := does_of_rule emitted
  have allNatural : Reading.AllNatural (Reading.ofWords ws) := Reading.block_natural natural
  obtain ⟨lines, listed⟩ := body_listed context _ allNatural does ws 0
  have same : Reading.block ws (ws.length + 1) 0 ws.length = Reading.ofWords ws :=
    Reading.block_fuel natural (.all ws) (.ofWords ws)
  have emits : Agrees context ws (ws.length + 1) 0 ws.length false := agrees natural (.all ws)
  have walks : Listing.Agrees ws (ws.length + 1) 0 ws.length 0 := Listing.agrees natural (.all ws)
  rw [Agrees, same] at emits
  rw [Listing.Agrees, same, listed] at walks
  refine ⟨Reading.landmarks (Reading.ofWords ws), if (Reading.ofWords ws).isEmpty then false else jumps,
    lines, ?_, walks, listed⟩
  rw [emits]
  exact does_map.mpr ⟨_, does, rfl⟩

/-- A test in the middle. Its first arm ends before the operand of its only instruction, which is the
second arm. -/
def shared : List Word := Word.ofInts [2, 13, 1, 1, 23, 28, 29]

def sharedCode : List Statement := [
  .set ⟨.results, 0⟩ .nothing,
  .choose (.isTrue ⟨.results, 0⟩) [.expect 28] [.silence],
  .unsilence]

def sharedPlaces : List Landmark := [.plain 0, .test 1 [.plain 4] [.plain 5], .plain 6]

theorem shared_walks_agree :
    (∀ word ∈ shared, word.IsNatural) ∧
    rule ⟨[], []⟩ "any" shared = (.ok sharedCode, ⟨"any", ⟨0, 0⟩, {}, []⟩) ∧
    ∃ jumps lines,
      go (compile ⟨[], []⟩ shared 8 0 7 false) { rule := "any" } =
        (.ok ((sharedCode, sharedPlaces), jumps), ⟨"any", ⟨0, 0⟩, {}, []⟩) ∧
      Listing.walk shared 8 0 7 0 = .ok (lines, sharedPlaces) ∧ Listing.ofWords shared = .ok lines := by
  have natural : ∀ word ∈ shared, word.IsNatural := by simp [shared, Word.ofInts, Word.IsNatural]
  have emitted : rule ⟨[], []⟩ "any" shared = (.ok sharedCode, ⟨"any", ⟨0, 0⟩, {}, []⟩) := rfl
  obtain ⟨places, jumps, lines, compiled, walked, listed⟩ := walks_agree natural emitted
  have met : (Listing.walk shared 8 0 7 0).map Prod.snd = .ok sharedPlaces := rfl
  obtain rfl : places = sharedPlaces := by
    rw [show Listing.walk shared 8 0 7 0 = _ from walked] at met
    exact Except.ok.inj met
  exact ⟨natural, emitted, jumps, lines, compiled, walked, listed⟩

end Rules

end Emit

end PegCompiler
