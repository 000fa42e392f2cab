import PegCompiler.Run.State

/-!
What the records of a parse come to. A parse notes what it expects, is silent for a while, moves, and
looks ahead between the opening and the closing of a record. Whatever it does in which order, the
outermost record in the end has the greatest offset at which something was noted *or a record was
opened*, and the entries that were expected right there (`RecordStep.records_of_runAll`). So an inner
record in which nothing is noted does count: opened further on, it puts out what was noted before
(`RecordStep.bracket_puts_out`). Only where nothing is opened further on than anything is noted is the
outermost record about what was noted alone (`RecordStep.records_heard_iff`).
-/

namespace PegCompiler

/-- What reaches a record: an entry that is expected at an offset, or only an offset, where an inner
record was opened. -/
structure Mark where
  offset : Int
  entry : Option Entry := none

namespace Mark

def invert (mark : Mark) : Mark := { mark with entry := mark.entry.map Entry.invert }

/-- The greatest offset, `start` or more. -/
def furthest (start : Int) (marks : List Mark) : Int := (marks.map Mark.offset).foldl max start

/-- The entries that were expected at an offset, in their order. -/
def entriesAt (offset : Int) (marks : List Mark) : List Entry :=
  marks.filterMap fun mark => if mark.offset = offset then mark.entry else none

/-- The marks that have an entry. -/
def heard (marks : List Mark) : List Mark := marks.filter (·.entry.isSome)

variable {mark : Mark} {marks : List Mark} {start offset : Int}

@[simp] theorem furthest_nil : furthest start [] = start := rfl

@[simp] theorem furthest_cons :
    furthest start (mark :: marks) = furthest (max start mark.offset) marks := rfl

theorem le_furthest : start ≤ furthest start marks := by
  induction marks generalizing start with
  | nil => exact Int.le_refl _
  | cons mark marks ih => exact Int.le_trans (Int.le_max_left _ _) ih

theorem entriesAt_cons : entriesAt offset (mark :: marks) =
    (if mark.offset = offset then mark.entry.toList else []) ++ entriesAt offset marks := by
  by_cases here : mark.offset = offset <;> cases entry : mark.entry <;>
    simp [entriesAt, here, entry]

theorem furthest_le {limit : Int} :
    furthest start marks ≤ limit ↔ start ≤ limit ∧ ∀ mark ∈ marks, mark.offset ≤ limit := by
  induction marks generalizing start with
  | nil => simp
  | cons mark marks ih =>
    simp only [furthest_cons, ih, Int.max_le, List.mem_cons, forall_eq_or_imp, and_assoc]

theorem furthest_mem :
    furthest start marks = start ∨ ∃ mark ∈ marks, mark.offset = furthest start marks := by
  induction marks generalizing start with
  | nil => exact .inl rfl
  | cons mark marks ih =>
    rw [furthest_cons]
    rcases @ih (max start mark.offset) with same | ⟨other, member, same⟩
    · rw [same]
      rcases Int.le_total start mark.offset with less | more
      · exact .inr ⟨mark, by simp, (Int.max_eq_right less).symm⟩
      · exact .inl (Int.max_eq_left more)
    · exact .inr ⟨other, by simp [member], same⟩

theorem furthest_heard_le : furthest start (heard marks) ≤ furthest start marks := by
  obtain ⟨lower, all⟩ := furthest_le.mp (Int.le_refl (furthest start marks))
  exact furthest_le.mpr ⟨lower, fun mark member => all mark (List.mem_filter.mp member).1⟩

end Mark

namespace Furthest

variable (record inner : Furthest) (mark : Mark) (marks : List Mark) (inverted : Bool)

/-- What a mark makes of a record. -/
def meet : Furthest :=
  if mark.offset < record.offset then record
  else if record.offset < mark.offset then ⟨mark.offset, mark.entry.toList⟩
  else { record with entries := record.entries ++ mark.entry.toList }

/-- What marks in a row make of a record. -/
def through : Furthest := marks.foldl meet record

@[simp] theorem through_nil : record.through [] = record := rfl

@[simp] theorem through_cons :
    record.through (mark :: marks) = (record.meet mark).through marks := rfl

theorem through_append (later : List Mark) :
    record.through (marks ++ later) = (record.through marks).through later :=
  List.foldl_append

theorem note_eq_meet (offset : Int) (entry : Entry) :
    record.note offset entry = record.meet ⟨offset, some entry⟩ := rfl

/-- An empty record is taken over like the mark of its beginning. -/
theorem absorb_opened (offset : Int) :
    record.absorb ⟨offset, []⟩ inverted = record.meet ⟨offset, none⟩ := by
  unfold absorb meet
  cases inverted <;> simp only [List.map_nil, Option.toList, List.append_nil] <;> grind

/-- What an inner record has met, the outer one meets by taking it over. -/
theorem absorb_meet : record.absorb (inner.meet mark) inverted =
    (record.absorb inner inverted).meet (if inverted then mark.invert else mark) := by
  have turned : (mark.entry.map Entry.invert).toList = mark.entry.toList.map Entry.invert := by
    cases mark.entry <;> rfl
  unfold absorb meet
  cases inverted <;> simp only [Bool.false_eq_true, if_false, if_true, Mark.invert, turned] <;> grind

theorem absorb_through : record.absorb (inner.through marks) inverted =
    (record.absorb inner inverted).through (if inverted then marks.map Mark.invert else marks) := by
  induction marks generalizing inner with
  | nil => cases inverted <;> rfl
  | cons mark marks ih =>
    rw [through_cons, ih, absorb_meet]
    cases inverted <;> rfl

/-- The offset is the greatest, and the entries are those that were expected there. -/
theorem through_eq : record.through marks =
    ⟨Mark.furthest record.offset marks,
      (if Mark.furthest record.offset marks = record.offset then record.entries else []) ++
        Mark.entriesAt (Mark.furthest record.offset marks) marks⟩ := by
  induction marks generalizing record with
  | nil => simp [Mark.entriesAt]
  | cons mark marks ih =>
    rw [through_cons, ih, Mark.furthest_cons, Mark.entriesAt_cons]
    have further : max record.offset mark.offset ≤
        Mark.furthest (max record.offset mark.offset) marks := Mark.le_furthest
    unfold meet
    grind

end Furthest

/-- What a parse does that its records depend on. Looking ahead brackets what it does meanwhile. -/
inductive RecordStep
  | expect (entry : Entry)
  | silence (change : Int)
  | goTo (offset : Int)
  | bracket (inverted : Bool) (inner : List RecordStep)

/-- Where a parse is, and how silent. -/
structure Heading where
  offset : Int := 0
  silence : Int := 0

namespace ParserState

def heading (state : ParserState) : Heading := ⟨state.offset, state.silence⟩

/-- The state with another heading and other records. -/
def reach (state : ParserState) (heading : Heading) (records : List Furthest) : ParserState :=
  { state with offset := heading.offset, silence := heading.silence, records }

variable (state : ParserState) (heading other : Heading) (records others : List Furthest)

@[simp] theorem reach_heading : (state.reach heading records).heading = heading := rfl

@[simp] theorem reach_records : (state.reach heading records).records = records := rfl

@[simp] theorem reach_reach : (state.reach heading records).reach other others =
    state.reach other others := rfl

end ParserState

namespace RecordStep

mutual

/-- Takes a step. -/
def run : RecordStep → ParserState → Except Raise ParserState
  | expect entry, state => state.expect entry
  | silence change, state => .ok { state with silence := state.silence + change }
  | goTo offset, state => .ok { state with offset }
  | bracket inverted inner, state => do
    match (← runAll inner state.openRecord).closeRecord inverted with
    | (none, after) => return after
    | (some raised, _) => throw raised

def runAll : List RecordStep → ParserState → Except Raise ParserState
  | [], state => .ok state
  | step :: rest, state => do runAll rest (← run step state)

end

mutual

/-- Where a step leads. -/
def onward : RecordStep → Heading → Heading
  | expect _, heading => heading
  | silence change, heading => { heading with silence := heading.silence + change }
  | goTo offset, heading => { heading with offset }
  | bracket _ inner, heading => onwardAll inner heading

def onwardAll : List RecordStep → Heading → Heading
  | [], heading => heading
  | step :: rest, heading => onwardAll rest (onward step heading)

end

mutual

/-- The marks of a step. Within an odd number of inverted brackets, entries are for what must not be
there. -/
def marks (odd : Bool) : RecordStep → Heading → List Mark
  | expect entry, heading =>
    if 0 < heading.silence then [] else [⟨heading.offset, some (if odd then .not entry else entry)⟩]
  | silence _, _ | goTo _, _ => []
  | bracket inverted inner, heading =>
    ⟨heading.offset, none⟩ :: marksAll (odd != inverted) inner heading

def marksAll (odd : Bool) : List RecordStep → Heading → List Mark
  | [], _ => []
  | step :: rest, heading => marks odd step heading ++ marksAll odd rest (onward step heading)

end

mutual

/-- Nothing is expected that is itself for what must not be there. -/
def Plain : RecordStep → Prop
  | expect entry => ∀ other, entry ≠ .not other
  | silence _ | goTo _ => True
  | bracket _ inner => PlainAll inner

def PlainAll : List RecordStep → Prop
  | [] => True
  | step :: rest => Plain step ∧ PlainAll rest

end

mutual

theorem marks_invert (odd : Bool) : ∀ (step : RecordStep), step.Plain → ∀ heading,
    (marks odd step heading).map Mark.invert = marks (!odd) step heading
  | expect entry, plain, heading => by
    have turned : entry.invert = .not entry := by
      cases entry with
      | not other => exact absurd rfl (plain other)
      | _ => rfl
    unfold marks
    split
    · rfl
    · cases odd
      · simp [Mark.invert, turned]
      · simp [Mark.invert, Entry.invert]
  | silence _, _, _ | goTo _, _, _ => rfl
  | bracket inverted inner, plain, heading => by
    have inner := marksAll_invert (odd != inverted) inner plain heading
    simp only [marks, List.map_cons, inner]
    cases odd <;> cases inverted <;> rfl

theorem marksAll_invert (odd : Bool) : ∀ (steps : List RecordStep), PlainAll steps → ∀ heading,
    (marksAll odd steps heading).map Mark.invert = marksAll (!odd) steps heading
  | [], _, _ => rfl
  | step :: rest, plain, heading => by
    simp only [marksAll, List.map_append, marks_invert odd step plain.1,
      marksAll_invert odd rest plain.2]

end

mutual

/-- A step moves as it says, and the innermost record meets its marks. -/
theorem run_spec : ∀ (step : RecordStep), step.Plain → ∀ {state : ParserState} {record outer},
    state.records = record :: outer → run step state =
      .ok (state.reach (onward step state.heading)
        (record.through (marks false step state.heading) :: outer))
  | expect entry, _, state, record, outer, records => by
    simp only [run, ParserState.expect, marks, records]
    by_cases silent : 0 < state.silence
    · simp only [ParserState.heading, silent, if_true, Furthest.through_nil]
      rw [← records]
      rfl
    · simp only [ParserState.heading, silent, if_false]
      rfl
  | silence change, _, state, record, outer, records => by
    simp only [run, marks, Furthest.through_nil, ← records]
    rfl
  | goTo offset, _, state, record, outer, records => by
    simp only [run, marks, Furthest.through_nil, ← records]
    rfl
  | bracket inverted inner, plain, state, record, outer, records => by
    have opened : state.openRecord.records = ⟨state.offset, []⟩ :: record :: outer := by
      rw [ParserState.openRecord, records]
    have within := runAll_spec inner plain opened
    have turned : (if inverted then (marksAll false inner state.heading).map Mark.invert
        else marksAll false inner state.heading) = marksAll (false != inverted) inner state.heading := by
      cases inverted
      · rfl
      · exact marksAll_invert false inner plain _
    have absorbed : record.absorb ((⟨state.offset, []⟩ : Furthest).through
        (marksAll false inner state.heading)) inverted =
          record.through (marks false (.bracket inverted inner) state.heading) := by
      rw [Furthest.absorb_through, Furthest.absorb_opened, turned]
      rfl
    change (do
      match (← runAll inner state.openRecord).closeRecord inverted with
      | (none, after) => return after
      | (some raised, _) => throw raised) = _
    rw [within, ← absorbed]
    rfl

theorem runAll_spec : ∀ (steps : List RecordStep), PlainAll steps →
    ∀ {state : ParserState} {record outer}, state.records = record :: outer →
      runAll steps state = .ok (state.reach (onwardAll steps state.heading)
        (record.through (marksAll false steps state.heading) :: outer))
  | [], _, state, record, outer, records => by
    simp only [runAll, marksAll, Furthest.through_nil, ← records]
    rfl
  | step :: rest, plain, state, record, outer, records => by
    have first := run_spec step plain.1 records
    change (run step state >>= runAll rest) = _
    rw [first]
    change runAll rest _ = _
    rw [runAll_spec rest plain.2 (ParserState.reach_records ..)]
    simp only [ParserState.reach_heading, ParserState.reach_reach, ← Furthest.through_append]
    rfl

end

/-- Steps from a fresh state on. -/
theorem runAll_fresh {steps : List RecordStep} (plain : PlainAll steps) (input : Text)
    (source : Option Text) : ∃ after, runAll steps { input, source } = .ok after ∧
      after.records = [⟨Mark.furthest 0 (marksAll false steps {}),
        Mark.entriesAt (Mark.furthest 0 (marksAll false steps {})) (marksAll false steps {})⟩] := by
  refine ⟨_, runAll_spec steps plain rfl, ?_⟩
  simp only [ParserState.reach_records, Furthest.through_eq, ite_self, List.nil_append]
  rfl

/-- The only record of a fresh state ends up with the greatest offset at which an entry was noted or a
record was opened, and with the entries that were expected at this offset. -/
theorem records_of_runAll (steps : List RecordStep) (plain : PlainAll steps) (input : Text)
    (source : Option Text) : ∃ after, runAll steps { input, source } = .ok after ∧
      ∃ furthest : Furthest, after.records = [furthest] ∧
        let marks := marksAll false steps {}
        furthest.entries = Mark.entriesAt furthest.offset marks ∧
          0 ≤ furthest.offset ∧ (∀ mark ∈ marks, mark.offset ≤ furthest.offset) ∧
          (furthest.offset = 0 ∨ ∃ mark ∈ marks, mark.offset = furthest.offset) := by
  obtain ⟨after, ended, records⟩ := runAll_fresh plain input source
  obtain ⟨lower, all⟩ := Mark.furthest_le.mp (Int.le_refl (Mark.furthest 0 (marksAll false steps {})))
  exact ⟨after, ended, _, records, rfl, lower, all, Mark.furthest_mem⟩

/-- Two inverted records around an entry leave it as it is, and one turns it round. -/
theorem records_of_inverted :
    let steps := [bracket true [bracket true [expect .any]], bracket true [expect .endOfInput]]
    ∃ after, runAll steps { input := [] } = .ok after ∧
      after.records = [⟨0, [.any, .not .endOfInput]⟩] := by
  intro steps
  obtain ⟨after, ended, ⟨offset, entries⟩, records, expected, -, -, place⟩ :=
    records_of_runAll steps (by simp [steps, PlainAll, Plain]) [] none
  have start : ∀ mark ∈ marksAll false steps {}, mark.offset = 0 := by
    simp [steps, marksAll, marks, onwardAll, onward]
  obtain rfl : offset = 0 := by
    rcases place with here | ⟨mark, member, same⟩
    · exact here
    · exact same.symm.trans (start mark member)
  obtain rfl : entries = [.any, .not .endOfInput] := expected
  exact ⟨after, ended, records⟩

/-- It is about what was noted alone exactly where no record was opened further on. -/
theorem records_heard_iff {steps : List RecordStep} (plain : PlainAll steps) {input : Text}
    {source : Option Text} {after : ParserState}
    (ended : runAll steps { input, source } = .ok after) :
    let marks := marksAll false steps {}
    let noted := Mark.furthest 0 (Mark.heard marks)
    after.records = [⟨noted, Mark.entriesAt noted marks⟩] ↔ ∀ mark ∈ marks, mark.offset ≤ noted := by
  intro marks noted
  obtain ⟨after', ended', records⟩ := runAll_fresh plain input source
  obtain rfl := Except.ok.inj (ended'.symm.trans ended)
  have heard : noted ≤ Mark.furthest 0 marks := Mark.furthest_heard_le
  rw [records]
  constructor
  · intro same
    have offset : Mark.furthest 0 marks = noted :=
      congrArg Furthest.offset (List.head_eq_of_cons_eq same)
    exact (Mark.furthest_le.mp (Int.le_of_eq offset)).2
  · intro behind
    have offset : Mark.furthest 0 marks = noted :=
      Int.le_antisymm (Mark.furthest_le.mpr ⟨Mark.le_furthest, behind⟩) heard
    change [Furthest.mk (Mark.furthest 0 marks) (Mark.entriesAt (Mark.furthest 0 marks) marks)] = _
    rw [offset]

/-- A record that is opened further on puts out what was noted before, even if nothing is noted in it. -/
theorem bracket_puts_out :
    let steps := [expect .any, goTo 1, bracket false []]
    (∃ after, runAll steps { input := .ofString "ab" } = .ok after ∧ after.records = [⟨1, []⟩]) ∧
      Mark.furthest 0 (Mark.heard (marksAll false steps {})) = 0 ∧
        Mark.entriesAt 0 (marksAll false steps {}) = [.any] :=
  ⟨⟨_, rfl, rfl⟩, rfl, rfl⟩

end RecordStep

end PegCompiler
