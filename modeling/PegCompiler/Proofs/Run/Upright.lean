import PegCompiler.Proofs.Run.Passing

/-!
Worlds in order, and how the worlds of a run stand to the one where it began. `Course.Upright` adds to
what holds of every world of a parse that silence is no debt and that records are about offsets of the
input. `Course.Restores` says what the evaluation of an expression or of a rule leaves as it was, and
`Moment.Orderly` what holds at every instruction on the way.
-/

namespace PegCompiler

namespace Furthest

variable (record inner : Furthest)

theorem note_offset (offset : Int) (entry : Entry) :
    (record.note offset entry).offset = record.offset ∨ (record.note offset entry).offset = offset := by
  unfold note
  split
  · exact .inl rfl
  · split
    · exact .inr rfl
    · exact .inl rfl

theorem absorb_offset (inverted : Bool) : (record.absorb inner inverted).offset = record.offset ∨
    (record.absorb inner inverted).offset = inner.offset := by
  unfold absorb
  simp only
  split
  · exact .inr rfl
  · split
    · exact .inl rfl
    · exact .inl rfl

end Furthest

namespace Course

/-- A course in which kept outcomes are like new ones: a rule that fails ends where it began. -/
def steady (program : Program) (input : Text) (source : Option Text) : Course where
  program := program
  input := input
  source := source
  kept _ start out stop := start ≤ stop ∧ stop ≤ input.length ∧ (out = none → stop = start)

/-- A world in order: offsets are in the input, and silence was not ended more often than begun. -/
structure Upright (c : Course) (w : World) : Prop where
  valid : c.Valid w
  silence : 0 ≤ w.state.silence
  records : ∀ record ∈ w.state.records, 0 ≤ record.offset ∧ record.offset ≤ c.input.length

/-- A later world with the same silence and as many open records, and not before in the input. -/
structure Goes (c : Course) (w after : World) : Prop where
  upright : c.Upright after
  silence : after.state.silence = w.state.silence
  depth : after.state.records.length = w.state.records.length
  forward : w.state.offset ≤ after.state.offset

/-- What is to hold where an outcome is found: a failure has not moved the position either. -/
structure Restores (c : Course) (w : World) (out : Outcome) (after : World) : Prop
    extends c.Goes w after where
  failed : out = none → after.state.offset = w.state.offset

variable {c : Course} {w v u : World} {out : Outcome}

theorem Upright.lower (upright : c.Upright w) : 0 ≤ w.state.offset := upright.valid.state.lower

theorem Upright.upper (upright : c.Upright w) : w.state.offset ≤ c.input.length :=
  upright.valid.upper

theorem Goes.refl (upright : c.Upright w) : c.Goes w w := ⟨upright, rfl, rfl, Int.le_refl _⟩

theorem Goes.trans (first : c.Goes w v) (second : c.Goes v u) : c.Goes w u :=
  ⟨second.upright, second.silence.trans first.silence, second.depth.trans first.depth,
    Int.le_trans first.forward second.forward⟩

theorem Goes.restores (goes : c.Goes w v) (value : Value) : c.Restores w (some value) v := ⟨goes, nofun⟩

/-- What is restored behind a world at the same offset. -/
theorem Restores.behind (restores : c.Restores v out u) (goes : c.Goes w v)
    (here : v.state.offset = w.state.offset) : c.Restores w out u :=
  ⟨goes.trans restores.toGoes, fun none => (restores.failed none).trans here⟩

theorem Goes.goTo (goes : c.Goes w v) (upright : c.Upright w) {offset : Int}
    (lower : w.state.offset ≤ offset) (upper : offset ≤ v.state.offset) :
    c.Goes w (v.change ({ · with offset })) := by
  have inside := goes.upright.upper
  have natural := upright.lower
  exact ⟨⟨(goes.upright.valid.goTo (by omega) (by omega)).valid, goes.upright.silence,
    goes.upright.records⟩, goes.silence, goes.depth, lower⟩

/-- Going back to where it began. -/
theorem Goes.back (goes : c.Goes w v) (upright : c.Upright w) (out : Outcome) :
    c.Restores w out (v.change ({ · with offset := w.state.offset })) :=
  ⟨goes.goTo upright (Int.le_refl _) goes.forward, fun _ => rfl⟩

theorem Goes.mark (goes : c.Goes w v) (mark : Int) : c.Goes w (v.change ({ · with mark })) :=
  ⟨⟨(goes.upright.valid.mark mark).valid, goes.upright.silence, goes.upright.records⟩, goes.silence,
    goes.depth, goes.forward⟩

theorem Upright.advance (upright : c.Upright w) {n : Nat}
    (inside : w.state.offset + n ≤ w.state.input.length) :
    c.Goes w { w with state := w.state.advance n } :=
  ⟨⟨(upright.valid.advance inside).valid, upright.silence, upright.records⟩, rfl, rfl, by
    change w.state.offset ≤ w.state.offset + n
    omega⟩

theorem Upright.silent (upright : c.Upright w) :
    c.Upright (w.change fun s => { s with silence := s.silence + 1 }) := by
  refine ⟨(upright.valid.silence _).valid, ?_, upright.records⟩
  have natural := upright.silence
  change 0 ≤ w.state.silence + 1
  omega

/-- The end of silence, where everything in between has restored its own. -/
theorem Restores.heard (upright : c.Upright w)
    (restores : c.Restores (w.change fun s => { s with silence := s.silence + 1 }) out v) :
    c.Restores w out (v.change fun s => { s with silence := s.silence - 1 }) := by
  have same : v.state.silence = w.state.silence + 1 := restores.silence
  have natural := upright.silence
  refine ⟨⟨⟨(restores.upright.valid.silence _).valid, ?_, restores.upright.records⟩, ?_,
    restores.depth, restores.forward⟩, restores.failed⟩
  · change 0 ≤ v.state.silence - 1
    omega
  · change v.state.silence - 1 = w.state.silence
    omega

/-- What is noted is noted at the position. -/
theorem Upright.expect (upright : c.Upright w) {entry : Entry} {s : ParserState}
    (noted : w.state.expect entry = .ok s) :
    c.Goes w { w with state := s } ∧ s.offset = w.state.offset := by
  unfold ParserState.expect at noted
  split at noted
  · cases noted
    exact ⟨.refl upright, rfl⟩
  · split at noted
    · cases noted
    · rename_i record outer records
      cases noted
      have fits := upright.valid.state
      refine ⟨⟨⟨upright.valid.withState ⟨⟨fits.lower, fits.upper⟩, fits.input, fits.source, by simp⟩,
        upright.silence, fun other member => ?_⟩, rfl, by simp [records], Int.le_refl _⟩, rfl⟩
      have inside := upright.records
      rw [records] at inside
      rcases List.mem_cons.mp member with rfl | member
      · rcases record.note_offset w.state.offset entry with same | same
        · exact same ▸ inside record (by simp)
        · rw [same]
          exact ⟨upright.lower, upright.upper⟩
      · exact inside other (by simp [member])

theorem Upright.opened (upright : c.Upright w) : c.Upright (w.change (·.openRecord)) := by
  refine ⟨upright.valid.opened, upright.silence, fun record member => ?_⟩
  rcases List.mem_cons.mp member with rfl | member
  · exact ⟨upright.lower, upright.upper⟩
  · exact upright.records record member

/-- The record that was opened is closed again, and there is one around it. -/
theorem Goes.closed (goes : c.Goes (w.change (·.openRecord)) v) (upright : c.Upright w)
    (inverted : Bool) : ∃ s, v.state.closeRecord inverted = (none, s) ∧
      c.Goes w { v with state := s } ∧ s.offset = v.state.offset := by
  have depth : v.state.records.length = w.state.records.length + 1 := goes.depth
  have some := List.length_pos_iff.mpr upright.valid.state.records
  have inside := goes.upright.records
  have fits := goes.upright.valid.state
  match records : v.state.records with
  | [] | [_] =>
    rw [records] at depth
    simp only [List.length_nil, List.length_cons] at depth
    omega
  | inner :: record :: outer =>
    rw [records] at depth inside
    refine ⟨{ v.state with records := record.absorb inner inverted :: outer }, ?_,
      ⟨⟨goes.upright.valid.withState ⟨⟨fits.lower, fits.upper⟩, fits.input, fits.source, by simp⟩,
        goes.upright.silence, fun other member => ?_⟩, goes.silence, by simpa using depth,
        goes.forward⟩, rfl⟩
    · simp only [ParserState.closeRecord, records]
    · rcases List.mem_cons.mp member with rfl | member
      · rcases record.absorb_offset inner inverted with same | same
        · exact same ▸ inside record (by simp)
        · exact same ▸ inside inner (by simp)
      · exact inside other (by simp [member])

/-- How stacks and world stand above a beginning: nothing has fallen below it. The positions that were
pushed since lie between there and here. -/
structure Above (c : Course) (base : List Int) (start : World) (frame : Frame) (w : World) :
    Prop where
  upright : c.Upright w
  forward : start.state.offset ≤ w.state.offset
  silence : start.state.silence ≤ w.state.silence
  depth : start.state.records.length ≤ w.state.records.length
  positions : ∃ own, frame.positions = own ++ base ∧
    ∀ p ∈ own, start.state.offset ≤ p ∧ p ≤ w.state.offset

theorem Above.trans {base : List Int} {start : World} {frame next : Frame}
    (first : c.Above base start frame w) (second : c.Above frame.positions w next v) :
    c.Above base start next v := by
  obtain ⟨outer, above, within⟩ := first.positions
  obtain ⟨inner, above', within'⟩ := second.positions
  have forward := second.forward
  refine ⟨second.upright, Int.le_trans first.forward forward, Int.le_trans first.silence second.silence,
    Nat.le_trans first.depth second.depth, inner ++ outer, by rw [above', above, List.append_assoc],
    fun p member => ?_⟩
  rcases List.mem_append.mp member with member | member
  · exact ⟨Int.le_trans first.forward (within' p member).1, (within' p member).2⟩
  · exact ⟨(within p member).1, Int.le_trans (within p member).2 forward⟩

theorem Goes.above {start : World} (goes : c.Goes start w) (results : List Outcome)
    (positions : List Int) : c.Above positions start ⟨results, positions⟩ w :=
  ⟨goes.upright, goes.forward, Int.le_of_eq goes.silence.symm, Nat.le_of_eq goes.depth.symm, [], rfl,
    nofun⟩

/-- The same behind one position that was pushed. -/
theorem Goes.above_cons {start : World} (goes : c.Goes start w) (results : List Outcome)
    (positions : List Int) {p : Int} (lower : start.state.offset ≤ p) (upper : p ≤ w.state.offset) :
    c.Above positions start ⟨results, p :: positions⟩ w :=
  ⟨goes.upright, goes.forward, Int.le_of_eq goes.silence.symm, Nat.le_of_eq goes.depth.symm, [p], rfl,
    fun _ member => List.mem_singleton.mp member ▸ ⟨lower, upper⟩⟩

end Course

/-- An instruction that needs nothing of where it stands. -/
def Op.isFree : Op → Bool
  | unsilence | closeRecord _ | call .. => false
  | _ => true

namespace Moment

variable (c : Course) (functions : List UserFunction) (base : List Int) (start : World) (m : Moment)

/-- What an instruction needs: an end of silence or of a record follows a beginning, and user code
finds a mark, a predicate at the position and an action at a position that was pushed since. -/
def Ready : Prop :=
  match m.instr with
  | .op .unsilence => start.state.silence < m.world.state.silence
  | .op (.closeRecord _) => start.state.records.length < m.world.state.records.length
  | .op (.call f _ _) => ∃ user, Index.at? functions f = some user ∧
      if user.predicate then m.world.state.mark = m.world.state.offset
      else ∃ own, m.frame.positions = m.world.state.mark :: own ++ base
  | _ => True

/-- A moment in order, in a run from `start` on a stack of the positions `base`. -/
structure Orderly : Prop where
  above : c.Above base start m.frame m.world
  ready : m.Ready functions base start

/-- User code is called that is no predicate. -/
def CallsAction : Prop := ∃ f n arguments user, m.instr = .op (.call f n arguments) ∧
  Index.at? functions f = some user ∧ user.predicate = false

/-- A moment in order behind the position where the run began, which is on the stack. -/
structure Bracketed : Prop extends m.Orderly c functions base start where
  suffix : start.state.offset :: base <:+ m.frame.positions

variable {c functions base start m}

theorem ready_of_free {o : Op} (free : o.isFree = true) {frame : Frame} {w : World} :
    Ready functions base start ⟨.op o, frame, w⟩ := by
  cases o with
  | unsilence | closeRecord | call => cases free
  | _ => trivial

theorem Orderly.within {frame : Frame} {w : World} (above : c.Above base start frame w)
    (orderly : m.Orderly c functions frame.positions w) : m.Orderly c functions base start := by
  refine ⟨above.trans orderly.above, ?_⟩
  have ready := orderly.ready
  obtain ⟨own, positions, -⟩ := above.positions
  unfold Ready at ready ⊢
  split
  · rename_i same
    rw [same] at ready
    exact Int.lt_of_le_of_lt above.silence ready
  · rename_i same
    rw [same] at ready
    exact Nat.lt_of_le_of_lt above.depth ready
  · rename_i same
    rw [same] at ready
    obtain ⟨user, known, marked⟩ := ready
    refine ⟨user, known, ?_⟩
    split at marked
    · rename_i predicate
      rwa [if_pos predicate]
    · rename_i action
      obtain ⟨inner, at?⟩ := marked
      rw [if_neg action]
      exact ⟨inner ++ own, by rw [at?, positions]; simp⟩
  · trivial

end Moment

end PegCompiler
