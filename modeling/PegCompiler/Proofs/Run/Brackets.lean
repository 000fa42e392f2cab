import PegCompiler.Run.Machine

/-!
Traces as rows of brackets. `Trace.Bracketed` is a row of calls that are over, each with the calls that it
made between its two events; `Trace.BrokenOff` is what there is of such a row when something is raised in
it. The indentation of a printed trace counts the open brackets (`Trace.Bracketed.indent_take`).
-/

namespace PegCompiler

namespace TraceEvent

def entering (name : Text) (start : Int) : TraceEvent := ⟨.enter, name, start, start, none⟩

/-- A match has the result and the offset where it ends; what fails ends where it began. -/
def leaving (name : Text) (start : Int) (outcome : Outcome) (stop : Int) : TraceEvent :=
  match outcome with
  | some value => ⟨.matched, name, start, stop, some value⟩
  | none => ⟨.failed, name, start, start, none⟩

theorem leaving_kind (name : Text) (start : Int) (outcome : Outcome) (stop : Int) :
    ¬(leaving name start outcome stop).kind = .enter := by
  cases outcome <;> nofun

end TraceEvent

namespace Trace

open TraceEvent (entering leaving)

/-- The events of calls that are over, in their order. What they tell of a call is `told`: the rule, where
it began, its outcome and where it ended. -/
inductive Bracketed (told : Text → Int → Outcome → Int → Prop) : List TraceEvent → Prop
  | nil : Bracketed told []
  | call {name : Text} {start stop : Int} {outcome : Outcome} {inner rest : List TraceEvent} :
    told name start outcome stop → Bracketed told inner → Bracketed told rest →
    Bracketed told (entering name start :: (inner ++ leaving name start outcome stop :: rest))

/-- The events of calls the last of which may not be over; an open call has only its first event, and
those of the calls that it has made. -/
inductive BrokenOff (told : Text → Int → Outcome → Int → Prop) (still : Text → Int → Prop) :
    List TraceEvent → Prop
  | closed {row : List TraceEvent} : Bracketed told row → BrokenOff told still row
  | inside {name : Text} {start : Int} {before inner : List TraceEvent} :
    Bracketed told before → still name start → BrokenOff told still inner →
    BrokenOff told still (before ++ entering name start :: inner)

section Rows

variable {told told' : Text → Int → Outcome → Int → Prop} {still still' : Text → Int → Prop}
  {row rest : List TraceEvent}

theorem Bracketed.mono (brackets : Bracketed told row)
    (imp : ∀ name start outcome stop, told name start outcome stop → told' name start outcome stop) :
    Bracketed told' row := by
  induction brackets with
  | nil => exact .nil
  | call here _ _ inner rest => exact .call (imp _ _ _ _ here) inner rest

theorem Bracketed.append (first : Bracketed told row) (second : Bracketed told rest) :
    Bracketed told (row ++ rest) := by
  induction first with
  | nil => exact second
  | call here inner _ _ behind =>
    rw [List.cons_append, List.append_assoc, List.cons_append]
    exact .call here inner behind

theorem BrokenOff.mono (broken : BrokenOff told still row)
    (imp : ∀ name start outcome stop, told name start outcome stop → told' name start outcome stop)
    (open' : ∀ name start, still name start → still' name start) : BrokenOff told' still' row := by
  induction broken with
  | closed brackets => exact .closed (brackets.mono imp)
  | inside before here _ inner => exact .inside (before.mono imp) (open' _ _ here) inner

theorem BrokenOff.behind (first : Bracketed told row) (second : BrokenOff told still rest) :
    BrokenOff told still (row ++ rest) := by
  cases second with
  | closed second => exact .closed (first.append second)
  | inside before here inner =>
    rw [← List.append_assoc]
    exact .inside (first.append before) here inner

/-- What is broken off is the beginning of a bracketed row, in which the open calls fail. -/
theorem BrokenOff.completed (broken : BrokenOff told still row) :
    ∃ rest, Bracketed (fun name start outcome stop => told name start outcome stop ∨
      still name start ∧ outcome = none) (row ++ rest) := by
  induction broken with
  | closed brackets =>
    exact ⟨[], by simpa using brackets.mono fun _ _ _ _ => .inl⟩
  | @inside name start before inner brackets here _ ih =>
    obtain ⟨rest, completed⟩ := ih
    refine ⟨rest ++ [leaving name start none start], ?_⟩
    have last := Bracketed.call (.inr ⟨here, rfl⟩ : told name start none start ∨ _) completed .nil
    simpa using (brackets.mono fun _ _ _ _ => .inl).append last

end Rows

/-! ## Indentation -/

/-- How far in the next line stands behind some events. -/
def indentBehind (input : Text) (indent : Int) (events : List TraceEvent) : Int :=
  (lines input indent events).2

variable {input : Text} {indent : Int}

theorem indentBehind_cons (event : TraceEvent) (events : List TraceEvent) :
    indentBehind input indent (event :: events) =
      indentBehind input (if event.kind = .enter then indent + 1 else indent - 1) events := by
  by_cases enters : event.kind = .enter <;> simp [indentBehind, lines, enters]

theorem indentBehind_append (first second : List TraceEvent) :
    indentBehind input indent (first ++ second) =
      indentBehind input (indentBehind input indent first) second := by
  induction first generalizing indent with
  | nil => rfl
  | cons event rest ih => rw [List.cons_append, indentBehind_cons, indentBehind_cons, ih]

@[simp] theorem indentBehind_entering (name : Text) (start : Int) (events : List TraceEvent) :
    indentBehind input indent (entering name start :: events) =
      indentBehind input (indent + 1) events :=
  indentBehind_cons _ _

@[simp] theorem indentBehind_leaving (name : Text) (start stop : Int) (outcome : Outcome)
    (events : List TraceEvent) :
    indentBehind input indent (leaving name start outcome stop :: events) =
      indentBehind input (indent - 1) events := by
  rw [indentBehind_cons, if_neg (TraceEvent.leaving_kind name start outcome stop)]

namespace Bracketed

variable {told : Text → Int → Outcome → Int → Prop} {row : List TraceEvent}

/-- Behind a bracketed row the indentation is what it was. -/
theorem indent_eq (brackets : Bracketed told row) (input : Text) (indent : Int) :
    indentBehind input indent row = indent := by
  induction brackets generalizing indent with
  | nil => rfl
  | call _ _ _ inner rest =>
    rw [indentBehind_entering, indentBehind_append, inner, indentBehind_leaving,
      Int.add_sub_cancel, rest]

/-- Within a bracketed row it is never less. -/
theorem indent_take (brackets : Bracketed told row) (input : Text) (indent : Int) (n : Nat) :
    indent ≤ indentBehind input indent (row.take n) := by
  induction brackets generalizing indent n with
  | nil => rw [List.take_nil]; exact Int.le_refl _
  | @call name start stop outcome row others _ inner _ within behind =>
    cases n with
    | zero => exact Int.le_refl _
    | succ n =>
      rw [List.take_succ_cons, indentBehind_entering, List.take_append,
        indentBehind_append]
      -- the end of the call is among the events or not
      cases more : n - row.length with
      | zero =>
        have := within (indent + 1) n
        rw [List.take_zero]
        change indent ≤ indentBehind input (indent + 1) (row.take n)
        omega
      | succ k =>
        rw [List.take_of_length_le (by omega), inner.indent_eq, List.take_succ_cons,
          indentBehind_leaving, Int.add_sub_cancel]
        exact behind indent k

end Bracketed

theorem BrokenOff.indent_take {told : Text → Int → Outcome → Int → Prop} {still : Text → Int → Prop}
    {row : List TraceEvent} (broken : BrokenOff told still row) (input : Text) (indent : Int) (n : Nat) :
    indent ≤ indentBehind input indent (row.take n) := by
  obtain ⟨rest, completed⟩ := broken.completed
  have cut : (row ++ rest).take (min n row.length) = row.take n := by
    rw [← List.take_take, List.take_left]
  rw [← cut]
  exact completed.indent_take input indent _

end Trace

end PegCompiler
