import PegCompiler.Proofs.Run.Bounds
import PegCompiler.Proofs.Run.Bytecode

/-!
Every run of a rule comes to an end, if the ranges that are entered have a limit or consume
(`Scene.Bounded`). `Run.Ends` says of a family of runs, one for every amount of
fuel, that from some amount on they end in one and the same way, and raise nothing but what is
allowed; with want of fuel not allowed they have an end. An expression ends if the calls that it can
get to do (`Ready`). Those further on in the input have less of it left; those where the expression
starts are left calls, of which no chain goes on for ever.
-/

namespace PegCompiler

/-- An end with a result, or with something raised that is allowed. -/
def Ended.Settled {α : Type} (allowed : Raise → Prop) (ended : Ended α) : Prop :=
  ∀ raised after, ended = (.error raised, after) → allowed raised

/-- With fuel enough the runs are the same, and end. -/
def Run.Ends {α : Type} (allowed : Raise → Prop) (run : Nat → Run α) (w : World) : Prop :=
  ∃ (enough : Nat) (ended : Ended α), ended.Settled allowed ∧
    ∀ fuel ≥ enough, Run.go (run fuel) w = ended

namespace Ended

variable {α β : Type} {allowed : Raise → Prop}

theorem settled_ok {a : α} {w : World} : Settled allowed (.ok a, w) := by
  intro raised after same
  cases (Prod.mk.inj same).1

theorem settled_error {raised : Raise} {w : World} (ok : allowed raised) :
    Settled allowed ((.error raised, w) : Ended α) := by
  rintro _ _ same
  cases same
  exact ok

end Ended

namespace Run.Ends

variable {α β : Type} {allowed : Raise → Prop} {w : World}

/-- A run that takes no fuel. -/
theorem of_settled {run : Run α} (settled : (Run.go run w).Settled allowed) :
    Ends allowed (fun _ => run) w :=
  ⟨0, _, settled, fun _ _ => rfl⟩

theorem pure {a : α} : Ends allowed (fun _ => Pure.pure a) w := of_settled Ended.settled_ok

theorem throw {raised : Raise} (ok : allowed raised) :
    Ends allowed (fun _ => (MonadExcept.throw raised : Run α)) w :=
  of_settled (Ended.settled_error ok)

theorem bind {run : Nat → Run α} {next : Nat → α → Run β} (first : Ends allowed run w)
    (second : ∀ a after fuel, Run.go (run fuel) w = (.ok a, after) →
      Ends allowed (fun fuel => next fuel a) after) :
    Ends allowed (fun fuel => run fuel >>= next fuel) w := by
  obtain ⟨enough, ⟨_ | a, after⟩, settled, ends⟩ := first
  · refine ⟨enough, (.error _, after), Ended.settled_error (settled _ after rfl),
      fun fuel more => ?_⟩
    rw [Run.go_bind, ends fuel more]
    rfl
  · obtain ⟨enough', ended, settled, ends'⟩ := second a after enough (ends enough (Nat.le_refl _))
    refine ⟨max enough enough', ended, settled, fun fuel more => ?_⟩
    rw [Run.go_bind, ends fuel (by omega)]
    exact ends' fuel (by omega)

/-- Only runs with fuel matter. -/
theorem of_succ {run : Nat → Run α} (ends : Ends allowed (fun fuel => run (fuel + 1)) w) :
    Ends allowed run w := by
  obtain ⟨enough, ended, settled, ends⟩ := ends
  refine ⟨enough + 1, ended, settled, fun fuel more => ?_⟩
  obtain ⟨fuel, rfl⟩ := Nat.exists_eq_add_of_le' (show 1 ≤ fuel by omega)
  exact ends fuel (by omega)

theorem once {run : Nat → Run α} (ends : Ends allowed run w) :
    Ends allowed (fun fuel => Tree.once fuel (run fuel)) w := by
  obtain ⟨enough, ended, settled, ends⟩ := ends
  refine ⟨enough + 1, ended, settled, fun fuel more => ?_⟩
  obtain ⟨fuel, rfl⟩ := Nat.exists_eq_add_of_le' (show 1 ≤ fuel by omega)
  exact ends (fuel + 1) (by omega)

/-- A range, where only some are entered. -/
theorem entered {run : Nat → Run α} {admitted : Prop} [Decidable admitted] (bounds : allowed .wrongType)
    (ends : admitted → Ends allowed run w) :
    Ends allowed (fun fuel => if admitted then run fuel else MonadExcept.throw .wrongType) w := by
  split
  · rename_i yes
    exact ends yes
  · exact throw bounds

end Run.Ends

/-- With fuel enough for what is repeated, and rounds enough, a loop always ends in the same way. -/
def Run.LoopEnds {α : Type} (allowed : Raise → Prop) (loop : (fuel rounds : Nat) → Run α)
    (w : World) : Prop :=
  ∃ (enough : Nat) (ended : Ended α), ended.Settled allowed ∧ ∀ fuel ≥ enough, ∀ rounds ≥ enough,
    Run.go (loop fuel rounds) w = ended

namespace Run.LoopEnds

variable {α β : Type} {allowed : Raise → Prop} {w : World}

theorem ends {loop : (fuel rounds : Nat) → Run α} (ends : LoopEnds allowed loop w) :
    Ends allowed (fun fuel => loop fuel fuel) w := by
  obtain ⟨enough, ended, settled, ends⟩ := ends
  exact ⟨enough, ended, settled, fun fuel more => ends fuel more fuel more⟩

theorem pure {a : α} : LoopEnds allowed (fun _ _ => Pure.pure a) w :=
  ⟨0, _, Ended.settled_ok, fun _ _ _ _ => rfl⟩

theorem bind {first : Nat → Run α} {next : (fuel rounds : Nat) → α → Run β}
    (ends : Ends allowed first w)
    (second : ∀ a after fuel, Run.go (first fuel) w = (.ok a, after) →
      LoopEnds allowed (fun fuel rounds => next fuel rounds a) after) :
    LoopEnds allowed (fun fuel rounds => first fuel >>= next fuel rounds) w := by
  obtain ⟨enough, ⟨_ | a, after⟩, settled, ends⟩ := ends
  · refine ⟨enough, (.error _, after), Ended.settled_error (settled _ after rfl),
      fun fuel more _ _ => ?_⟩
    rw [Run.go_bind, ends fuel more]
    rfl
  · obtain ⟨enough', ended, settled, ends'⟩ := second a after enough (ends enough (Nat.le_refl _))
    refine ⟨max enough enough', ended, settled, fun fuel more rounds many => ?_⟩
    rw [Run.go_bind, ends fuel (by omega)]
    exact ends' fuel (by omega) rounds (by omega)

/-- The first round. -/
theorem of_succ {loop : (fuel rounds : Nat) → Run α}
    (ends : LoopEnds allowed (fun fuel rounds => loop fuel (rounds + 1)) w) :
    LoopEnds allowed loop w := by
  obtain ⟨enough, ended, settled, ends⟩ := ends
  refine ⟨enough + 1, ended, settled, fun fuel more rounds many => ?_⟩
  obtain ⟨rounds, rfl⟩ := Nat.exists_eq_add_of_le' (show 1 ≤ rounds by omega)
  exact ends fuel (by omega) rounds (by omega)

end Run.LoopEnds

namespace Course

variable {c : Course} {g : Grammar} {allowed : Raise → Prop} {w : World}

section Leaves

theorem expect_ends (reports : Bool) (entry : Entry) (valid : c.Valid w) :
    Run.Ends allowed (fun _ => Tree.expect reports entry) w := by
  refine .of_settled ?_
  obtain ⟨s, noted, -⟩ := valid.expect entry
  rw [Tree.go_expect]
  split
  · rw [noted]
    exact Ended.settled_ok
  · exact Ended.settled_ok

/-- A leaf: what it expects is noted, then it is matched. -/
theorem leaf_ends (reports : Bool) (entry : Entry)
    {primitive : ParserState → Except Raise (Option Text × ParserState)}
    (matches? : ∀ s : ParserState, s.Inside → ∃ result, primitive s = .ok result)
    (valid : c.Valid w) :
    Run.Ends allowed (fun _ => do Tree.expect reports entry; Tree.matching primitive) w := by
  refine .bind (expect_ends reports entry valid) fun _ after fuel ended => .of_settled ?_
  have follows := (expect_steps reports entry w valid _ after ended).follows
  obtain ⟨⟨matched, later⟩, found⟩ := matches? after.state follows.valid.state.toInside
  rw [Tree.go_matching, found]
  exact Ended.settled_ok

variable {scene : Scene}
  (user : ∀ f s values raised, scene.meaning f s values = .error raised → allowed raised)
  (bounds : allowed .wrongType)

include user in
theorem call_ends (predicate : Bool) (body : Text) (scope : Scope) :
    Run.Ends allowed (fun _ => Tree.call scene predicate body scope) w := by
  refine .of_settled fun raised after same => ?_
  rw [Tree.go_call] at same
  exact user _ _ _ raised (Prod.mk.inj same).1

include user in
theorem act_ends (start : Int) (body : Text) (scope : Scope) :
    Run.Ends allowed (fun _ => Tree.act scene start body scope) w :=
  .bind (.of_settled Ended.settled_ok) fun _ _ _ _ =>
    .bind (call_ends user false body scope) fun _ _ _ _ => .pure

include bounds in
theorem boundOf_ends (scope : Scope) (name : Text) :
    Run.Ends allowed (fun _ => Tree.boundOf scope name) w := by
  refine .of_settled ?_
  rw [Tree.go_boundOf]
  split
  · exact Ended.settled_ok
  · exact Ended.settled_error bounds

include bounds in
theorem reached_ends (scope : Scope) (max : Boundary) (count : Nat) :
    Run.Ends allowed (fun _ => Tree.reached scope max count) w := by
  unfold Tree.reached
  split
  · exact .pure
  · exact .bind (boundOf_ends bounds scope _) fun _ _ _ _ => .pure
  · exact .pure

include bounds in
theorem fewer_ends (scope : Scope) (min : Boundary) (count : Nat) :
    Run.Ends allowed (fun _ => Tree.fewer scope min count) w := by
  unfold Tree.fewer
  split
  · exact .pure
  · exact .bind (boundOf_ends bounds scope _) fun _ _ _ _ => .pure
  · exact .pure

end Leaves

theorem lookahead_ends {e : Expr} (negative : Bool) {body : Nat → Run Outcome} (valid : c.Valid w)
    (ends : Run.Ends allowed body (w.change (·.openRecord)))
    (steps : ∀ fuel, c.Steps (body fuel) (g.Moves e)) :
    Run.Ends allowed (fun fuel => Tree.lookahead negative (body fuel)) w := by
  refine .bind (.of_settled Ended.settled_ok) fun start w' _ ended => ?_
  cases ended
  refine .bind (.of_settled Ended.settled_ok) fun _ opened _ ended => ?_
  cases ended
  refine .bind ends fun out v fuel ended => .bind (.of_settled ?_) fun _ u _ _ => ?_
  · obtain ⟨u, closes, -⟩ := (steps fuel _ valid.opened out v ended).follows.closes valid negative
    rw [closes]
    exact Ended.settled_ok
  · cases out with
    | none => exact .pure
    | some _ => exact .bind (.of_settled Ended.settled_ok) fun _ _ _ _ => .pure

section Loops

/-- There are never more than `most` in what is collected. -/
def Limits (scope : Scope) (max : Boundary) (most : Nat) : Prop :=
  ∀ (count : Nat) (w : World), most ≤ count →
    (Tree.reached scope max count).Yields w fun enough _ => enough = true

/-- A greatest number limits what is collected if a label does not hold an endless one. -/
theorem exists_limits {scope : Scope} {max : Boundary} (greatest : max.IsGreatest)
    (bounded : max ≠ .unbounded) (limited : max.passes (!·.isEndless) scope = true) :
    ∃ most, Limits scope max most := by
  cases max with
  | constant limit =>
    cases limit with
    | absent => exact absurd rfl bounded
    | text => exact absurd greatest id
    | number n =>
      refine ⟨n.toNat, fun count w more => .pure ?_⟩
      exact decide_eq_true (by omega)
  | label limit =>
    cases limit with
    | absent | number => exact absurd greatest id
    | text name =>
      cases found : (Value.lookup? name scope).bind Value.number? with
      | none =>
        refine ⟨0, fun count w _ => .bind fun n after ended => ?_⟩
        rw [Tree.go_boundOf, found] at ended
        cases ended
      | some n =>
        rw [Boundary.passes, found, Option.all_some, Bool.not_eq_true'] at limited
        obtain ⟨most, atMost⟩ := n.exists_atMost limited
        refine ⟨most, fun count w more => .bind fun m after ended => ?_⟩
        rw [Tree.go_boundOf, found] at ended
        cases ended
        exact .pure (atMost count more)

/-- An endless number is no limit: what always gives something, and takes nothing, is collected for
ever. -/
theorem collect_runs_on {scope : Scope} {name : Text} {n : Number}
    (held : (Value.lookup? name scope).bind Value.number? = some n) (endless : n.isEndless = true)
    {element : Run Outcome} {item : Value} {w : World} (gives : Run.go element w = (.ok (some item), w))
    (rounds : Nat) (items : List Value) :
    Run.go (Tree.collect (Tree.reached scope (.label (.text name))) element rounds items) w =
      (.error .outOfFuel, w) := by
  induction rounds generalizing items with
  | zero => rfl
  | succ rounds ih =>
    simp only [Tree.collect, Tree.reached, Run.go_bind, Tree.go_boundOf, held, Run.go_pure,
      n.atMost_eq_false endless, Ended.andThen_ok, Bool.false_eq_true, if_false, gives, ih]

variable {e d : Expr} {element separator : Nat → Run Outcome} {scope : Scope} {max : Boundary}
  {start : Int} (bounds : allowed .wrongType)
  (each : ∀ w, c.Valid w → start ≤ w.state.offset → Run.Ends allowed element w)
  (steps : ∀ fuel, c.Steps (element fuel) (g.Moves e))

/-- Less and less is left: of the input if `consumes`, else of the greatest number. -/
def Shrinks (c : Course) (consumes : Prop) (scope : Scope) (max : Boundary) (left : Nat)
    (count : Nat) (w : World) : Prop :=
  consumes ∧ c.input.length ≤ w.state.offset + left ∨
    ∃ most, Limits scope max most ∧ most ≤ count + left

/-- One more has been collected. -/
theorem Shrinks.next {consumes : Prop} {left count : Nat} {u v : World}
    (shrinks : Shrinks c consumes scope max left count w)
    (open' : Run.go (Tree.reached scope max count) u = (.ok false, u)) (valid : c.Valid v)
    (moves : consumes → w.state.offset < v.state.offset) :
    0 < left ∧ Shrinks c consumes scope max (left - 1) (count + 1) v := by
  rcases shrinks with ⟨consumes, input⟩ | ⟨most, limits, few⟩
  · have := moves consumes
    have := valid.upper
    exact ⟨by omega, .inl ⟨consumes, by omega⟩⟩
  · have open' : ¬most ≤ count := fun many => by cases limits count u many _ _ open'
    exact ⟨by omega, .inr ⟨most, limits, by omega⟩⟩

include bounds each steps in
theorem collect_ends (left : Nat) (items : List Value) (w : World) (valid : c.Valid w)
    (behind : start ≤ w.state.offset)
    (shrinks : Shrinks c (g.Consumes e) scope max left items.length w) :
    Run.LoopEnds allowed (fun fuel rounds =>
      Tree.collect (Tree.reached scope max) (element fuel) rounds items) w := by
  induction left using Nat.strongRecOn generalizing items w with
  | ind left ih =>
    refine .of_succ ?_
    simp only [Tree.collect]
    refine .bind (reached_ends bounds scope max items.length) fun full w' _ open' => ?_
    obtain ⟨rfl, -⟩ := reached_steps scope max items.length full w' open'
    cases full with
    | true => exact .pure
    | false =>
      refine .bind (each w' valid behind) fun out v fuel ended => ?_
      obtain ⟨follows, moves⟩ := steps fuel w' valid out v ended
      cases out with
      | none => exact .pure
      | some item =>
        obtain ⟨positive, shrinks⟩ := shrinks.next open' follows.valid moves.2.1
        refine ih (left - 1) (by omega) (items ++ [item]) v follows.valid ?_ ?_
        · exact Int.le_trans behind moves.1
        · simpa using shrinks

include bounds each steps in
/-- The delimiter is only tried behind a match. -/
theorem separate_ends
    (between : ∀ w, c.Valid w → start < w.state.offset ∨ start ≤ w.state.offset ∧ ¬g.Consumes e →
      Run.Ends allowed separator w)
    (betweenSteps : ∀ fuel, c.Steps (separator fuel) (g.Moves d)) (left : Nat) (back : Int)
    (items : List Value) (w : World) (valid : c.Valid w) (behind : start ≤ w.state.offset)
    (shrinks : Shrinks c (g.Consumes e ∨ g.Consumes d) scope max left (items.length + 1) w) :
    Run.LoopEnds allowed (fun fuel rounds => Tree.separate (Tree.reached scope max) (element fuel)
      (separator fuel) rounds back items) w := by
  induction left using Nat.strongRecOn generalizing back items w with
  | ind left ih =>
    refine .of_succ ?_
    simp only [Tree.separate]
    refine .bind (each w valid behind) fun out v fuel ended => ?_
    obtain ⟨follows, moves⟩ := steps fuel w valid out v ended
    cases out with
    | none => exact .bind (.of_settled Ended.settled_ok) fun _ _ _ _ => .pure
    | some item =>
      obtain ⟨forward, consumes, -⟩ := moves
      refine .bind (reached_ends bounds scope max (items.length + 1)) fun full v' _ open' => ?_
      obtain ⟨rfl, -⟩ := reached_steps scope max (items.length + 1) full v' open'
      cases full with
      | true => exact .pure
      | false =>
        refine .bind (.of_settled Ended.settled_ok) fun back v'' _ ended => ?_
        cases ended
        refine .bind (between v' follows.valid ?_) fun out u fuel ended => ?_
        · by_cases consumed : g.Consumes e
          · exact .inl (Int.lt_of_le_of_lt behind (consumes consumed))
          · exact .inr ⟨Int.le_trans behind forward, consumed⟩
        · obtain ⟨further, moves⟩ := betweenSteps fuel v' follows.valid out u ended
          cases out with
          | none => exact .pure
          | some _ =>
            obtain ⟨onward, consumes', -⟩ := moves
            obtain ⟨positive, shrinks⟩ := shrinks.next open' further.valid (by
              rintro (consumed | consumed)
              · exact Int.lt_of_lt_of_le (consumes consumed) onward
              · exact Int.lt_of_le_of_lt forward (consumes' consumed))
            refine ih (left - 1) (by omega) _ (items ++ [item]) u further.valid ?_ ?_
            · exact Int.le_trans behind (Int.le_trans forward onward)
            · simpa using shrinks

theorem exists_shrinks {consumes : Prop} (count : Nat) (w : World)
    (progress : consumes ∨ ∃ most, Limits scope max most) :
    ∃ left, Shrinks c consumes scope max left count w := by
  rcases progress with consumes | ⟨most, limits⟩
  · exact ⟨(c.input.length - w.state.offset).toNat, .inl ⟨consumes, by omega⟩⟩
  · exact ⟨most, .inr ⟨most, limits, by omega⟩⟩

include bounds each steps in
theorem gather_ends (valid : c.Valid w) (behind : start ≤ w.state.offset)
    (progress : g.Consumes e ∨ ∃ most, Limits scope max most) :
    Run.Ends allowed (fun fuel => Tree.gather fuel scope max (element fuel) none) w := by
  obtain ⟨left, shrinks⟩ := exists_shrinks (c := c) 0 w progress
  exact (collect_ends bounds each steps left [] w valid behind shrinks).ends

include bounds each steps in
theorem gather_between_ends
    (between : ∀ w, c.Valid w → start < w.state.offset ∨ start ≤ w.state.offset ∧ ¬g.Consumes e →
      Run.Ends allowed separator w)
    (betweenSteps : ∀ fuel, c.Steps (separator fuel) (g.Moves d)) (valid : c.Valid w)
    (behind : start ≤ w.state.offset)
    (progress : (g.Consumes e ∨ g.Consumes d) ∨ ∃ most, Limits scope max most) :
    Run.Ends allowed
      (fun fuel => Tree.gather fuel scope max (element fuel) (some (separator fuel))) w := by
  obtain ⟨left, shrinks⟩ := exists_shrinks (c := c) 1 w progress
  refine .once (.bind (reached_ends bounds scope max 0) fun full w' _ ended => ?_)
  obtain ⟨rfl, -⟩ := reached_steps scope max 0 full w' ended
  cases full with
  | true => exact .pure
  | false =>
    refine .bind (.of_settled Ended.settled_ok) fun back v _ ended => ?_
    cases ended
    exact (separate_ends bounds each steps between betweenSteps left _ [] w' valid behind
      shrinks).ends

include bounds in
theorem repetition_ends {min : Boundary} {run : Nat → Option (Run Outcome)}
    (gathers : Run.Ends allowed
      (fun fuel => Tree.gather fuel scope max (element fuel) (run fuel)) w) :
    Run.Ends allowed
      (fun fuel => Tree.repetition fuel scope min max (element fuel) (run fuel)) w := by
  refine .bind (.of_settled Ended.settled_ok) fun back v _ ended => ?_
  cases ended
  refine .bind gathers fun all v _ _ => ?_
  refine .bind (fewer_ends bounds scope min all.length) fun few u _ _ => ?_
  cases few with
  | true => exact .bind (.of_settled Ended.settled_ok) fun _ _ _ _ => .pure
  | false => exact .pure

end Loops

section Expressions

variable {scene : Scene} {call : Nat → Int → Run Outcome}

/-- Calls of rules end: further on in the input all of them, and here those that are left calls. -/
def Ready (c : Course) (allowed : Raise → Prop) (g : Grammar) (call : Nat → Int → Run Outcome)
    (left : Text → Prop) (here : Int) : Prop :=
  ∀ name, g.defines name = true → ∀ w, c.Valid w →
    here < w.state.offset ∨ here = w.state.offset ∧ left name →
      Run.Ends allowed (fun fuel => call fuel (g.placeOf name)) w

theorem Ready.onward {left other : Text → Prop} {here there : Int}
    (ready : c.Ready allowed g call left here) (forward : here ≤ there)
    (same : here = there → ∀ name, other name → left name) :
    c.Ready allowed g call other there := by
  intro name defined w valid which
  refine ready name defined w valid ?_
  rcases which with further | ⟨rfl, isLeft⟩
  · exact .inl (Int.lt_of_le_of_lt forward further)
  · rcases Int.lt_or_eq_of_le forward with further | here
    · exact .inl further
    · exact .inr ⟨here, same here name isLeft⟩

/-- An expression ends wherever the calls do that it can get to. -/
def ExprEnds (c : Course) (allowed : Raise → Prop) (scene : Scene) (call : Nat → Int → Run Outcome)
    (e : Expr) : Prop :=
  ∀ (reports : Bool) (finish : Option Text) (scope : Scope) (w : World), c.Valid w →
    c.Ready allowed scene.grammar call (scene.grammar.LeftRef · e) w.state.offset →
    Run.Ends allowed (fun fuel => Tree.expr scene (call fuel) fuel reports finish scope e) w

variable
  (user : ∀ f s values raised, scene.meaning f s values = .error raised → allowed raised)
  (bounds : allowed .wrongType)
  (calls : ∀ fuel name r, scene.grammar.find? name = some r →
    c.Steps (call fuel (scene.grammar.placeOf name)) (scene.grammar.Moves r.body))
  (judged : scene.grammar.Judged) (bounded : scene.Bounded)

include user in
/-- What is left of a sequence; nothing has been consumed yet, or there is less input left. -/
theorem row_ends {info : Info} (before : List Expr) {es : List Expr} {here : Int}
    (each : ∀ e ∈ es, c.ExprEnds allowed scene call e)
    (steps : ∀ e ∈ es, ∀ fuel reports scope, c.Steps
      (Tree.expr scene (call fuel) fuel reports none scope e) (scene.grammar.Moves e))
    (ready : c.Ready allowed scene.grammar call
      (scene.grammar.LeftRef · (.sequence info (before ++ es))) here)
    (reports : Bool) (finish : Option Text) (start : Int) (scope : Scope)
    (autos values : List Value) (w : World) (valid : c.Valid w) (forward : here ≤ w.state.offset)
    (idle : here = w.state.offset → ∀ b ∈ before, ¬scene.grammar.Consumes b) :
    Run.Ends allowed (fun fuel =>
      Tree.row scene (call fuel) fuel reports finish start scope autos values es) w := by
  induction es generalizing before scope autos values w with
  | nil =>
    cases finish with
    | none => exact .pure
    | some code => exact act_ends user start code scope
  | cons e rest ih =>
    refine .bind (each e (by simp) reports none scope w valid ?_) fun out v fuel ended => ?_
    · exact ready.onward forward fun same name ref => .element (idle same) ref
    · obtain ⟨follows, moves⟩ := steps e (by simp) fuel reports scope w valid out v ended
      cases out with
      | none => exact .bind (.of_settled Ended.settled_ok) fun _ _ _ _ => .pure
      | some value =>
        obtain ⟨onward, consumes, -⟩ := moves
        refine ih (before ++ [e]) (fun e he => each e (by simp [he]))
          (fun e he => steps e (by simp [he])) (by simpa using ready) _ _ _ v follows.valid
          (Int.le_trans forward onward) fun same b hb => ?_
        rcases List.mem_append.mp hb with hb | hb
        · exact idle (Int.le_antisymm forward (same ▸ onward)) b hb
        · obtain rfl := List.mem_singleton.mp hb
          intro consumed
          have := consumes consumed
          omega

theorem alternatives_ends {es : List Expr} (each : ∀ e ∈ es, c.ExprEnds allowed scene call e)
    (steps : ∀ e ∈ es, ∀ fuel reports scope, c.Steps
      (Tree.expr scene (call fuel) fuel reports none scope e) (scene.grammar.Moves e))
    (reports : Bool) (scope : Scope) (w : World) (valid : c.Valid w)
    (ready : ∀ e ∈ es,
      c.Ready allowed scene.grammar call (scene.grammar.LeftRef · e) w.state.offset) :
    Run.Ends allowed (fun fuel => Tree.alternatives scene (call fuel) fuel reports scope es) w := by
  induction es generalizing w with
  | nil => exact .pure
  | cons e rest ih =>
    have others := ih (fun e he => each e (by simp [he])) (fun e he => steps e (by simp [he]))
    simp only [Tree.alternatives]
    split
    · exact others w valid fun e he => ready e (by simp [he])
    · refine .bind (each e (by simp) reports none scope w valid (ready e (by simp)))
        fun out v fuel ended => ?_
      obtain ⟨follows, moves⟩ := steps e (by simp) fuel reports scope w valid out v ended
      cases out with
      | some value => exact .pure
      | none =>
        refine others v follows.valid fun e he => ?_
        rw [moves.1]
        exact ready e (by simp [he])

include user bounds calls judged bounded in
/-- Every run of an expression ends. -/
theorem expr_ends (e : Expr) : scene.grammar.Sound e → c.ExprEnds allowed scene call e := by
  induction e using Expr.byChildren with
  | node e ih =>
    intro sound reports finish scope w valid ready
    have each : ∀ b ∈ e.children, c.ExprEnds allowed scene call b :=
      fun b hb => ih b hb (sound.child hb)
    have steps : ∀ b ∈ e.children, ∀ fuel reports scope, c.Steps
        (Tree.expr scene (call fuel) fuel reports none scope b) (scene.grammar.Moves b) :=
      fun b hb fuel reports scope =>
        expr_steps (calls fuel) judged b (sound.child hb) reports none scope
    cases e with
    | literal info value ignoreCase =>
      simp only [Tree.expr]
      split
      · exact .pure
      · exact leaf_ends reports _ (fun s _ => ⟨_, rfl⟩) valid
    | charClass info members =>
      simp only [Tree.expr]
      split
      · exact .bind (expect_ends reports _ valid) fun _ _ _ _ => .pure
      · exact leaf_ends reports _ (fun s inside => ⟨_, (inside.matchClass _).choose_spec.1⟩) valid
    | any info =>
      simp only [Tree.expr]
      exact leaf_ends reports _ (fun s inside => ⟨_, inside.matchAny.choose_spec.1⟩) valid
    | ruleRef info name =>
      simp only [Tree.expr]
      exact ready name sound.resolves.here w valid (.inr ⟨rfl, .here⟩)
    | sequence info es =>
      simp only [Tree.expr]
      refine .bind (.of_settled Ended.settled_ok) fun start w' _ ended => ?_
      cases ended
      exact .once (row_ends user [] each steps ready reports finish _ scope [] [] w valid
        (Int.le_refl _) (by simp))
    | choice info es =>
      simp only [Tree.expr]
      split
      · exact .pure
      · exact .once (alternatives_ends each steps reports scope w valid fun e he =>
          ready.onward (Int.le_refl _) fun _ name ref => .alternative he ref)
    | labeled info label at? auto body =>
      simp only [Tree.expr]
      exact each body (by simp [Expr.children]) reports none scope w valid
        (ready.onward (Int.le_refl _) fun _ name ref => .labeled ref)
    | unary info operator body =>
      have below : body ∈ (Expr.unary info operator body).children := by simp [Expr.children]
      -- the body ends from here on
      have inner : ∀ v, c.Valid v → w.state.offset ≤ v.state.offset →
          Run.Ends allowed (fun fuel =>
            Tree.expr scene (call fuel) fuel reports none scope body) v :=
        fun v valid forward => each body below reports none scope v valid
          (ready.onward forward fun _ name ref => .unary ref)
      have here := inner w valid (Int.le_refl _)
      have innerSteps := fun fuel => steps body below fuel reports scope
      cases operator with
      | group =>
        simp only [Tree.expr]
        exact here
      | text =>
        simp only [Tree.expr]
        refine .bind (.of_settled Ended.settled_ok) fun start w' _ ended => ?_
        cases ended
        refine .bind here fun out v _ _ => ?_
        cases out with
        | none => exact .pure
        | some _ => exact .bind (.of_settled Ended.settled_ok) fun _ _ _ _ => .pure
      | followedBy =>
        simp only [Tree.expr]
        exact lookahead_ends _ valid (inner _ valid.opened (Int.le_refl _)) innerSteps
      | notFollowedBy =>
        simp only [Tree.expr]
        exact lookahead_ends _ valid (inner _ valid.opened (Int.le_refl _)) innerSteps
      | optional =>
        simp only [Tree.expr]
        exact .bind here fun _ _ _ _ => .pure
      | zeroOrMore =>
        simp only [Tree.expr]
        exact repetition_ends bounds
          (gather_ends bounds inner innerSteps valid (Int.le_refl _) (.inl sound.advances.here))
      | oneOrMore =>
        simp only [Tree.expr]
        exact repetition_ends bounds
          (gather_ends bounds inner innerSteps valid (Int.le_refl _) (.inl sound.advances.here))
    | range info min max body delimiter =>
      obtain ⟨-, greatest, -⟩ := sound.textual.here
      -- a limit, or something is taken in every round
      have progress : scene.admits (.range info min max body delimiter) scope = true →
          (∃ most, Limits scope max most) ∨ scene.grammar.Consumes body ∨
            ∃ separator ∈ delimiter, scene.grammar.Consumes separator := by
        intro admitted
        rcases sound.advances.here with limit | consumes
        · exact (bounded info min max body delimiter scope sound admitted).imp_left
            (exists_limits greatest limit)
        · exact .inr consumes
      have below : body ∈ (Expr.range info min max body delimiter).children := by
        cases delimiter <;> simp [Expr.children]
      have inner : ∀ v, c.Valid v → w.state.offset ≤ v.state.offset →
          Run.Ends allowed (fun fuel =>
            Tree.expr scene (call fuel) fuel reports none scope body) v :=
        fun v valid forward => each body below reports none scope v valid
          (ready.onward forward fun _ name ref => .rangeBody ref)
      have innerSteps := fun fuel => steps body below fuel reports scope
      cases delimiter with
      | none =>
        simp only [Tree.expr]
        refine .entered bounds fun admitted => repetition_ends bounds
          (gather_ends bounds inner innerSteps valid (Int.le_refl _) ?_)
        rcases progress admitted with limit | consumes | ⟨_, none, -⟩
        · exact .inr limit
        · exact .inl consumes
        · cases none
      | some separator =>
        have beside : separator ∈ (Expr.range info min max body (some separator)).children := by
          simp [Expr.children]
        simp only [Tree.expr]
        refine .entered bounds fun admitted => repetition_ends bounds (gather_between_ends bounds inner innerSteps
          (fun v valid which => ?_) (fun fuel => steps separator beside fuel reports scope) valid
          (Int.le_refl _) ?_)
        · refine each separator beside reports none scope v valid ?_
          rcases which with further | ⟨forward, idle⟩
          · exact ready.onward (Int.le_of_lt further) fun same => absurd same (Int.ne_of_lt further)
          · exact ready.onward forward fun _ name ref => .rangeDelimiter idle ref
        · rcases progress admitted with limit | consumes | ⟨_, some, consumes⟩
          · exact .inr limit
          · exact .inl (.inl consumes)
          · cases some
            exact .inl (.inr consumes)
    | named info name body => exact absurd sound.textual.here id
    | action info code at? body =>
      simp only [Tree.expr]
      refine .bind (.of_settled Ended.settled_ok) fun start w' _ ended => ?_
      cases ended
      refine .bind (each body (by simp [Expr.children]) reports (some code) scope w valid
        (ready.onward (Int.le_refl _) fun _ name ref => .action ref)) fun out v _ _ => ?_
      cases out with
      | none => exact .pure
      | some value =>
        simp only
        split
        · exact .pure
        · exact act_ends user _ code _
    | predicate info negative code =>
      simp only [Tree.expr]
      exact .bind (.of_settled Ended.settled_ok) fun _ _ _ _ =>
        .bind (call_ends user true code scope) fun _ _ _ _ => .pure
    | foreign what => exact absurd sound.textual.here id

include user bounds calls judged bounded in
/-- The same for the body of a rule. -/
theorem body_ends {e : Expr} (body : scene.grammar.SoundBody e) :
    c.ExprEnds allowed scene call e := by
  cases body with
  | plain sound => exact expr_ends user bounds calls judged bounded e sound
  | @displayed info name e _ sound =>
    intro reports finish scope w valid ready
    have inner (silent : Bool) (v : World) (valid : c.Valid v)
        (same : v.state.offset = w.state.offset) : Run.Ends allowed (fun fuel =>
          Tree.expr scene (call fuel) fuel silent finish scope e) v :=
      expr_ends user bounds calls judged bounded e sound silent finish scope v valid
        (same ▸ ready.onward (Int.le_refl _) fun _ name ref => .named ref)
    cases reports with
    | false =>
      simp only [Tree.expr]
      exact inner false w valid rfl
    | true =>
      simp only [Tree.expr, if_true]
      refine .bind (expect_ends true _ valid) fun _ v _ ended => ?_
      obtain ⟨noted, same⟩ := expect_steps true _ w valid _ v ended
      refine .bind (.of_settled Ended.settled_ok) fun _ v' _ ended => ?_
      cases ended
      refine .bind (inner false _ (noted.valid.silence _).valid same) fun out u _ _ => ?_
      exact .bind (.of_settled Ended.settled_ok) fun _ _ _ _ => .pure

end Expressions

end Course

namespace Scene

variable {scene : Scene} {allowed : Raise → Prop} {input : Text} {source : Option Text}
  (prepared : scene.grammar.Prepared)
  (length : scene.program.rules.length = scene.grammar.rules.length)
  (user : ∀ f s values raised, scene.meaning f s values = .error raised → allowed raised)
  (bounds : allowed .wrongType) (bounded : scene.Bounded)

include prepared length user bounds bounded in
/-- A rule ends where the calls do that its expression can get to. -/
theorem called_ends {index : Int} {place : Nat} {r : Rule}
    (here : Index.place? scene.grammar.rules.length index = some place)
    (at? : scene.grammar.rules[place]? = some r) {w : World}
    (valid : (scene.course input source).Valid w)
    (ready : (scene.course input source).Ready allowed scene.grammar (Tree.rule scene)
      (scene.grammar.LeftRef · r.body) w.state.offset) :
    Run.Ends allowed (fun fuel => Tree.rule scene fuel index) w := by
  refine .of_succ ?_
  simp only [rule_at here at?]
  cases kept : w.kept? scene.program (Machine.memoKey scene.program place w.state.offset) with
  | some entry =>
    obtain ⟨events, ends⟩ := Tree.go_called_kept place r.name kept
    exact ⟨0, _, Ended.settled_ok, fun fuel _ => ends _⟩
  | none =>
    obtain ⟨before, behind, same⟩ := Tree.go_called_anew place r.name kept
    have noted := ((Course.Follows.refl valid).noted before).valid
    have body := Course.body_ends user bounds (calls_steps prepared length) prepared.judged bounded
      (prepared.soundBody (List.mem_of_getElem? at?)) r.reports none [] _ noted ready
    obtain ⟨enough, ⟨out, after⟩, settled, ends⟩ := body
    cases out with
    | error raised =>
      refine ⟨enough, (.error raised, after), Ended.settled_error (settled _ after rfl),
        fun fuel more => ?_⟩
      rw [same, ends fuel more]
      rfl
    | ok out =>
      exact ⟨enough, _, Ended.settled_ok, fun fuel more => by rw [same, ends fuel more]; rfl⟩

include prepared length user bounds bounded in
/-- Every call of a rule by its name ends. -/
theorem call_ends (left : Nat) (name : Text) (defined : scene.grammar.defines name = true)
    (w : World) (valid : (scene.course input source).Valid w)
    (few : input.length ≤ w.state.offset + left) :
    Run.Ends allowed (fun fuel => Tree.rule scene fuel (scene.grammar.placeOf name)) w := by
  induction left using Nat.strongRecOn generalizing name w with
  | ind left further =>
    induction prepared.accepted.acyclic name generalizing w with
    | intro name _ leftwards =>
      obtain ⟨r, found⟩ := Option.isSome_iff_exists.mp defined
      obtain ⟨i, place, at?⟩ := Grammar.placeOf_spec found
      have here : Index.place? scene.grammar.rules.length (scene.grammar.placeOf name) = some i :=
        place ▸ Index.place?_natCast (List.getElem?_eq_some_iff.mp at?).1
      refine called_ends prepared length user bounds bounded here at? valid
        fun other defined v valid which => ?_
      have upper := valid.upper
      rcases which with more | ⟨same, ref⟩
      · refine further (input.length - v.state.offset).toNat ?_ other defined v valid ?_
        · have : v.state.offset ≤ input.length := upper
          omega
        · omega
      · exact leftwards other ⟨r, found, ref⟩ defined v valid (same ▸ few)

end Scene

end PegCompiler
