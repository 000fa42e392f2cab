import PegCompiler.Proofs.Check.Accepted
import PegCompiler.Proofs.Compile.Preparation
import PegCompiler.Proofs.Run.Course
import PegCompiler.Proofs.Run.Parametric

/-!
Where a run of an expression can get. A failure leaves the position where it was; a match never goes
back, and goes forward where the expression consumes. The verdict of a node is right: what always
matches does not fail, and what never matches does not match. This holds of every run from a world
of the parse whatever user code does, if it holds of the calls of rules (`Course.expr_steps`).
-/

namespace PegCompiler

namespace Grammar

/-- From where to where an expression may get, and with which outcome. -/
def Moves (g : Grammar) (e : Expr) (start : Int) (out : Outcome) (stop : Int) : Prop :=
  match out with
  | none => stop = start ∧ e.verdict ≠ .always
  | some _ => start ≤ stop ∧ (g.Consumes e → start < stop) ∧ e.verdict ≠ .never

/-- What may be for one node may be for another one whose verdict does not say more. -/
theorem Moves.transfer {g : Grammar} {e f : Expr} {start stop : Int} {out : Outcome}
    (moves : g.Moves e start out stop) (verdict : f.verdict = .sometimes ∨ e.verdict = f.verdict)
    (consumes : g.Consumes f → g.Consumes e) : g.Moves f start out stop := by
  cases out with
  | none =>
    refine ⟨moves.1, ?_⟩
    rcases verdict with verdict | verdict
    · simp [verdict]
    · exact verdict ▸ moves.2
  | some _ =>
    refine ⟨moves.1, fun h => moves.2.1 (consumes h), ?_⟩
    rcases verdict with verdict | verdict
    · simp [verdict]
    · exact verdict ▸ moves.2.2

/-- A display name changes nothing. -/
theorem Moves.named {g : Grammar} {info : Info} {name : Text} {e : Expr} {start stop : Int}
    {out : Outcome} (verdict : info.verdict = some e.verdict) (moves : g.Moves e start out stop) :
    g.Moves (.named info name e) start out stop := by
  have same : (Expr.named info name e).verdict = e.verdict := by
    simp [Expr.verdict, Expr.info, verdict]
  refine moves.transfer (.inr same.symm) fun consumes => ?_
  cases consumes with
  | named consumes => exact consumes

end Grammar

/-- As many as the greatest number allows, if that is a constant. -/
def Boundary.Full (max : Boundary) (count : Nat) : Prop :=
  match max with
  | .count n => n ≤ count
  | .label _ => True
  | _ => False

namespace Course

/-- `later` belongs to the same parse, and `moves` relates the two positions and what was given. -/
structure Reaches {α : Type} (c : Course) (w : World) (moves : Int → α → Int → Prop) (a : α)
    (later : World) : Prop where
  follows : c.Follows w later
  moves : moves w.state.offset a later.state.offset

/-- What every run from a world of the parse reaches. -/
def Steps {α : Type} (c : Course) (run : Run α) (moves : Int → α → Int → Prop) : Prop :=
  ∀ w, c.Valid w → run.Yields w (c.Reaches w moves)

variable {c : Course} {g : Grammar} {w : World}

theorem Steps.mono {α : Type} {run : Run α} {moves other : Int → α → Int → Prop}
    (steps : c.Steps run moves) (imp : ∀ s a t, moves s a t → other s a t) : c.Steps run other :=
  fun w valid => (steps w valid).mono fun a _ reaches =>
    ⟨reaches.follows, imp _ a _ reaches.moves⟩

section Leaves

/-- A primitive that advances. -/
theorem matching_steps {primitive : ParserState → Except Raise (Option Text × ParserState)}
    {consuming : Prop} (advances : ∀ s : ParserState, s.Inside →
      ∃ result, primitive s = .ok result ∧ s.Advances consuming result) :
    c.Steps (Tree.matching primitive) fun s out t =>
      (out = none → t = s) ∧ s ≤ t ∧ (out ≠ none → consuming → s < t) := by
  intro w valid out later ended
  obtain ⟨⟨matched, after⟩, found, advances⟩ := advances w.state valid.state.toInside
  simp only [Tree.go_matching, found, Prod.mk.injEq, Except.ok.injEq] at ended
  obtain ⟨rfl, rfl⟩ := ended
  cases matched with
  | none =>
    obtain rfl : after = w.state := advances
    exact ⟨.refl valid, by simp⟩
  | some t =>
    obtain ⟨n, rfl, inside, positive⟩ := advances
    refine ⟨valid.advance inside, by simp, ?_, fun _ consuming => ?_⟩
    · change w.state.offset ≤ w.state.offset + n
      omega
    · have := positive consuming
      change w.state.offset < w.state.offset + n
      omega

theorem expect_steps (reports : Bool) (entry : Entry) :
    c.Steps (Tree.expect reports entry) fun s _ t => t = s := by
  intro w valid out later ended
  rw [Tree.go_expect] at ended
  cases reports with
  | false =>
    cases ended
    exact ⟨.refl valid, rfl⟩
  | true =>
    obtain ⟨s, found, offset, follows⟩ := valid.expect entry
    simp only [if_true, found] at ended
    cases ended
    exact ⟨follows, offset⟩

/-- A range, where only some are entered. -/
theorem Steps.entered {run : Run Outcome} {moves : Int → Outcome → Int → Prop} {admitted : Prop}
    [Decidable admitted] (steps : c.Steps run moves) :
    c.Steps (if admitted then run else throw .wrongType) moves := by
  split
  · exact steps
  · exact fun w _ => .throw

/-- What is run behind noting what is expected. -/
theorem Steps.expected {α : Type} {run : Run α} {moves : Int → α → Int → Prop}
    (steps : c.Steps run moves) (reports : Bool) (entry : Entry) :
    c.Steps (do Tree.expect reports entry; run) moves := by
  intro w valid
  refine .bind fun _ v ended => ?_
  obtain ⟨noted, same⟩ := expect_steps reports entry w valid _ v ended
  exact (steps v noted.valid).mono fun a later reaches =>
    ⟨noted.trans reaches.follows, same ▸ reaches.moves⟩

theorem Steps.silently {run : Run Outcome} {moves : Int → Outcome → Int → Prop}
    (steps : c.Steps run moves) : c.Steps (Tree.silently run) moves := by
  intro w valid
  refine .bind fun _ v ended => ?_
  cases ended
  have silent := valid.silence (w.state.silence + 1)
  refine .bind fun out u ended => ?_
  obtain ⟨follows, reached⟩ := steps _ silent.valid out u ended
  refine .bind fun _ u' ended => ?_
  cases ended
  exact .pure ⟨silent.trans (follows.trans (follows.valid.silence (u.state.silence - 1))), reached⟩

/-- A leaf that may match or not, and consumes if it matches. -/
theorem leaf_steps (reports : Bool) (entry : Entry)
    {primitive : ParserState → Except Raise (Option Text × ParserState)}
    (advances : ∀ s : ParserState, s.Inside →
      ∃ result, primitive s = .ok result ∧ s.Advances True result)
    {e : Expr} (verdict : e.verdict = .sometimes) :
    c.Steps (do Tree.expect reports entry; Tree.matching primitive) (g.Moves e) := by
  intro w valid
  refine .bind fun _ v ended => ?_
  obtain ⟨follows, same⟩ := expect_steps reports entry w valid _ v ended
  refine (matching_steps advances v follows.valid).mono fun out later reaches => ?_
  obtain ⟨further, back, -, onward⟩ := reaches
  refine ⟨follows.trans further, ?_⟩
  rw [← same]
  cases out with
  | none => exact ⟨back rfl, by simp [verdict]⟩
  | some _ =>
    have := onward (by simp) trivial
    exact ⟨by omega, fun _ => this, by simp [verdict]⟩

theorem act_steps (scene : Scene) (start : Int) (body : Text) (scope : Scope) :
    c.Steps (Tree.act scene start body scope) fun s out t => out ≠ none ∧ t = s := by
  intro w valid
  refine .bind fun _ later ended => ?_
  cases ended
  refine .bind fun value later ended => ?_
  rw [Tree.go_call] at ended
  obtain ⟨-, rfl⟩ := Prod.mk.inj ended
  exact .pure ⟨valid.mark start, by simp, rfl⟩

theorem reached_steps (scope : Scope) (max : Boundary) (count : Nat) :
    (Tree.reached scope max count).Yields w fun enough later =>
      later = w ∧ (enough → max.Full count) := by
  unfold Tree.reached
  split
  · refine .pure ⟨rfl, fun enough => ?_⟩
    simpa [Boundary.Full] using enough
  · refine .bind fun n later ended => ?_
    rw [Tree.go_boundOf] at ended
    split at ended
    · cases ended
      exact .pure ⟨rfl, fun _ => trivial⟩
    · cases ended
  · exact .pure ⟨rfl, fun enough => by cases enough⟩

theorem fewer_steps (scope : Scope) (min : Boundary) (count : Nat) :
    (Tree.fewer scope min count).Yields w fun missing later =>
      later = w ∧ ∀ n, min = .count n → missing = decide (count < n) := by
  unfold Tree.fewer
  split
  · refine .pure ⟨rfl, fun n same => ?_⟩
    cases same
    rfl
  · refine .bind fun n later ended => ?_
    rw [Tree.go_boundOf] at ended
    split at ended
    · cases ended
      exact .pure ⟨rfl, fun _ same => by cases same⟩
    · cases ended
  · rename_i notCount _
    exact .pure ⟨rfl, fun n same => absurd same (notCount n)⟩

end Leaves

section Loops

variable {e d : Expr} {element separator : Run Outcome} (scope : Scope) (max : Boundary)

/-- Collecting never goes back. It ends when there is enough or the element fails. -/
theorem collect_steps (each : c.Steps element (g.Moves e)) (rounds : Nat) (items : List Value) :
    c.Steps (Tree.collect (Tree.reached scope max) element rounds items) fun s all t =>
      s ≤ t ∧ (max.Full all.length ∨ e.verdict ≠ .always) ∧ items.length ≤ all.length ∧
      (items.length < all.length → e.verdict ≠ .never ∧ (g.Consumes e → s < t)) := by
  induction rounds generalizing items with
  | zero => exact fun w _ => .throw
  | succ rounds ih =>
    intro w valid
    rw [Tree.collect]
    refine .bind fun enough w' ended => ?_
    obtain ⟨rfl, full⟩ := reached_steps scope max items.length enough w' ended
    cases enough with
    | true => exact .pure ⟨.refl valid, by omega, .inl (full rfl), by omega, by omega⟩
    | false =>
      refine .bind fun out v ended => ?_
      obtain ⟨follows, moves⟩ := each w' valid out v ended
      cases out with
      | none => exact .pure ⟨follows, Int.le_of_eq moves.1.symm, .inr moves.2, by omega, by omega⟩
      | some item =>
        refine (ih (items ++ [item]) v follows.valid).mono fun all u reaches => ?_
        obtain ⟨later, forward, why, more, _⟩ := reaches
        obtain ⟨onward, consumes, possible⟩ := moves
        simp only [List.length_append, List.length_singleton] at more
        exact ⟨follows.trans later, by omega, why, by omega,
          fun _ => ⟨possible, fun h => by have := consumes h; omega⟩⟩

/-- The same with a delimiter. Where the element behind a delimiter fails, the delimiter is given
back. -/
theorem separate_steps (each : c.Steps element (g.Moves e)) (between : c.Steps separator (g.Moves d))
    (rounds : Nat) (start : Int) (items : List Value) (w : World) (valid : c.Valid w)
    (lower : 0 ≤ start) (before : start ≤ w.state.offset) :
    (Tree.separate (Tree.reached scope max) element separator rounds start items).Yields w
      (c.Reaches w fun s all t => start ≤ t ∧
        (max.Full all.length ∨ e.verdict ≠ .always ∨ 0 < all.length ∧ d.verdict ≠ .always) ∧
        items.length ≤ all.length ∧
        (items.length < all.length → e.verdict ≠ .never ∧ s ≤ t ∧ (g.Consumes e → s < t)) ∧
        (items.length + 1 < all.length → d.verdict ≠ .never ∧ (g.Consumes d → s < t))) := by
  induction rounds generalizing start items w with
  | zero => exact .throw
  | succ rounds ih =>
    rw [Tree.separate]
    refine .bind fun out v ended => ?_
    obtain ⟨follows, moves⟩ := each w valid out v ended
    cases out with
    | none =>
      refine .bind fun _ u ended => ?_
      cases ended
      have upper := valid.upper
      have back := follows.valid.goTo lower (by omega)
      exact .pure ⟨follows.trans back, Int.le_refl _, .inr (.inl moves.2), by omega, by omega,
        by omega⟩
    | some item =>
      obtain ⟨onward, consumes, possible⟩ := moves
      refine .bind fun enough v' ended => ?_
      obtain ⟨rfl, full⟩ := reached_steps scope max (items.length + 1) enough v' ended
      have length : (items ++ [item]).length = items.length + 1 := by simp
      cases enough with
      | true =>
        refine .pure ⟨follows, by omega, .inl (length ▸ full rfl), by omega, fun _ => ?_, by omega⟩
        exact ⟨possible, by omega, consumes⟩
      | false =>
        refine .bind fun start' v'' ended => ?_
        cases ended
        refine .bind fun out u ended => ?_
        obtain ⟨further, moves⟩ := between v' follows.valid out u ended
        cases out with
        | none =>
          have back : u.state.offset = v'.state.offset := moves.1
          refine .pure ⟨follows.trans further, by omega, .inr (.inr ⟨by omega, moves.2⟩), by omega,
            fun _ => ?_, by omega⟩
          exact ⟨possible, by omega, fun h => by have := consumes h; omega⟩
        | some _ =>
          obtain ⟨onward', consumes', possible'⟩ := moves
          have natural := follows.valid.state.lower
          refine (ih v'.state.offset (items ++ [item]) u further.valid natural onward').mono
            fun all z reaches => ?_
          obtain ⟨later, forward, why, more, first, _⟩ := reaches
          rw [length] at more
          refine ⟨(follows.trans further).trans later, by omega, why, by omega, fun _ => ?_,
            fun many => ?_⟩
          · exact ⟨possible, by omega, fun h => by have := consumes h; omega⟩
          · obtain ⟨-, ahead, -⟩ := first (by omega)
            exact ⟨possible', fun h => by have := consumes' h; omega⟩

/-- What a repetition has collected, whether or not it has a delimiter. -/
structure Gathered (g : Grammar) (max : Boundary) (e : Expr) (d : Option Expr) (start : Int)
    (all : List Value) (stop : Int) : Prop where
  forward : start ≤ stop
  full : max.Full all.length ∨ e.verdict ≠ .always ∨
    0 < all.length ∧ ∃ separator ∈ d, separator.verdict ≠ .always
  some : 0 < all.length → e.verdict ≠ .never ∧ (g.Consumes e → start < stop)
  several : 1 < all.length → ∀ separator ∈ d,
    separator.verdict ≠ .never ∧ (g.Consumes separator → start < stop)

theorem gather_steps (each : c.Steps element (g.Moves e)) (rounds : Nat) :
    c.Steps (Tree.gather rounds scope max element none) (Gathered g max e none) := by
  refine (collect_steps scope max each rounds []).mono fun s all t collected => ?_
  obtain ⟨forward, full, -, some⟩ := collected
  exact ⟨forward, full.imp_right .inl, some, by simp⟩

theorem gather_between_steps (each : c.Steps element (g.Moves e))
    (between : c.Steps separator (g.Moves d)) (rounds : Nat) :
    c.Steps (Tree.gather rounds scope max element (some separator)) (Gathered g max e (some d)) := by
  intro w valid
  cases rounds with
  | zero => exact .throw
  | succ rounds =>
    refine .bind fun enough w' ended => ?_
    obtain ⟨rfl, full⟩ := reached_steps scope max 0 enough w' ended
    cases enough with
    | true => exact .pure ⟨.refl valid, ⟨Int.le_refl _, .inl (full rfl), by simp, by simp⟩⟩
    | false =>
      refine .bind fun start w'' ended => ?_
      cases ended
      have lower := valid.state.lower
      refine (separate_steps scope max each between (rounds + 1) w'.state.offset [] w' valid lower
        (Int.le_refl _)).mono fun all later reaches => ?_
      obtain ⟨follows, forward, full, -, some, several⟩ := reaches
      refine ⟨follows, forward, ?_, fun h => ?_, fun h separator same => ?_⟩
      · exact full.imp_right (Or.imp_right fun h => ⟨h.1, d, rfl, h.2⟩)
      · exact ⟨(some h).1, (some h).2.2⟩
      · cases same
        exact several (by simpa using h)

section Ranges

variable {max} {min : Boundary} {body : Expr} {delimiter : Option Expr} {s stop : Int}
  {all : List Value}

/-- What has collected too little did not always have to match. -/
theorem Gathered.not_always (gathered : Gathered g max body delimiter s all stop)
    (least : min.IsLeast) (greatest : max.IsGreatest) (ordered : min.Ordered max)
    (counts : ∀ n, min = .count n → (all.length : Int) < n) :
    Verdict.ofRange min max body.verdict (delimiter.map Expr.verdict) ≠ .always := by
  intro always
  obtain open' | ⟨n, rfl, natural, bound, which⟩ :=
    Verdict.ofRange_cases (v := body.verdict) (d := delimiter.map Expr.verdict) least greatest
  · rw [always] at open'
    cases open'
  have few := counts n rfl
  have fails : body.verdict ≠ .always ∨
      0 < all.length ∧ ∃ separator ∈ delimiter, separator.verdict ≠ .always := by
    refine gathered.full.resolve_left fun full => ?_
    rcases bound with rfl | ⟨k, rfl⟩
    · exact full
    · have : k ≤ all.length := full
      have : n ≤ k := ordered
      omega
  rcases which with ⟨rfl, -⟩ | ⟨-, one, same⟩ | ⟨-, between, found, same⟩
  · omega
  · rcases fails with fails | ⟨some, separator, found, -⟩
    · exact fails (same.symm.trans always)
    · rcases one with none | rfl
      · cases found
        cases none
      · omega
  · have each := Verdict.inOrder_eq_always (same.symm.trans always)
    simp only [List.mem_cons, List.not_mem_nil, or_false, forall_eq_or_imp, forall_eq] at each
    rcases fails with fails | ⟨-, separator, found', fails⟩
    · exact fails each.1
    · cases found'
      cases found
      exact fails each.2

/-- What has collected enough could match. -/
theorem Gathered.not_never (gathered : Gathered g max body delimiter s all stop)
    (least : min.IsLeast) (greatest : max.IsGreatest)
    (counts : ∀ n, min = .count n → n ≤ all.length) :
    Verdict.ofRange min max body.verdict (delimiter.map Expr.verdict) ≠ .never := by
  intro never
  obtain open' | ⟨n, rfl, natural, bound, which⟩ :=
    Verdict.ofRange_cases (v := body.verdict) (d := delimiter.map Expr.verdict) least greatest
  · rw [never] at open'
    cases open'
  have enough := counts n rfl
  rcases which with ⟨-, same⟩ | ⟨positive, -, same⟩ | ⟨several, between, found, same⟩
  · rw [never] at same
    cases same
  · exact (gathered.some (by omega)).1 (same.symm.trans never)
  · obtain ⟨separator, here, rfl⟩ := Option.map_eq_some_iff.mp found
    have which := Verdict.inOrder_eq_never (same.symm.trans never)
    simp only [List.mem_cons, List.not_mem_nil, or_false] at which
    rcases which with which | which
    · exact (gathered.some (by omega)).1 which.symm
    · exact (gathered.several (by omega) separator here).1 which.symm

/-- What has collected enough has consumed if it had to. -/
theorem Gathered.consumed {info : Info} (gathered : Gathered g max body delimiter s all stop)
    (counts : ∀ n, min = .count n → n ≤ all.length)
    (consumes : g.Consumes (.range info min max body delimiter)) : s < stop := by
  cases consumes with
  | rangeBody positive consumes =>
    have := counts _ rfl
    exact (gathered.some (by omega)).2 consumes
  | rangeDelimiter several consumes =>
    have := counts _ rfl
    exact (gathered.several (by omega) _ rfl).2 consumes

end Ranges

/-- A repetition goes back where it has not collected enough. -/
theorem repetition_steps {rounds : Nat} {run : Option (Run Outcome)} {separator : Option Expr}
    (min : Boundary)
    (gathers : c.Steps (Tree.gather rounds scope max element run) (Gathered g max e separator)) :
    c.Steps (Tree.repetition rounds scope min max element run) fun s out t =>
      (out = none → t = s) ∧ ∃ (all : List Value) (stop : Int), Gathered g max e separator s all stop ∧
        (∀ n, min = .count n → (out = none ↔ (all.length : Int) < n)) ∧ (out ≠ none → t = stop) := by
  intro w valid
  refine .bind fun start w' ended => ?_
  cases ended
  refine .bind fun all v ended => ?_
  obtain ⟨follows, gathered⟩ := gathers w valid all v ended
  refine .bind fun missing v' ended => ?_
  obtain ⟨rfl, counts⟩ := fewer_steps scope min all.length missing v' ended
  cases missing with
  | true =>
    refine .bind fun _ u ended => ?_
    cases ended
    have back := follows.valid.goTo valid.state.lower valid.upper
    refine .pure ⟨follows.trans back, fun _ => rfl, all, _, gathered, fun n same => ?_, by simp⟩
    simpa using counts n same
  | false =>
    refine .pure ⟨follows, by simp, all, _, gathered, fun n same => ?_, fun _ => rfl⟩
    simpa using counts n same

end Loops

theorem Valid.opened (valid : c.Valid w) : c.Valid (w.change (·.openRecord)) := by
  refine valid.withState ⟨⟨valid.state.lower, valid.state.upper⟩, valid.state.input,
    valid.state.source, ?_⟩
  simp [ParserState.openRecord]

/-- A record that was opened is closed, and there is one around it. -/
theorem Follows.closes {v : World} (follows : c.Follows (w.change (·.openRecord)) v)
    (valid : c.Valid w) (negative : Bool) :
    ∃ u, Run.go (Tree.closeRecord negative) v = (.ok ⟨⟩, u) ∧ c.Follows w u ∧
      u.state.offset = v.state.offset := by
  have depth : v.state.records.length = w.state.records.length + 1 := follows.depth
  obtain ⟨inner, record, outer, records⟩ : ∃ inner record outer,
      v.state.records = inner :: record :: outer := by
    have some := List.length_pos_iff.mpr valid.state.records
    match h : v.state.records with
    | [] | [_] =>
      rw [h] at depth
      simp only [List.length_nil, List.length_cons] at depth
      omega
    | inner :: record :: outer => exact ⟨inner, record, outer, rfl⟩
  refine ⟨{ v with state := { v.state with records := record.absorb inner negative :: outer } }, ?_,
    ⟨follows.valid.withState ⟨⟨follows.valid.state.lower, follows.valid.state.upper⟩,
      follows.valid.state.input, follows.valid.state.source, by simp⟩, ?_⟩, rfl⟩
  · simp only [Tree.go_closeRecord, ParserState.closeRecord, records]
  · rw [records] at depth
    simpa using depth

/-- Looking ahead does not move, and closes the record that it opened. -/
theorem lookahead_steps {e : Expr} {body : Run Outcome} (negative : Bool)
    (steps : c.Steps body (g.Moves e)) :
    c.Steps (Tree.lookahead negative body) fun s out t => t = s ∧
      (out = none → e.verdict ≠ if negative then .never else .always) ∧
      (out ≠ none → e.verdict ≠ if negative then .always else .never) := by
  intro w valid
  refine .bind fun start w' ended => ?_
  cases ended
  refine .bind fun _ opened ended => ?_
  cases ended
  refine .bind fun out v ended => ?_
  obtain ⟨follows, moves⟩ := steps _ valid.opened out v ended
  refine .bind fun _ u ended => ?_
  obtain ⟨u', closes, closed, place⟩ := follows.closes valid negative
  rw [closes] at ended
  cases ended
  cases out with
  | none =>
    have back : v.state.offset = w.state.offset := moves.1
    refine .pure ⟨closed, place.trans back, ?_⟩
    have notAlways := moves.2
    cases negative <;> simp [notAlways]
  | some _ =>
    obtain ⟨-, -, notNever⟩ := moves
    refine .bind fun _ z ended => ?_
    cases ended
    have back := closed.valid.goTo valid.state.lower valid.upper
    refine .pure ⟨closed.trans back, rfl, ?_⟩
    cases negative <;> simp [notNever]

section Expressions

variable {scene : Scene} {callRule : Int → Run Outcome} {rounds : Nat}

/-- What is left of a sequence that began at `start`. -/
theorem row_steps {es : List Expr} (reports : Bool) (finish : Option Text) (start : Int)
    (each : ∀ e ∈ es, ∀ scope,
      c.Steps (Tree.expr scene callRule rounds reports none scope e) (g.Moves e))
    (scope : Scope) (autos values : List Value) (w : World) (valid : c.Valid w) (lower : 0 ≤ start)
    (before : start ≤ w.state.offset) :
    (Tree.row scene callRule rounds reports finish start scope autos values es).Yields w
      (c.Reaches w fun s out t => match out with
        | none => t = start ∧ ∃ e ∈ es, e.verdict ≠ .always
        | some _ => s ≤ t ∧ ((∃ e ∈ es, g.Consumes e) → s < t) ∧ ∀ e ∈ es, e.verdict ≠ .never) := by
  induction es generalizing scope autos values w with
  | nil =>
    cases finish with
    | none => exact .pure ⟨.refl valid, Int.le_refl _, by simp, by simp⟩
    | some code =>
      refine (act_steps scene start code scope w valid).mono fun out later reaches => ?_
      obtain ⟨follows, some, same⟩ := reaches
      cases out with
      | none => exact absurd rfl some
      | some value => exact ⟨follows, Int.le_of_eq same.symm, by simp, by simp⟩
  | cons e rest ih =>
    rw [Tree.row]
    refine .bind fun out v ended => ?_
    obtain ⟨follows, moves⟩ := each e (by simp) scope w valid out v ended
    cases out with
    | none =>
      refine .bind fun _ u ended => ?_
      cases ended
      have upper := valid.upper
      have back := follows.valid.goTo lower (by omega)
      exact .pure ⟨follows.trans back, rfl, e, by simp, moves.2⟩
    | some value =>
      obtain ⟨onward, consumes, possible⟩ := moves
      refine (ih (fun e he => each e (by simp [he])) _ _ _ v follows.valid (by omega)).mono
        fun out u reaches => ?_
      obtain ⟨later, reached⟩ := reaches
      refine ⟨follows.trans later, ?_⟩
      cases out with
      | none =>
        obtain ⟨back, e, he, notAlways⟩ := reached
        exact ⟨back, e, by simp [he], notAlways⟩
      | some _ =>
        obtain ⟨forward, more, others⟩ := reached
        refine ⟨by omega, ?_, by simpa [possible] using others⟩
        rintro ⟨e', he', h⟩
        rcases List.mem_cons.mp he' with rfl | he'
        · have := consumes h
          omega
        · have := more ⟨e', he', h⟩
          omega

theorem alternatives_steps {es : List Expr} (reports : Bool) (scope : Scope)
    (each : ∀ e ∈ es, c.Steps (Tree.expr scene callRule rounds reports none scope e) (g.Moves e)) :
    c.Steps (Tree.alternatives scene callRule rounds reports scope es) fun s out t =>
      match out with
      | none => t = s ∧ ∀ e ∈ es, e.verdict ≠ .always
      | some _ => s ≤ t ∧ ((∀ e ∈ es, g.Consumes e) → s < t) ∧ ∃ e ∈ es, e.verdict ≠ .never := by
  induction es with
  | nil => exact fun w valid => .pure ⟨.refl valid, rfl, by simp⟩
  | cons e rest ih =>
    have others := ih fun e he => each e (by simp [he])
    intro w valid
    rw [Tree.alternatives]
    split
    · rename_i pruned
      refine (others w valid).mono fun out later reaches => ?_
      obtain ⟨follows, reached⟩ := reaches
      refine ⟨follows, ?_⟩
      simp only [Bool.and_eq_true, decide_eq_true_eq] at pruned
      cases out with
      | none => exact ⟨reached.1, by simpa [pruned.2] using reached.2⟩
      | some _ =>
        obtain ⟨forward, more, e', he', possible⟩ := reached
        exact ⟨forward, fun all => more fun e he => all e (by simp [he]), e', by simp [he'], possible⟩
    · refine .bind fun out v ended => ?_
      obtain ⟨follows, moves⟩ := each e (by simp) w valid out v ended
      cases out with
      | some value =>
        obtain ⟨onward, consumes, possible⟩ := moves
        exact .pure ⟨follows, onward, fun all => consumes (all e (by simp)), e, by simp, possible⟩
      | none =>
        obtain ⟨back, notAlways⟩ := moves
        refine (others v follows.valid).mono fun out u reaches => ?_
        obtain ⟨later, reached⟩ := reaches
        refine ⟨follows.trans later, ?_⟩
        rw [← back]
        cases out with
        | none => exact ⟨reached.1, by simpa [notAlways] using reached.2⟩
        | some _ =>
          obtain ⟨forward, more, e', he', possible⟩ := reached
          exact ⟨forward, fun all => more fun e he => all e (by simp [he]), e', by simp [he'],
            possible⟩

variable (calls : ∀ name r, scene.grammar.find? name = some r →
    c.Steps (callRule (scene.grammar.placeOf name)) (scene.grammar.Moves r.body))
  (judged : scene.grammar.Judged)

include calls judged in
/-- Every run of an expression gets where it may. -/
theorem expr_steps (e : Expr) : scene.grammar.Sound e → ∀ reports finish scope,
    c.Steps (Tree.expr scene callRule rounds reports finish scope e) (scene.grammar.Moves e) := by
  induction e using Expr.byChildren with
  | node e ih =>
    intro sound reports finish scope
    have each : ∀ b ∈ e.children, ∀ reports finish scope,
        c.Steps (Tree.expr scene callRule rounds reports finish scope b) (scene.grammar.Moves b) :=
      fun b hb => ih b hb (sound.child hb)
    have verdict := sound.verdict
    cases e with
    | literal info value ignoreCase =>
      have verdict := verdict (by simp)
      rw [Tree.expr]
      split
      · rename_i empty
        refine fun w valid => .pure ⟨.refl valid, Int.le_refl _, fun consumes => ?_, ?_⟩
        · cases consumes with
          | literal nonempty => exact absurd (List.isEmpty_iff.mp empty) nonempty
        · simp [verdict, Expr.conclusion, empty]
      · rename_i nonempty
        have nonempty' : value ≠ [] := by simpa using nonempty
        refine leaf_steps reports _ (fun s inside => ⟨_, rfl, ?_⟩) ?_
        · split
          · have := inside.matchLowercase value.lowercase
            simpa [Text.lowercase_eq_nil_iff, nonempty'] using this
          · simpa [nonempty'] using inside.matchLiteral value
        · simp [verdict, Expr.conclusion, nonempty]
    | charClass info members =>
      have verdict := verdict (by simp)
      rw [Tree.expr]
      by_cases empty : members.parts.isEmpty
      · intro w valid
        refine .bind fun _ v ended => ?_
        obtain ⟨follows, same⟩ := expect_steps reports _ w valid _ v ended
        rw [if_pos empty]
        exact .pure ⟨follows, same, by simp [verdict, Expr.conclusion, empty]⟩
      · simp only [empty]
        refine leaf_steps reports _ (fun s inside => inside.matchClass _) ?_
        simp [verdict, Expr.conclusion, empty]
    | any info =>
      rw [Tree.expr]
      exact leaf_steps reports _ (fun s inside => inside.matchAny) (verdict (by simp))
    | ruleRef info name =>
      obtain ⟨r, found⟩ := Option.isSome_iff_exists.mp
        (show (scene.grammar.find? name).isSome from sound.resolves.here)
      obtain ⟨v, here, known⟩ := sound.judged.here
      obtain ⟨v', settled, open', -⟩ := judged r (List.mem_of_find?_eq_some found)
      have same : v = .sometimes ∨ r.body.verdict = v := by
        rcases known with unknown | known
        · exact .inl unknown
        · rw [Grammar.known, found, Option.bind_some, settled] at known
          cases known
          exact open'.imp_right fun body => by simp [Expr.verdict, body]
      have verdict : (Expr.ruleRef info name).verdict = v := by
        simp only [Expr.verdict, show (Expr.ruleRef info name).info.verdict = some v from here,
          Option.getD_some]
      rw [Tree.expr]
      refine (calls name r found).mono fun s out t moves =>
        moves.transfer (verdict ▸ same) fun consumes => ?_
      cases consumes with
      | ruleRef found' consumes =>
        rw [found] at found'
        cases found'
        exact consumes
    | sequence info es =>
      intro w valid
      rw [Tree.expr]
      refine .bind fun start w' ended => ?_
      cases ended
      cases rounds with
      | zero => exact .throw
      | succ rounds =>
        have each := fun e he scope => each e he reports none scope
        refine (row_steps reports finish w.state.offset each scope [] [] w valid
          valid.state.lower (Int.le_refl _)).mono fun out later reaches => ?_
        obtain ⟨follows, reached⟩ := reaches
        refine ⟨follows, ?_⟩
        have verdict := verdict (by simp)
        cases out with
        | none =>
          obtain ⟨back, e, he, notAlways⟩ := reached
          refine ⟨back, fun always => notAlways ?_⟩
          exact Verdict.inOrder_eq_always (verdict.symm.trans always) _ (List.mem_map_of_mem he)
        | some _ =>
          obtain ⟨forward, more, possible⟩ := reached
          refine ⟨forward, fun consumes => ?_, fun never => ?_⟩
          · cases consumes with
            | sequence he consumes => exact more ⟨_, he, consumes⟩
          · obtain ⟨e, he, same⟩ := List.mem_map.mp (Verdict.inOrder_eq_never (verdict.symm.trans never))
            exact possible e he same
    | choice info es =>
      have verdict := verdict (by simp)
      have nonempty : es ≠ [] := sound.textual.here
      rw [Tree.expr]
      split
      · rename_i pruned
        simp only [Bool.and_eq_true, decide_eq_true_eq] at pruned
        refine fun w valid => .pure ⟨.refl valid, rfl, ?_⟩
        simp [Expr.verdict, Expr.info, pruned.2]
      · cases rounds with
        | zero => exact fun w _ => .throw
        | succ rounds =>
          refine (alternatives_steps reports scope fun e he => each e he reports none scope).mono
            fun s out t reached => ?_
          cases out with
          | none =>
            obtain ⟨back, others⟩ := reached
            refine ⟨back, fun always => ?_⟩
            obtain ⟨e, he⟩ := List.exists_mem_of_ne_nil es nonempty
            exact others e he
              (Verdict.apart_eq_always (verdict.symm.trans always) _ (List.mem_map_of_mem he))
          | some _ =>
            obtain ⟨forward, more, e, he, possible⟩ := reached
            refine ⟨forward, fun consumes => ?_, fun never => possible ?_⟩
            · cases consumes with
              | choice all => exact more all
            · exact Verdict.apart_eq_never (verdict.symm.trans never) _ (List.mem_map_of_mem he)
    | labeled info label at? auto body =>
      rw [Tree.expr]
      refine (each body (by simp [Expr.children]) reports none scope).mono fun s out t moves =>
        moves.transfer (.inr (verdict (by simp)).symm) fun consumes => ?_
      cases consumes with
      | labeled consumes => exact consumes
    | unary info operator body =>
      have below : body ∈ (Expr.unary info operator body).children := by simp [Expr.children]
      have inner := each body below reports none scope
      have verdict := verdict (by simp)
      have idle {s t : Int} : operator.handsOn = false →
          scene.grammar.Consumes (.unary info operator body) → s < t := by
        intro not consumes
        cases consumes with
        | unary handsOn => simp [not] at handsOn
      cases operator with
      | group =>
        rw [Tree.expr]
        refine inner.mono fun s out t moves => moves.transfer (.inr verdict.symm) fun consumes => ?_
        cases consumes with
        | unary _ consumes => exact consumes
      | text =>
        intro w valid
        rw [Tree.expr]
        refine .bind fun start w' ended => ?_
        cases ended
        refine .bind fun out v ended => ?_
        obtain ⟨follows, moves⟩ := inner w valid out v ended
        have moves := moves.transfer (f := .unary info .text body) (.inr verdict.symm)
          fun consumes => by cases consumes with | unary _ consumes => exact consumes
        cases out with
        | none => exact .pure ⟨follows, moves⟩
        | some value =>
          refine .bind fun s v' ended => ?_
          cases ended
          exact .pure ⟨follows, moves⟩
      | followedBy =>
        rw [Tree.expr]
        refine (lookahead_steps false inner).mono fun s out t reached => ?_
        obtain ⟨rfl, failed, matched⟩ := reached
        cases out with
        | none => exact ⟨rfl, verdict ▸ failed rfl⟩
        | some _ => exact ⟨Int.le_refl _, idle rfl, verdict ▸ matched (by simp)⟩
      | notFollowedBy =>
        rw [Tree.expr]
        refine (lookahead_steps true inner).mono fun s out t reached => ?_
        obtain ⟨rfl, failed, matched⟩ := reached
        have turned : (Expr.unary info .notFollowedBy body).verdict = body.verdict.neg := verdict
        cases out with
        | none =>
          refine ⟨rfl, ?_⟩
          rw [turned, ne_eq, Verdict.neg_eq_always_iff]
          exact failed rfl
        | some _ =>
          refine ⟨Int.le_refl _, idle rfl, ?_⟩
          rw [turned, ne_eq, Verdict.neg_eq_never_iff]
          exact matched (by simp)
      | optional =>
        intro w valid
        rw [Tree.expr]
        refine .bind fun out v ended => ?_
        obtain ⟨follows, moves⟩ := inner w valid out v ended
        refine .pure ⟨follows, ?_, idle rfl, by simp [verdict, Expr.conclusion, Verdict.ofOperator]⟩
        cases out with
        | none => exact Int.le_of_eq moves.1.symm
        | some _ => exact moves.1
      | zeroOrMore =>
        rw [Tree.expr]
        refine (repetition_steps scope _ (.count 0) (gather_steps scope _ inner rounds)).mono
          fun s out t reached => ?_
        obtain ⟨back, all, stop, gathered, counts, on⟩ := reached
        have counts := counts 0 rfl
        cases out with
        | none =>
          have := counts.mp rfl
          omega
        | some _ =>
          rw [on (by simp)]
          refine ⟨gathered.forward, idle rfl, ?_⟩
          simp [verdict, Expr.conclusion, Verdict.ofOperator]
      | oneOrMore =>
        rw [Tree.expr]
        refine (repetition_steps scope _ (.count 1) (gather_steps scope _ inner rounds)).mono
          fun s out t reached => ?_
        obtain ⟨back, all, stop, gathered, counts, on⟩ := reached
        have verdict : (Expr.unary info .oneOrMore body).verdict =
          .ofRange (.count 1) .unbounded body.verdict ((none : Option Expr).map Expr.verdict) := verdict
        have counts := counts 1 rfl
        cases out with
        | none =>
          refine ⟨back rfl, verdict ▸ gathered.not_always (Int.zero_le_ofNat 1) trivial trivial ?_⟩
          rintro n ⟨⟩
          exact counts.mp rfl
        | some _ =>
          have enough : ¬(all.length : Int) < 1 := fun few => by cases counts.mpr few
          rw [on (by simp)]
          refine ⟨gathered.forward, fun consumes => ?_,
            verdict ▸ gathered.not_never (Int.zero_le_ofNat 1) trivial ?_⟩
          · cases consumes with
            | unary _ consumes => exact (gathered.some (by omega)).2 consumes
          · rintro n ⟨⟩
            omega
    | range info min max body delimiter =>
      have verdict := verdict (by simp)
      obtain ⟨least, greatest, ordered⟩ := sound.textual.here
      have below : body ∈ (Expr.range info min max body delimiter).children := by
        cases delimiter <;> simp [Expr.children]
      have inner := each body below reports none scope
      have steps : c.Steps (Tree.expr scene callRule rounds reports finish scope
          (.range info min max body delimiter)) fun s out t => (out = none → t = s) ∧
            ∃ (all : List Value) (stop : Int), Gathered scene.grammar max body delimiter s all stop ∧
              (∀ n, min = .count n → (out = none ↔ (all.length : Int) < n)) ∧
              (out ≠ none → t = stop) := by
        cases delimiter with
        | none =>
          rw [Tree.expr]
          exact .entered (repetition_steps scope max min (gather_steps scope max inner rounds))
        | some separator =>
          have between := each separator (by simp [Expr.children]) reports none scope
          rw [Tree.expr]
          exact .entered
            (repetition_steps scope max min (gather_between_steps scope max inner between rounds))
      refine steps.mono fun s out t reached => ?_
      obtain ⟨back, all, stop, gathered, counts, on⟩ := reached
      cases out with
      | none =>
        refine ⟨back rfl, verdict ▸ gathered.not_always least greatest ordered fun n same => ?_⟩
        exact (counts n same).mp rfl
      | some _ =>
        have enough : ∀ n, min = .count n → n ≤ all.length := by
          intro n same
          have := (counts n same).not.mp (by simp)
          omega
        rw [on (by simp)]
        exact ⟨gathered.forward, gathered.consumed enough,
          verdict ▸ gathered.not_never least greatest enough⟩
    | named info name body => exact absurd sound.textual.here id
    | action info code at? body =>
      have below : body ∈ (Expr.action info code at? body).children := by simp [Expr.children]
      have verdict := verdict (by simp)
      intro w valid
      rw [Tree.expr]
      refine .bind fun start w' ended => ?_
      cases ended
      refine .bind fun out v ended => ?_
      obtain ⟨follows, moves⟩ := each body below reports (some code) scope w valid out v ended
      have moves := moves.transfer (f := .action info code at? body) (.inr verdict.symm)
        fun consumes => by cases consumes with | action consumes => exact consumes
      cases out with
      | none => exact .pure ⟨follows, moves⟩
      | some value =>
        simp only
        split
        · exact .pure ⟨follows, moves⟩
        · refine (act_steps scene _ code _ v follows.valid).mono fun out u reaches => ?_
          obtain ⟨further, some, same⟩ := reaches
          refine ⟨follows.trans further, ?_⟩
          cases out with
          | none => exact absurd rfl some
          | some _ =>
            rw [same]
            exact moves
    | predicate info negative code =>
      have verdict := verdict (by simp)
      intro w valid
      rw [Tree.expr]
      refine .bind fun _ v ended => ?_
      cases ended
      refine .bind fun value u ended => ?_
      rw [Tree.go_call] at ended
      obtain ⟨-, rfl⟩ := Prod.mk.inj ended
      have marked := valid.mark w.state.offset
      split
      · exact .pure ⟨marked, Int.le_refl _, (fun never => by cases never),
          by simp [verdict, Expr.conclusion]⟩
      · exact .pure ⟨marked, rfl, by simp [verdict, Expr.conclusion]⟩
    | foreign what => exact absurd sound.textual.here id

include calls judged in
/-- The same for the body of a rule. -/
theorem body_steps {e : Expr} (body : scene.grammar.SoundBody e) (reports : Bool)
    (finish : Option Text) (scope : Scope) :
    c.Steps (Tree.expr scene callRule rounds reports finish scope e) (scene.grammar.Moves e) := by
  cases body with
  | plain sound => exact expr_steps calls judged e sound reports finish scope
  | @displayed info name e verdict sound =>
    have inner (reports : Bool) : c.Steps (Tree.expr scene callRule rounds reports finish scope e)
        (scene.grammar.Moves e) := expr_steps calls judged e sound reports finish scope
    rw [Tree.expr]
    cases reports with
    | false => exact (inner false).mono fun s out t => .named verdict
    | true => exact ((inner false).silently.expected true (.rule name)).mono fun s out t => .named verdict

end Expressions

section Calls

variable {place : Nat} {name : Text} {body : Run Outcome}

/-- The memo table may hold what a rule gives. -/
theorem Valid.remembering {start : Int} {out : Outcome} (valid : c.Valid w)
    (inside : place < c.program.rules.length)
    (kept : c.kept place start out w.state.offset) :
    c.Valid (w.remembering c.program (Machine.memoKey c.program place start) out) := by
  refine ⟨valid.state, fun other at? entry bound lower found => ?_⟩
  rw [World.remembering_memo] at found
  split at found
  · rename_i here
    obtain ⟨rfl, rfl⟩ := Machine.memoKey_inj inside bound here.2
    cases found
    exact kept
  · exact valid.memo other at? entry bound lower found

/-- A call gives what may be kept for its rule, if its body does. -/
theorem called_steps (inside : place < c.program.rules.length)
    (within : ∀ s out t, c.kept place s out t → s ≤ t ∧ t ≤ c.input.length)
    (steps : c.Steps body (c.kept place)) :
    c.Steps (Tree.called c.program place name body) (c.kept place) := by
  intro w valid out later ended
  cases kept : w.kept? c.program (Machine.memoKey c.program place w.state.offset) with
  | some entry =>
    obtain ⟨stop, outcome⟩ := entry
    obtain ⟨events, same⟩ := Tree.go_called_kept place name kept
    rw [same body] at ended
    cases ended
    have kept : c.kept place w.state.offset out stop := valid.keeps inside kept
    have bounds := within _ _ _ kept
    have lower := valid.state.lower
    exact ⟨(valid.goTo (by omega) bounds.2).noted events, kept⟩
  | none =>
    obtain ⟨before, behind, same⟩ := Tree.go_called_anew place name kept
    rw [same body] at ended
    obtain ⟨outcome, after, found, last⟩ := Ended.andThen_eq_ok ended
    cases last
    have noted := (Follows.refl valid).noted before
    obtain ⟨follows, reached⟩ := steps _ noted.valid out after found
    have remembers := follows.valid.remembering inside reached
    exact ⟨⟨⟨remembers.state, remembers.memo⟩, follows.depth⟩, reached⟩

end Calls

end Course

end PegCompiler
