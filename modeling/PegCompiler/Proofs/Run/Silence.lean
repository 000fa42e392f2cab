import PegCompiler.Proofs.Run.Bearings
import PegCompiler.Proofs.Run.Parametric

/-!
What is left of a run in silence. While a parse is silent nothing is noted, but looking ahead opens
records all the same. So what has been noted before is either still there behind a silent run, or it
has been put out by an empty record further on, and that only where the run looked ahead
(`Tree.expr_hushes`). A rule with a display name runs its expression in silence: behind it stands the
name, noted where the rule began, unless it was put out in this way (`Grammar.displayed_record`).
-/

namespace PegCompiler

/-- The record is as it was or, where `looks` holds, an empty one further on. -/
def Furthest.Raised (looks : Prop) (record after : Furthest) : Prop :=
  after = record ∨ looks ∧ record.offset < after.offset ∧ after.entries = []

namespace Furthest.Raised

variable {looks : Prop} {record inner after last : Furthest}

theorem refl : record.Raised looks record := .inl rfl

theorem trans (first : record.Raised looks after) (second : after.Raised looks last) :
    record.Raised looks last := by
  rcases second with rfl | ⟨looked, further, empty⟩
  · exact first
  · rcases first with rfl | ⟨-, before, -⟩
    · exact .inr ⟨looked, further, empty⟩
    · exact .inr ⟨looked, Int.lt_trans before further, empty⟩

/-- An inner record that is empty. -/
theorem absorb (looked : looks) (empty : inner.entries = []) (inverted : Bool) :
    record.Raised looks (record.absorb inner inverted) := by
  have entries : (if inverted then inner.entries.map Entry.invert else inner.entries) = [] := by
    rw [empty]
    cases inverted <;> rfl
  unfold Furthest.absorb
  rw [entries]
  split
  · rename_i further
    exact .inr ⟨looked, further, rfl⟩
  · split
    · exact .inl (by simp)
    · exact .refl

end Furthest.Raised

/-- As silent as before, and the innermost record is as it was or raised. -/
structure Hushed (looks : Prop) (w after : World) : Prop where
  silence : after.state.silence = w.state.silence
  records : ∀ record outer, w.state.records = record :: outer →
    ∃ record', after.state.records = record' :: outer ∧ record.Raised looks record'

/-- What a run leaves behind that begins in silence. -/
def Run.Hushes {α : Type} (looks : Prop) (run : Run α) : Prop :=
  ∀ w, 0 < w.state.silence → run.Yields w fun _ after => Hushed looks w after

/-- Other fields than the silence and the records have changed. -/
theorem Hushed.of_same {looks : Prop} {w after : World}
    (silence : after.state.silence = w.state.silence) (records : after.state.records = w.state.records) :
    Hushed looks w after :=
  ⟨silence, fun record _ same => ⟨record, records.trans same, .refl⟩⟩

theorem Hushed.trans {looks : Prop} {w v u : World} (first : Hushed looks w v)
    (second : Hushed looks v u) : Hushed looks w u := by
  refine ⟨second.silence.trans first.silence, fun record outer same => ?_⟩
  obtain ⟨record', there, raised⟩ := first.records record outer same
  obtain ⟨record'', last, further⟩ := second.records record' outer there
  exact ⟨record'', last, raised.trans further⟩

namespace Run.Hushes

variable {α β : Type} {looks : Prop} {run : Run α}

theorem pure {a : α} : Hushes looks (Pure.pure a) := fun _ _ => .pure (.of_same rfl rfl)

theorem throw {raised : Raise} : Hushes looks (MonadExcept.throw raised : Run α) := fun _ _ => .throw

theorem bind {next : α → Run β} (first : Hushes looks run) (second : ∀ a, Hushes looks (next a)) :
    Hushes looks (run >>= next) := by
  intro w silent
  refine .bind fun a v ended => ?_
  have hushed := first w silent a v ended
  exact (second a v (hushed.silence ▸ silent)).mono fun b u further => hushed.trans further

/-- A run that reads. -/
theorem of_reads (reads : ∀ w, (Run.go run w).2 = w) : Hushes looks run := by
  intro w _ a after ended
  have same := reads w
  rw [ended] at same
  subst same
  exact .of_same rfl rfl

end Run.Hushes

namespace Tree

variable {looks : Prop}

theorem change_hushes {change : ParserState → ParserState}
    (silence : ∀ s, (change s).silence = s.silence) (records : ∀ s, (change s).records = s.records) :
    (Tree.change change).Hushes looks := by
  intro w _ a after ended
  cases ended
  exact .of_same (silence _) (records _)

theorem goTo_hushes (offset : Int) : (goTo offset).Hushes looks :=
  change_hushes (fun _ => rfl) fun _ => rfl

theorem offset_hushes : offset.Hushes looks := .of_reads fun _ => rfl

/-- Nothing is noted in silence. -/
theorem expect_hushes (reports : Bool) (entry : Entry) : (expect reports entry).Hushes looks := by
  intro w silent a after ended
  rw [go_expect, ParserState.expect, if_pos silent] at ended
  cases reports <;> cases ended <;> exact .of_same rfl rfl

/-- A primitive that moves and does nothing else. -/
def Moving (primitive : ParserState → Except Raise (Option Text × ParserState)) : Prop :=
  ∀ s matched after, primitive s = .ok (matched, after) →
    after = s ∨ ∃ n : Nat, after = s.advance n

theorem moving_matchOne (accepts : CodePoint → Bool) : Moving (·.matchOne accepts) := by
  intro s matched after ended
  simp only [ParserState.matchOne] at ended
  cases peeked : s.peek with
  | error raised =>
    rw [peeked] at ended
    cases ended
  | ok c =>
    rw [peeked] at ended
    cases c with
    | none =>
      cases ended
      exact .inl rfl
    | some c =>
      simp only [bind, Except.bind, pure, Except.pure] at ended
      split at ended <;> cases ended
      · exact .inr ⟨1, rfl⟩
      · exact .inl rfl

theorem moving_matchClass (matcher : ClassMatcher) : Moving (·.matchClass matcher) := by
  intro s matched after ended
  simp only [ParserState.matchClass] at ended
  split at ended
  · cases ended
    exact .inl rfl
  · split at ended
    · exact moving_matchOne _ s matched after ended
    · cases ended
      exact .inl rfl

theorem moving_matchLiteral (literal : Text) : Moving fun s => .ok (s.matchLiteral literal) := by
  intro s matched after ended
  simp only [ParserState.matchLiteral] at ended
  split at ended <;> cases ended
  · exact .inr ⟨_, rfl⟩
  · exact .inl rfl

theorem moving_matchLowercase (lowered : Text) :
    Moving fun s => .ok (s.matchLowercase lowered) := by
  intro s matched after ended
  simp only [ParserState.matchLowercase] at ended
  split at ended <;> cases ended
  · exact .inr ⟨_, rfl⟩
  · exact .inl rfl

theorem moving_of_primitive {matcher : CharClass → ClassMatcher}
    {primitive : ParserState → Except Raise (Option Text × ParserState)}
    (is : Primitive matcher primitive) : Moving primitive := by
  cases is with
  | literal value => exact moving_matchLiteral value
  | lowercase value => exact moving_matchLowercase value
  | charClass members => exact moving_matchClass _
  | any => exact moving_matchOne _

theorem matching_hushes {primitive : ParserState → Except Raise (Option Text × ParserState)}
    (moving : Moving primitive) : (matching primitive).Hushes looks := by
  intro w _ a after ended
  rw [go_matching] at ended
  split at ended
  · rename_i matched s found
    cases ended
    rcases moving _ _ _ found with rfl | ⟨n, rfl⟩ <;> exact .of_same rfl rfl
  · cases ended

theorem call_hushes (scene : Scene) (predicate : Bool) (body : Text) (scope : Scope) :
    (call scene predicate body scope).Hushes looks :=
  .of_reads fun w => by rw [go_call]

theorem act_hushes (scene : Scene) (start : Int) (body : Text) (scope : Scope) :
    (act scene start body scope).Hushes looks :=
  .bind (change_hushes (fun _ => rfl) fun _ => rfl) fun _ =>
    .bind (call_hushes scene false body scope) fun _ => .pure

theorem boundOf_hushes (scope : Scope) (name : Text) : (boundOf scope name).Hushes looks :=
  .of_reads fun w => by rw [go_boundOf]; split <;> rfl

/-- Looking ahead opens a record; closed again, it may put out what was noted before. -/
theorem lookahead_hushes (looked : looks) {body : Run Outcome} (hushes : body.Hushes looks)
    (negative : Bool) : (lookahead negative body).Hushes looks := by
  intro w silent
  refine .bind fun start w' ended => ?_
  cases ended
  refine .bind fun _ opened ended => ?_
  cases ended
  refine .bind fun out v ended => ?_
  have hushed := hushes (w.change (·.openRecord)) silent out v ended
  obtain ⟨inner, records, raised⟩ := hushed.records ⟨w.state.offset, []⟩ w.state.records rfl
  have empty : inner.entries = [] := by
    rcases raised with rfl | ⟨-, -, empty⟩
    · rfl
    · exact empty
  refine .bind fun _ u ended => ?_
  have closed : Hushed looks w u := by
    cases around : w.state.records with
    | nil =>
      simp only [go_closeRecord, ParserState.closeRecord, records, around] at ended
      cases ended
    | cons record outer =>
      simp only [go_closeRecord, ParserState.closeRecord, records, around] at ended
      cases ended
      refine ⟨hushed.silence, fun record' outer' same => ?_⟩
      obtain ⟨rfl, rfl⟩ := List.cons.inj (around.symm.trans same)
      exact ⟨_, rfl, .absorb looked empty negative⟩
  cases out with
  | none => exact .pure closed
  | some _ =>
    refine .bind fun _ u' ended => ?_
    cases ended
    exact .pure (closed.trans (.of_same rfl rfl))

theorem silently_yields {body : Run Outcome} (hushes : body.Hushes looks) {w : World}
    (natural : 0 ≤ w.state.silence) : (silently body).Yields w fun _ after => Hushed looks w after := by
  refine .bind fun _ v ended => ?_
  cases ended
  refine .bind fun out u ended => ?_
  have silent : 0 < w.state.silence + 1 := by omega
  have hushed := hushes (w.change fun s => { s with silence := s.silence + 1 }) silent out u ended
  refine .bind fun _ u' ended => ?_
  cases ended
  refine .pure ⟨?_, fun record outer same => hushed.records record outer same⟩
  have louder : u.state.silence = w.state.silence + 1 := hushed.silence
  change u.state.silence - 1 = w.state.silence
  omega

end Tree

/-- No lookahead, and references only to rules that are `quiet`. -/
def Expr.Quiet (quiet : Text → Prop) : Expr → Prop
  | .unary _ .followedBy _ | .unary _ .notFollowedBy _ => False
  | .ruleRef _ name => quiet name
  | _ => True

/-- Nowhere in the `quiet` rules, nor in the rules that they refer to, is a lookahead. -/
def Grammar.Quiet (g : Grammar) (quiet : Text → Prop) : Prop :=
  ∀ r ∈ g.rules, quiet r.name → r.body.Everywhere (Expr.Quiet quiet)

namespace Tree

variable {scene : Scene} {callRule : Int → Run Outcome} {rounds : Nat} {looks : Prop}
  {quiet : Text → Prop}

/-- In silence, an expression leaves the records alone but for its lookaheads and those of the rules
that it refers to. -/
theorem expr_hushes (calls : ∀ name, scene.grammar.defines name = true → (¬looks → quiet name) →
      (callRule (scene.grammar.placeOf name)).Hushes looks)
    (e : Expr) (resolves : e.Everywhere scene.grammar.Resolves)
    (quietly : ¬looks → e.Everywhere (Expr.Quiet quiet)) (reports : Bool) (finish : Option Text)
    (scope : Scope) : (expr scene callRule rounds reports finish scope e).Hushes looks := by
  have parametric : Engine.Parametric (fun e => scene.grammar.Resolves e ∧ (¬looks → e.Quiet quiet))
      (fun _ => True) Eq (engine scene callRule rounds) (engine scene callRule rounds)
      fun _ run _ => run.Hushes looks := {
    prune := rfl
    admits := fun _ _ => .inl rfl
    matcher := rfl
    rounds := .inl rfl
    pure := fun _ => .pure
    throw := fun _ => .throw
    bind := .bind
    offset := fun next => .bind offset_hushes fun start => next start trivial
    goTo := fun _ => goTo_hushes _
    matched := fun _ => .bind (.of_reads fun _ => rfl) fun _ => .pure
    expect := fun entry _ _ => expect_hushes _ entry
    matching := fun is => matching_hushes (moving_of_primitive is)
    boundOf := boundOf_hushes
    act := fun code scope _ => act_hushes scene _ code scope
    predicate := fun negative code scope => .bind (change_hushes (fun _ => rfl) fun _ => rfl)
      fun _ => .bind (call_hushes scene true code scope) fun _ => .pure
    call := fun allowed => calls _ allowed.1 allowed.2
    followedBy := fun allowed hushes => lookahead_hushes (not_not.mp allowed.2) hushes false
    notFollowedBy := fun allowed hushes => lookahead_hushes (not_not.mp allowed.2) hushes true
    named := fun _ same => ⟨same.symm, rfl⟩
    silently := fun _ hushes w silent => silently_yields hushes (Int.le_of_lt silent) }
  refine expr_related parametric ?_ rfl finish scope
  by_cases looked : looks
  · exact resolves.mono fun e here => ⟨here, fun still => absurd looked still⟩
  · exact (resolves.and (quietly looked)).mono fun e here => ⟨here.1, fun _ => here.2⟩

theorem called_hushes {program : Program} {body : Run Outcome} (place : Nat) (name : Text)
    (hushes : body.Hushes looks) : (called program place name body).Hushes looks := by
  intro w silent out after ended
  cases kept : w.kept? program (Machine.memoKey program place w.state.offset) with
  | some entry =>
    obtain ⟨events, ends⟩ := go_called_kept place name kept
    rw [ends] at ended
    cases ended
    exact .of_same rfl rfl
  | none =>
    obtain ⟨before, behind, ends⟩ := go_called_anew place name kept
    rw [ends] at ended
    obtain ⟨out', v, first, second⟩ := Ended.andThen_eq_ok ended
    cases second
    have noted : Hushed looks w { w with events := before } := .of_same rfl rfl
    exact (noted.trans (hushes { w with events := before } silent _ v first)).trans
      (.of_same rfl rfl)

end Tree

namespace Grammar

/-- Neither the rule nor those that it gets to look ahead. -/
def Still (g : Grammar) (name : Text) : Prop := ∃ quiet, g.Quiet quiet ∧ quiet name

theorem quiet_still (g : Grammar) : g.Quiet g.Still := by
  rintro r member ⟨quiet, closed, still⟩
  refine (closed r member still).mono fun e here => ?_
  cases e with
  | ruleRef info name => exact ⟨quiet, closed, here⟩
  | unary info operator body => cases operator <;> exact here
  | _ => exact here

end Grammar

namespace Scene

variable {scene : Scene} {looks : Prop}

/-- Rules in silence. -/
theorem rule_hushes (prepared : scene.grammar.Prepared) (fuel : Nat) {index : Int} {place : Nat}
    {r : Rule} (here : Index.place? scene.grammar.rules.length index = some place)
    (at? : scene.grammar.rules[place]? = some r) (still : ¬looks → scene.grammar.Still r.name) :
    (Tree.rule scene fuel index).Hushes looks := by
  induction fuel generalizing index place r with
  | zero => exact .throw
  | succ fuel ih =>
    rw [rule_at here at?]
    have member := List.mem_of_getElem? at?
    refine Tree.called_hushes place r.name (Tree.expr_hushes (fun name defined still => ?_) r.body
      (prepared.accepted.resolves r member)
      (fun silent => scene.grammar.quiet_still r member (still silent)) r.reports none [])
    obtain ⟨q, found⟩ := Option.isSome_iff_exists.mp defined
    obtain ⟨i, place, at?⟩ := Grammar.placeOf_spec found
    obtain rfl := Grammar.find?_name found
    exact ih (place ▸ Index.place?_natCast (List.getElem?_eq_some_iff.mp at?).1) at? still

/-- What an expression with a display name notes, seen from outside. -/
theorem displayed_yields (calls : ∀ fuel name, scene.grammar.defines name = true →
      (¬looks → scene.grammar.Still name) →
        (Tree.rule scene fuel (scene.grammar.placeOf name)).Hushes looks)
    {info : Info} {name : Text} {e : Expr} (resolves : e.Everywhere scene.grammar.Resolves)
    (still : ¬looks → e.Everywhere (Expr.Quiet scene.grammar.Still)) (fuel : Nat)
    {w : World} {record : Furthest} {outer : List Furthest} (audible : w.state.silence = 0)
    (records : w.state.records = record :: outer) :
    (Tree.expr scene (Tree.rule scene fuel) fuel true none [] (.named info name e)).Yields w
      fun _ after => after.state.silence = 0 ∧ ∃ record', after.state.records = record' :: outer ∧
        (record.note w.state.offset (.rule name)).Raised looks record' := by
  rw [Tree.expr]
  simp only [if_true]
  refine .bind fun _ v ended => ?_
  simp only [Tree.go_expect, ParserState.expect, audible, records, Int.lt_irrefl, if_true,
    if_false] at ended
  cases ended
  have inner : (Tree.expr scene (Tree.rule scene fuel) fuel false none [] e).Hushes looks :=
    Tree.expr_hushes (calls fuel) e resolves still false none []
  refine (Tree.silently_yields inner ?_).mono fun out after hushed => ?_
  · exact Int.le_refl 0
  · exact ⟨hushed.silence, hushed.records _ _ rfl⟩

end Scene

namespace Grammar

variable {g : Grammar} {settings : Settings} {semantics : Semantics}

/-- Wherever a rule with a display name is called and not silent: if its outcome is found anew, the
innermost record behind it is the one before with the name noted where the rule began, or an empty one
further on; it is the former wherever neither the rule nor those that it gets to look ahead. If the
outcome was kept, the record is as it was. The records around it are as they were. User code may give or
raise anything, but leaves the state alone, as `UserCode` has it. -/
theorem displayed_record {text : Text} {source : Option Text} (read : Grammar.read text source = .ok g)
    (checked : (Stage.check.run settings g).failure = none) {program : Program}
    (reads : (g.compiled settings).bytecode? semantics = some program) {place : Nat} {r : Rule}
    (at? : (g.prepare settings).rules[place]? = some r) (reports : r.reports = true) {info : Info}
    {name : Text} {e : Expr} (displayed : r.body = .named info name e) {index : Int}
    (here : Index.place? (g.prepare settings).rules.length index = some place) {w : World}
    (calls : Machine.Calls program index w) {record : Furthest} {outer : List Furthest}
    (records : w.state.records = record :: outer) (audible : w.state.silence = 0) {fuel : Nat}
    {out : Outcome} {after : World}
    (ended : Run.go (Machine.rule program fuel index) w = (.ok out, after)) :
    after.state.silence = 0 ∧ ∃ record', after.state.records = record' :: outer ∧
      let kept := w.kept? program (Machine.memoKey program place w.state.offset)
      let noted := record.note w.state.offset (.rule name)
      (kept = none → (record' = noted ∨ noted.offset < record'.offset ∧ record'.entries = []) ∧
        ((g.prepare settings).Still r.name → record' = noted)) ∧
      (kept.isSome → record' = record) := by
  obtain ⟨scene, tables, reads', -, grammar, -, -, faithful, prepared, compiled⟩ :=
    compiled_scene read checked semantics
  obtain rfl := Option.some.inj (reads'.symm.trans reads)
  rw [← grammar] at at? here ⊢
  have valid := Scene.valid_of_calls prepared compiled faithful calls
  have run := (compiled.rule_runs prepared faithful fuel index w valid).symm.trans ended
  cases fuel with
  | zero => cases run
  | succ fuel =>
    rw [Scene.rule_at here at?, displayed, reports] at run
    cases kept : w.kept? scene.program (Machine.memoKey scene.program place w.state.offset) with
    | some entry =>
      cases (Tree.go_called_of_kept place r.name kept _).symm.trans run
      exact ⟨audible, record, records, (absurd · (Option.some_ne_none entry)), fun _ => rfl⟩
    | none =>
      rw [Tree.go_called_of_new place r.name kept] at run
      obtain ⟨out', v, first, second⟩ := Ended.andThen_eq_ok run
      cases second
      have member := List.mem_of_getElem? at?
      have below : e ∈ r.body.children := by simp [displayed, Expr.children]
      have yields := @Scene.displayed_yields scene (¬scene.grammar.Still r.name)
        (fun fuel name defined still => by
          obtain ⟨q, found⟩ := Option.isSome_iff_exists.mp defined
          obtain ⟨i, place, at?⟩ := Grammar.placeOf_spec found
          obtain rfl := Grammar.find?_name found
          exact Scene.rule_hushes prepared fuel
            (place ▸ Index.place?_natCast (List.getElem?_eq_some_iff.mp at?).1) at? still)
        info name e ((prepared.accepted.resolves r member).child below)
        (fun still => (scene.grammar.quiet_still r member (Classical.not_not.mp still)).child below)
        fuel (w.noted scene.program (Machine.startEvent r.name w)) record outer audible records
      obtain ⟨silence, record', there, raised⟩ := yields _ _ first
      refine ⟨silence, record', there, fun _ => ⟨raised.imp_right And.right, fun still => ?_⟩,
        (absurd · Bool.false_ne_true)⟩
      exact raised.resolve_right fun looked => looked.1 still

/-! Samples: a rule with a display name that looks ahead, and one that does not. -/

/-- The first rule reports under the name of the sample, and fails with a single record. -/
def displaysRecord (test : Furthest → Bool) (g : Grammar) : Bool :=
  match (g.prepare plainSettings).rules[0]?,
    (g.compiled plainSettings).bytecode? countingSemantics with
  | some r, some program =>
    match r.body, program.runFrom 6 0 { input := .ofString "ac" } with
    | .named _ name _, (.ok none, after) =>
      r.reports && name == .ofString "n" && match after.state.records with
        | [record] => test record
        | _ => false
    | _, _ => false
  | _, _ => false

theorem exists_of_displaysRecord {test : Furthest → Bool} (displays : displaysRecord test g = true) :
    ∃ r program info e after record, (g.prepare plainSettings).rules[0]? = some r ∧
      (g.compiled plainSettings).bytecode? countingSemantics = some program ∧ r.reports = true ∧
      r.body = .named info (.ofString "n") e ∧
      program.runFrom 6 0 { input := .ofString "ac" } = (.ok none, after) ∧
      after.state.records = [record] ∧ test record = true := by
  unfold displaysRecord at displays
  split at displays
  · rename_i r program at? reads
    split at displays
    · rename_i info name e after displayed ended
      simp only [Bool.and_eq_true, beq_iff_eq] at displays
      obtain ⟨⟨reports, rfl⟩, single⟩ := displays
      split at single
      · rename_i record records
        exact ⟨r, program, info, e, after, record, at?, reads, reports, displayed, ended, records, single⟩
      · cases single
    · cases displays
  · cases displays

/-- Without a lookahead the name stays. -/
theorem name_stays : ∃ g program after,
    Grammar.read (.ofString "s \"n\" = \"a\" \"b\"") none = .ok g ∧
    (Stage.check.run plainSettings g).failure = none ∧
    (g.compiled plainSettings).bytecode? countingSemantics = some program ∧
    program.runFrom 6 0 { input := .ofString "ac" } = (.ok none, after) ∧
    after.state.records = [⟨0, [.rule (.ofString "n")]⟩] := by
  obtain ⟨g, read, checked, passes⟩ := exists_of_accepted
    (show (accepted? plainSettings (.ofString "s \"n\" = \"a\" \"b\"")).any
      (displaysRecord fun record => !record.entries.isEmpty) = true by decide +kernel)
  obtain ⟨r, program, info, e, after, record, at?, reads, reports, displayed, ended, records,
    tested⟩ := exists_of_displaysRecord passes
  obtain ⟨-, record', there, anew, -⟩ := displayed_record read checked reads at? reports displayed
    (Index.place?_natCast (List.getElem?_eq_some_iff.mp at?).1)
    (.first 0 (show ParserState.Inside { input := .ofString "ac" } from ⟨by decide, by decide⟩) (by simp))
    rfl rfl ended
  obtain rfl : record = record' := (List.cons.inj (records.symm.trans there)).1
  have noted : record = ⟨0, [.rule (.ofString "n")]⟩ := by
    rcases (anew (by simp [World.kept?])).1 with noted | ⟨-, empty⟩
    · exact noted
    · simp [empty] at tested
  exact ⟨g, program, after, read, checked, reads, ended, noted ▸ records⟩

/-- Looking ahead beneath a display name puts the name out. -/
theorem lookahead_puts_out_name : ∃ g program r info e after,
    Grammar.read (.ofString "s \"n\" = \"a\" &\"b\"") none = .ok g ∧
    (Stage.check.run plainSettings g).failure = none ∧
    (g.compiled plainSettings).bytecode? countingSemantics = some program ∧
    (g.prepare plainSettings).rules[0]? = some r ∧ r.reports = true ∧
    r.body = .named info (.ofString "n") e ∧
    program.runFrom 6 0 { input := .ofString "ac" } = (.ok none, after) ∧
    after.state.records = [⟨1, []⟩] ∧
    (⟨0, []⟩ : Furthest).note 0 (.rule (.ofString "n")) = ⟨0, [.rule (.ofString "n")]⟩ := by
  obtain ⟨g, read, checked, passes⟩ := exists_of_accepted
    (show (accepted? plainSettings (.ofString "s \"n\" = \"a\" &\"b\"")).any
      (displaysRecord fun record => record.offset == 1 && record.entries.isEmpty) = true by
        decide +kernel)
  obtain ⟨r, program, info, e, after, ⟨offset, entries⟩, at?, reads, reports, displayed, ended,
    records, tested⟩ := exists_of_displaysRecord passes
  simp only [Bool.and_eq_true, beq_iff_eq, List.isEmpty_iff] at tested
  obtain ⟨rfl, rfl⟩ := tested
  exact ⟨g, program, r, info, e, after, read, checked, reads, at?, reports, displayed, ended, records,
    rfl⟩

end Grammar

end PegCompiler
