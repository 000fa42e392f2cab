import PegCompiler.Proofs.Code.Thorough
import PegCompiler.Proofs.Run.Caching
import PegCompiler.Proofs.Run.Expectations

/-!
Expectations that are left out would not have been heard. Lowering leaves them out of rules that do not
report failures, and below display names. A parse that has them all still ends alike
(`Grammar.thorough_like_plain`), because code without expectations only ever runs in silence: rules that
do not report are not called where a parse can be heard. `Run.Unheard` says this of two runs: one is
like the other, but how silent they are may differ where both are silent.
-/

namespace PegCompiler

theorem Primitive.muffled {matcher : CharClass → ClassMatcher}
    {primitive : ParserState → Except Raise (Option Text × ParserState)}
    (is : Primitive matcher primitive) (s : ParserState) (silence : Int) :
    primitive { s with silence } =
      (primitive s).map fun result => (result.1, { result.2 with silence }) := by
  have one (accepts : CodePoint → Bool) : ParserState.matchOne { s with silence } accepts =
      (s.matchOne accepts).map fun result => (result.1, { result.2 with silence }) := by
    have peeks : ParserState.peek { s with silence } = s.peek := rfl
    simp only [ParserState.matchOne, peeks]
    rcases s.peek with raised | _ | c
    · rfl
    · rfl
    · simp only [bind, Except.bind]
      split <;> rfl
  cases is with
  | literal value =>
    have rests : ParserState.rest { s with silence } = s.rest := rfl
    simp only [ParserState.matchLiteral, rests]
    split <;> rfl
  | lowercase value =>
    simp only [ParserState.matchLowercase]
    split <;> rfl
  | charClass members =>
    have rests : ParserState.rest { s with silence } = s.rest := rfl
    simp only [ParserState.matchClass, rests]
    split
    · rfl
    · split
      · exact one _
      · rfl
  | any => exact one _

namespace World

/-- The world with another degree of silence. -/
def muffled (w : World) (silence : Int) : World := w.change ({ · with silence })

@[simp] theorem muffled_silence (w : World) (silence : Int) :
    (w.muffled silence).state.silence = silence := rfl

theorem muffled_self (w : World) : w.muffled w.state.silence = w := rfl

end World

/-- Two degrees of silence that cannot be told apart: where a parse can be heard they are the same, and
if user code may see how silent a parse is, they are the same everywhere. -/
def Alike (heard blind : Prop) (k n : Int) : Prop :=
  heard ∧ 0 ≤ k ∧ k = n ∨ 0 < k ∧ 0 < n ∧ (k = n ∨ blind)

/-- The second run does what the first one does, from worlds that are alike but for the silence. -/
def Run.Unheard {α : Type} (heard blind : Prop) (run run' : Run α) : Prop :=
  ∀ w n, Alike heard blind w.state.silence n → ∃ m,
    Run.go run' (w.muffled n) = ((Run.go run w).1, (Run.go run w).2.muffled m) ∧
      ∀ a after, Run.go run w = (.ok a, after) → after.state.silence = w.state.silence ∧ m = n

namespace Alike

variable {heard blind : Prop} {k n : Int}

theorem mono {heard' : Prop} (alike : Alike heard blind k n) (imp : heard → heard') :
    Alike heard' blind k n :=
  alike.imp_left fun ⟨loud, rest⟩ => ⟨imp loud, rest⟩

/-- User code sees the same. -/
theorem seen (alike : Alike heard blind k n) : k = n ∨ blind := by
  rcases alike with ⟨-, -, same⟩ | ⟨-, -, seen⟩
  · exact .inl same
  · exact seen

theorem silenced (alike : Alike heard blind k n) : Alike False blind (k + 1) (n + 1) := by
  rcases alike with ⟨-, natural, rfl⟩ | ⟨silent, silent', seen⟩
  · exact .inr ⟨by omega, by omega, .inl rfl⟩
  · exact .inr ⟨by omega, by omega, seen.imp_left (congrArg (· + 1))⟩

end Alike

namespace Run.Unheard

variable {α β : Type} {heard blind : Prop} {run run' : Run α}

theorem mono {heard' : Prop} (unheard : run.Unheard heard blind run') (imp : heard' → heard) :
    run.Unheard heard' blind run' :=
  fun w n alike => unheard w n (alike.mono imp)

/-- A run that has nothing to do with silence. -/
theorem of_deaf (deaf : ∀ w n, Alike heard blind w.state.silence n →
      Run.go run' (w.muffled n) = ((Run.go run w).1, (Run.go run w).2.muffled n))
    (keeps : ∀ w, (Run.go run w).2.state.silence = w.state.silence) : run.Unheard heard blind run' :=
  fun w n alike => ⟨n, deaf w n alike, fun a after ended => ⟨by rw [← keeps w, ended], rfl⟩⟩

theorem pure {a : α} : Unheard heard blind (Pure.pure a) (Pure.pure a) :=
  of_deaf (fun _ _ _ => rfl) fun _ => rfl

theorem throw {raised : Raise} :
    Unheard heard blind (MonadExcept.throw raised : Run α) (MonadExcept.throw raised) :=
  of_deaf (fun _ _ _ => rfl) fun _ => rfl

theorem bind {next next' : α → Run β} (first : run.Unheard heard blind run')
    (second : ∀ a, (next a).Unheard heard blind (next' a)) :
    (run >>= next).Unheard heard blind (run' >>= next') := by
  intro w n alike
  obtain ⟨m, same, keeps⟩ := first w n alike
  rw [Run.go_bind, Run.go_bind, same]
  rcases ended : Run.go run w with ⟨raised | a, after⟩
  · exact ⟨m, rfl, fun b last impossible => by cases impossible⟩
  · obtain ⟨silence, rfl⟩ := keeps a after ended
    obtain ⟨m', same', keeps'⟩ := second a after m (silence.symm ▸ alike)
    refine ⟨m', same', fun b last ended' => ?_⟩
    obtain ⟨silence', last⟩ := keeps' b last ended'
    exact ⟨silence'.trans silence, last⟩

end Run.Unheard

namespace Tree

variable {heard blind : Prop}

theorem expect_unheard {reports reports' : Bool} (entry : Entry) (loud : heard → reports = true)
    (all : reports' = true) : (expect reports entry).Unheard heard blind (expect reports' entry) := by
  subst all
  have keeps (w : World) : (Run.go (expect reports entry) w).2.state.silence = w.state.silence := by
    rw [go_expect]
    cases reports with
    | false => rfl
    | true =>
      unfold ParserState.expect
      by_cases silent : 0 < w.state.silence
      · simp [silent]
      · cases w.state.records <;> simp [silent]
  refine .of_deaf (fun w n alike => ?_) keeps
  rcases alike with ⟨hears, -, rfl⟩ | ⟨silent, silent', -⟩
  · obtain rfl := loud hears
    have self := World.muffled_self (Run.go (expect true entry) w).2
    rw [keeps w] at self
    rw [World.muffled_self, self]
  · have nothing : w.state.expect entry = .ok w.state := if_pos silent
    have nothing' : (w.muffled n).state.expect entry = .ok (w.muffled n).state := if_pos silent'
    rw [go_expect, go_expect, nothing, nothing']
    cases reports <;> rfl

theorem matching_unheard {matcher : CharClass → ClassMatcher}
    {primitive : ParserState → Except Raise (Option Text × ParserState)}
    (is : Primitive matcher primitive) :
    (matching primitive).Unheard heard blind (matching primitive) := by
  refine .of_deaf (fun w n _ => ?_) fun w => ?_
  · rw [go_matching, go_matching, show primitive (w.muffled n).state = _ from is.muffled w.state n]
    cases primitive w.state <;> rfl
  · rw [go_matching]
    cases found : primitive w.state with
    | error raised => rfl
    | ok result =>
      obtain ⟨matched, after⟩ := result
      rcases moving_of_primitive is _ _ _ found with rfl | ⟨n, rfl⟩ <;> rfl

theorem closeRecord_unheard (inverted : Bool) :
    (closeRecord inverted).Unheard heard blind (closeRecord inverted) := by
  refine .of_deaf (fun w n _ => ?_) fun w => ?_
  · simp only [go_closeRecord, ParserState.closeRecord]
    rcases records : w.state.records with _ | ⟨inner, _ | ⟨record, outer⟩⟩ <;>
      simp only [show (w.muffled n).state.records = _ from records] <;> rfl
  · simp only [go_closeRecord, ParserState.closeRecord]
    rcases w.state.records with _ | ⟨inner, _ | ⟨record, outer⟩⟩ <;> rfl

theorem lookahead_unheard {body body' : Run Outcome} (unheard : body.Unheard heard blind body')
    (negative : Bool) : (lookahead negative body).Unheard heard blind (lookahead negative body') := by
  refine .bind (.of_deaf (fun _ _ _ => rfl) fun _ => rfl) fun start =>
    .bind (.of_deaf (fun _ _ _ => rfl) fun _ => rfl) fun _ => .bind unheard fun out =>
      .bind (closeRecord_unheard negative) fun _ => ?_
  cases out with
  | none => exact .pure
  | some _ => exact .bind (.of_deaf (fun _ _ _ => rfl) fun _ => rfl) fun _ => .pure

theorem go_silently (body : Run Outcome) (w : World) : Run.go (silently body) w =
    (Run.go body (w.muffled (w.state.silence + 1))).andThen fun out after =>
      (.ok out, after.muffled (after.state.silence - 1)) := by
  simp only [silently, Run.go_bind, go_change, Ended.andThen_ok, Run.go_pure]
  rfl

/-- What runs in silence is heard by nobody. -/
theorem silently_unheard {body body' : Run Outcome} (unheard : body.Unheard False blind body') :
    (silently body).Unheard heard blind (silently body') := by
  intro w n alike
  obtain ⟨m, same, keeps⟩ := unheard (w.muffled (w.state.silence + 1)) (n + 1) alike.silenced
  have right := go_silently body' (w.muffled n)
  rw [show Run.go body' ((w.muffled n).muffled ((w.muffled n).state.silence + 1)) = _ from same] at right
  rw [right, go_silently body w]
  rcases ended : Run.go body (w.muffled (w.state.silence + 1)) with ⟨raised | out, after⟩
  · exact ⟨m, rfl, fun a last impossible => by cases impossible⟩
  · obtain ⟨silence, rfl⟩ := keeps out after ended
    have back : after.state.silence - 1 = w.state.silence := by
      rw [silence, World.muffled_silence]
      omega
    refine ⟨n, ?_, fun a last ended => ?_⟩
    · simp only [Ended.andThen_ok, World.muffled_silence, Int.add_sub_cancel]
      rfl
    · cases ended
      exact ⟨back, rfl⟩

/-- In silence it makes no difference to be more silent, for user code that does not see it. -/
theorem more_silently_unheard {body body' : Run Outcome} (unseen : blind)
    (unheard : body.Unheard False blind body') : body.Unheard False blind (silently body') := by
  intro w n alike
  obtain ⟨silent, silent', -⟩ := alike.resolve_left fun impossible => impossible.1
  obtain ⟨m, same, keeps⟩ := unheard w (n + 1) (.inr ⟨silent, by omega, .inr unseen⟩)
  have right := go_silently body' (w.muffled n)
  rw [show Run.go body' ((w.muffled n).muffled ((w.muffled n).state.silence + 1)) = _ from same] at right
  rw [right]
  rcases ended : Run.go body w with ⟨raised | out, after⟩
  · exact ⟨m, rfl, fun a last impossible => by cases impossible⟩
  · obtain ⟨silence, rfl⟩ := keeps out after ended
    refine ⟨n, ?_, fun a last ended => ?_⟩
    · simp only [Ended.andThen_ok, World.muffled_silence, Int.add_sub_cancel]
      rfl
    · cases ended
      exact ⟨silence, rfl⟩

/-- In silence nothing is noted. -/
theorem more_expected_unheard {run run' : Run Outcome} (unheard : run.Unheard False blind run')
    (entry : Entry) : run.Unheard False blind (do expect true entry; run') := by
  intro w n alike
  obtain ⟨-, silent', -⟩ := alike.resolve_left fun impossible => impossible.1
  have nothing : (w.muffled n).state.expect entry = .ok (w.muffled n).state := if_pos silent'
  rw [Run.go_bind, go_expect, if_pos rfl, nothing]
  exact unheard w n alike

theorem called_unheard {program program' : Program} {place : Nat} {name : Text} {body body' : Run Outcome}
    (uncached : program.cache = false) (uncached' : program'.cache = false)
    (traces : program'.trace = program.trace) (unheard : body.Unheard heard blind body') :
    (called program place name body).Unheard heard blind (called program' place name body') := by
  intro w n alike
  have noted (w : World) (n : Int) (event : TraceEvent) :
      (w.muffled n).noted program' event = (w.noted program event).muffled n := by
    simp only [World.noted, traces]
    rfl
  have anew : w.kept? program (Machine.memoKey program place w.state.offset) = none := by
    simp [World.kept?, uncached]
  have anew' : (w.muffled n).kept? program' (Machine.memoKey program' place w.state.offset) = none := by
    simp [World.kept?, uncached']
  obtain ⟨m, same, keeps⟩ := unheard (w.noted program (Machine.startEvent name w)) n alike
  have left := go_called_of_new place name anew body
  have right := @go_called_of_new program' (w.muffled n) place name anew' body'
  rw [noted, show Machine.startEvent name (w.muffled n) = Machine.startEvent name w from rfl,
    same] at right
  rw [left, right]
  rcases ended : Run.go body (w.noted program (Machine.startEvent name w)) with ⟨raised | out, after⟩
  · exact ⟨m, rfl, fun a last impossible => by cases impossible⟩
  · obtain ⟨silence, rfl⟩ := keeps out after ended
    refine ⟨m, ?_, fun a last ended => ?_⟩
    · simp only [Ended.andThen_ok, newWorld, World.remembering, uncached, uncached',
        Bool.false_eq_true, if_false]
      exact congrArg (Prod.mk _) (noted after m _)
    · cases ended
      exact ⟨silence, rfl⟩

theorem boundOf_unheard (scope : Scope) (name : Text) :
    (boundOf scope name).Unheard heard blind (boundOf scope name) := by
  refine .of_deaf (fun w n _ => ?_) fun w => ?_
  · simp only [go_boundOf]
    split <;> rfl
  · rw [go_boundOf]
    split <;> rfl

theorem call_unheard {scene : Scene} {program : Program}
    (seen : blind → ∀ f s values silence,
      scene.meaning f { s with silence } values = scene.meaning f s values)
    (predicate : Bool) (code : Text) (scope : Scope) : (call scene predicate code scope).Unheard heard
      blind (call { scene with program } predicate code scope) := by
  refine .of_deaf (fun w n alike => ?_) fun w => by rw [go_call]
  simp only [go_call]
  rcases alike.seen with rfl | unseen
  · rfl
  · exact congrArg (·, w.muffled n) (seen unseen _ w.state _ n)

/-- Expressions with all expectations are like those with none of them, or with those that can be
heard, if the calls of rules are. -/
theorem unheard_parametric {scene : Scene} {program : Program} {reports : Bool}
    (seen : blind → ∀ f s values silence,
      scene.meaning f { s with silence } values = scene.meaning f s values)
    {callRule callRule' : Int → Run Outcome} {rounds : Nat} (good : Text → Prop)
    (calls : ∀ name, scene.grammar.defines name = true → good name →
      (callRule (scene.grammar.placeOf name)).Unheard (reports = true) blind
        (callRule' (scene.grammar.placeOf name))) :
    Engine.Parametric (fun e => (scene.grammar.Resolves e ∧ e.IsTextual) ∧
        ∀ info name, e = .ruleRef info name → good name) (fun _ => True)
      (fun r r' => r = reports ∧ r' = true) (engine scene callRule rounds)
      (engine { scene with program } callRule' rounds) fun _ => Run.Unheard (reports = true) blind where
  prune := rfl
  admits _ _ := .inl rfl
  matcher := rfl
  rounds := .inl rfl
  pure _ := .pure
  throw _ := .throw
  bind := .bind
  offset next := .bind (.of_deaf (fun _ _ _ => rfl) fun _ => rfl) fun start => next start trivial
  goTo _ := .of_deaf (fun _ _ _ => rfl) fun _ => rfl
  matched _ := .of_deaf (fun _ _ _ => rfl) fun _ => rfl
  expect entry _ both := expect_unheard entry (fun loud => both.1.trans loud) both.2
  matching is := matching_unheard is
  boundOf := boundOf_unheard
  act code scope _ := .bind (.of_deaf (fun _ _ _ => rfl) fun _ => rfl) fun _ =>
    .bind (call_unheard seen false code scope) fun _ => .pure
  predicate _ code scope := .bind (.of_deaf (fun _ _ _ => rfl) fun _ => rfl) fun _ =>
    .bind (call_unheard seen true code scope) fun _ => .pure
  call allowed := calls _ allowed.1.1 (allowed.2 _ _ rfl)
  followedBy _ unheard := lookahead_unheard unheard false
  notFollowedBy _ unheard := lookahead_unheard unheard true
  named allowed := absurd allowed.1.2 id
  silently allowed := absurd allowed.1.2 id

end Tree

namespace Scene

variable {scene : Scene} {input : Text} {source : Option Text} {bracketed : Bool}

/-- What is run for a rule with all expectations. -/
def thorough (scene : Scene) (bracketed : Bool) (callRule : Int → Run Outcome) (rounds : Nat)
    (r : Rule) : Run Outcome :=
  match r.body with
  | .named _ name body => do
    Tree.expect true (.rule name)
    if bracketed || r.reports then Tree.silently (Tree.expr scene callRule rounds true none [] body)
    else Tree.expr scene callRule rounds true none [] body
  | body => Tree.expr scene callRule rounds true none [] body

section Code

variable {callRule : Int → Run Outcome} {rounds : Nat} {r : Rule}

theorem thorough_named {info : Info} {name : Text} {e : Expr} (body : r.body = .named info name e) :
    scene.thorough bracketed callRule rounds r = (do
      Tree.expect true (.rule name)
      if bracketed || r.reports then Tree.silently (Tree.expr scene callRule rounds true none [] e)
      else Tree.expr scene callRule rounds true none [] e) := by
  simp only [thorough, body]

theorem thorough_plain (plain : r.body.isNamed = false) :
    scene.thorough bracketed callRule rounds r = Tree.expr scene callRule rounds true none [] r.body := by
  unfold thorough
  split
  · rename_i body
    rw [body] at plain
    cases plain
  · rfl

variable (prepared : scene.grammar.Prepared)

include prepared

theorem thorough_bodiesStep : scene.BodiesStep input source (scene.thorough bracketed) := by
  intro call fuel calls r member
  rcases (prepared.soundBody member).plain_or_named with
    ⟨plain, sound⟩ | ⟨info, name, e, body, verdict, sound⟩
  · rw [thorough_plain plain]
    exact Course.expr_steps calls prepared.judged r.body sound true none []
  · rw [thorough_named body, body]
    have inner : (scene.course input source).Steps (Tree.expr scene call fuel true none [] e)
        (scene.grammar.Moves (.named info name e)) :=
      (Course.expr_steps calls prepared.judged e sound true none []).mono
        fun s out t => Grammar.Moves.named verdict
    refine .expected ?_ true (.rule name)
    split
    · exact inner.silently
    · exact inner

theorem thorough_bodiesRun {tables : Tables} (implements : scene.program.Implements scene tables)
    (faithful : scene.Faithful) (lowered : ∀ (i : Nat) (r : Rule), scene.grammar.rules[i]? = some r →
      ∃ code, scene.program.rules[i]? = some (r.name, code) ∧
        LoweredThoroughly bracketed ⟨scene.grammar.placeOf, tables⟩ r code) :
    scene.BodiesRun input source (scene.thorough bracketed) := by
  intro i r at?
  obtain ⟨code, found, lowered⟩ := lowered i r at?
  refine ⟨code, found, fun call call' fuel agree calls w valid => ?_⟩
  have simulates {e : Expr} (sound : scene.grammar.Sound e) {code : List Instr}
      (lowered : Lowered ⟨scene.grammar.placeOf, tables⟩ Lower.loud [] e code) (v : World)
      (valid : (scene.course input source).Valid v) :
      Machine.Pushes scene.program call fuel code {} (Tree.expr scene call' fuel true none [] e) v :=
    Machine.lowered_simulates implements rfl faithful agree calls prepared.judged e sound Lower.loud []
      [] code {} v lowered rfl .nil valid
  rcases (prepared.soundBody (List.mem_of_getElem? at?)).plain_or_named with
    ⟨plain, sound⟩ | ⟨info, name, e, body, -, sound⟩
  · rw [thorough_plain plain]
    exact simulates sound (lowered.of_plain plain) w valid
  · rw [thorough_named body]
    simp only [LoweredThoroughly, body] at lowered
    obtain ⟨i, inner, known, lowered, rfl⟩ := lowered
    have entry := Index.at?_natCast (implements.entries i _ known)
    split
    · exact Machine.expected_pushes entry valid fun v valid =>
        Machine.silently_pushes (simulates sound lowered) valid
    · exact Machine.expected_pushes entry valid (simulates sound lowered)

end Code

section Unheard

variable {program : Program} (prepared : scene.grammar.Prepared)
  (seen : bracketed = true → ∀ f s values silence,
    scene.meaning f { s with silence } values = scene.meaning f s values)

include seen in
theorem expr_unheard {callRule callRule' : Int → Run Outcome}
    (calls : ∀ name r, scene.grammar.find? name = some r →
      (callRule (scene.grammar.placeOf name)).Unheard (r.reports = true) (bracketed = true)
        (callRule' (scene.grammar.placeOf name)))
    {e : Expr} (sound : scene.grammar.Sound e) (reports : Bool)
    (refers : reports = true → e.Everywhere scene.grammar.RefersToReporting) (rounds : Nat) :
    (Tree.expr scene callRule rounds reports none [] e).Unheard (reports = true) (bracketed = true)
      (Tree.expr { scene with program } callRule' rounds true none [] e) := by
  have parametric := @Tree.unheard_parametric (bracketed = true) scene program reports seen callRule
    callRule' rounds (fun name => reports = true → ∀ r ∈ scene.grammar.rules, r.name = name →
      r.reports = true) fun name defined good => by
        obtain ⟨r, found⟩ := Option.isSome_iff_exists.mp defined
        refine (calls name r found).mono fun loud => good loud r (List.mem_of_find?_eq_some found) ?_
        exact Grammar.find?_name found
  refine Tree.expr_related parametric ?_ ⟨rfl, rfl⟩ none []
  by_cases loud : reports = true
  · refine ((sound.resolves.and sound.textual).and (refers loud)).mono fun e here => ⟨here.1, ?_⟩
    rintro info name rfl -
    exact here.2
  · exact (sound.resolves.and sound.textual).mono fun e here =>
      ⟨here, fun info name _ impossible => absurd impossible loud⟩

include prepared seen in
/-- A rule with all expectations is like the rule itself: where it can be heard if it reports, and in
silence anyway. -/
theorem rule_unheard (uncached : scene.program.cache = false) (uncached' : program.cache = false)
    (traces : program.trace = scene.program.trace)
    (refers : ∀ r ∈ scene.grammar.rules, r.reports = true → r.body.isNamed = false →
      r.body.Everywhere scene.grammar.RefersToReporting)
    (fuel : Nat) {index : Int} {place : Nat} {r : Rule}
    (here : Index.place? scene.grammar.rules.length index = some place)
    (at? : scene.grammar.rules[place]? = some r) :
    (Tree.rule scene fuel index).Unheard (r.reports = true) (bracketed = true)
      (Tree.ruleBy { scene with program } (Scene.thorough { scene with program } bracketed) fuel
        index) := by
  induction fuel generalizing index place r with
  | zero => exact .throw
  | succ fuel ih =>
    rw [rule_at here at?, @ruleBy_at { scene with program } _ fuel place index r here at?]
    refine Tree.called_unheard uncached uncached' traces ?_
    have member := List.mem_of_getElem? at?
    have expr {e : Expr} (sound : scene.grammar.Sound e) (reports : Bool)
        (refers : reports = true → e.Everywhere scene.grammar.RefersToReporting) :=
      @expr_unheard scene bracketed program seen (Tree.rule scene fuel) (Tree.ruleBy { scene with program }
        (Scene.thorough { scene with program } bracketed) fuel) (fun name q found => by
          obtain ⟨i, place, at?⟩ := Grammar.placeOf_spec found
          exact ih (place ▸ Index.place?_natCast (List.getElem?_eq_some_iff.mp at?).1) at?)
        e sound reports refers fuel
    rcases (prepared.soundBody member).plain_or_named with
      ⟨plain, sound⟩ | ⟨info, name, e, body, -, sound⟩
    · rw [@thorough_plain { scene with program } _ _ _ _ plain]
      exact expr sound r.reports fun loud => refers r member loud plain
    · rw [@thorough_named { scene with program } _ _ _ _ _ _ _ body, body, Tree.expr]
      have inner : Run.Unheard False _ _ _ :=
        (expr sound false fun impossible => by cases impossible).mono False.elim
      cases reports : r.reports with
      | true =>
        simp only [Bool.or_true, if_true]
        exact .bind (Tree.expect_unheard _ (fun _ => rfl) rfl) fun _ => Tree.silently_unheard inner
      | false =>
        simp only [Bool.or_false, Bool.false_eq_true, if_false]
        refine (Tree.more_expected_unheard ?_ (.rule name)).mono id
        split
        · rename_i brackets
          exact Tree.more_silently_unheard brackets inner
        · exact inner

end Unheard

end Scene

namespace Grammar

variable {g : Grammar} {settings : Settings}

/-- The grammar as it comes out of lowering with all expectations. -/
def compiledThoroughly (bracketed : Bool) (settings : Settings) (g : Grammar) : Grammar :=
  ((g.prepare settings).lowerThoroughly bracketed).1

/-- Below a display name, a class is expected by a rule that does not report. -/
def nestedText : Text := .ofString "s = d 'b'\nd \"digit\" = c\nc = [0-9]"

end Grammar

end PegCompiler
