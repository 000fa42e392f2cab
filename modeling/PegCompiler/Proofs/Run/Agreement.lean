import PegCompiler.Proofs.Run.Ending
import PegCompiler.Proofs.Run.Peg

/-!
The machine agrees with direct evaluation. `Agrees` relates a result of evaluation to a run: the run
gives the same value and ends at the same offset. An exact run, which leaves nothing out and keeps
nothing, also raises what evaluation raises; it is by exact runs that evaluation is known to get
where expressions may, and to come to an end.
-/

namespace PegCompiler

/-- The user code goes by the input and the match alone. -/
def PureMeaning (meaning : UserFunction → UserCode) : Prop :=
  ∀ (f : UserFunction) (s s' : ParserState) (values : List Value), s.input = s'.input →
    s.source = s'.source → s.offset = s'.offset → s.mark = s'.mark →
      meaning f s values = meaning f s' values

/-- User code that is shown the input and the match, and nothing else of the state. -/
def shown (meaning : UserFunction → UserCode) : UserFunction → UserCode := fun f s values =>
  meaning f { input := s.input, source := s.source, offset := s.offset, mark := s.mark } values

theorem shown_pure (meaning : UserFunction → UserCode) : PureMeaning (shown meaning) := by
  intro f s s' values input source offset mark
  simp only [shown, input, source, offset, mark]

/-- Evaluation shows user code nothing else. -/
theorem Peg.kin_shown (peg : Peg)
    (alike : ∀ {e f : Expr}, Expr.Like id e f → peg.admits f = peg.admits e) :
    Kin id peg { peg with meaning := shown peg.meaning } :=
  ⟨rfl, rfl, rfl, alike, fun _ _ _ _ _ => rfl⟩

/-- What `run` gives is what was evaluated, in the way `same` says. An exact run raises the same. -/
def Agrees {α β : Type} (c : Course) (exact : Prop) (result : Except Raise α) (run : Run β)
    (same : α → β → World → Prop) (w : World) : Prop :=
  match result with
  | .ok a => ∃ b after, Run.go run w = (.ok b, after) ∧ c.Follows w after ∧ same a b after
  | .error raised => exact → ∃ after, Run.go run w = (.error raised, after)

namespace Agrees

variable {α β γ δ : Type} {c : Course} {exact : Prop} {w : World} {same : α → β → World → Prop}
  {other : γ → δ → World → Prop}

theorem pure {a : α} {b : β} (valid : c.Valid w) (h : same a b w) :
    Agrees c exact (Pure.pure a) (Pure.pure b) same w :=
  ⟨b, w, rfl, .refl valid, h⟩

theorem throw {raised : Raise} :
    Agrees c exact (.error raised) (MonadExcept.throw raised : Run β) same w :=
  fun _ => ⟨w, rfl⟩

theorem bind {result : Except Raise α} {run : Run β} {next : α → Except Raise γ}
    {onward : β → Run δ} (first : Agrees c exact result run same w)
    (second : ∀ a b v, c.Follows w v → same a b v → Agrees c exact (next a) (onward b) other v) :
    Agrees c exact (result >>= next) (run >>= onward) other w := by
  cases result with
  | error raised =>
    intro isExact
    obtain ⟨after, ended⟩ := first isExact
    exact ⟨after, by rw [Run.go_bind, ended]; rfl⟩
  | ok a =>
    obtain ⟨b, v, ended, follows, h⟩ := first
    have second := second a b v follows h
    change Agrees c exact (next a) _ other w
    unfold Agrees at second ⊢
    rw [Run.go_bind, ended]
    cases found : next a with
    | error raised =>
      rw [found] at second
      exact second
    | ok a' =>
      rw [found] at second
      obtain ⟨b', u, ended', further, h'⟩ := second
      exact ⟨b', u, ended', follows.trans further, h'⟩

/-- A step of the run that evaluation has no part in. -/
theorem after {result : Except Raise γ} {run : Run β} {onward : β → Run δ} {b : β} {v : World}
    (ended : Run.go run w = (.ok b, v)) (follows : c.Follows w v)
    (next : Agrees c exact result (onward b) other v) :
    Agrees c exact result (run >>= onward) other w := by
  unfold Agrees at next ⊢
  cases result with
  | error raised =>
    intro isExact
    obtain ⟨after, ended'⟩ := next isExact
    exact ⟨after, by rw [Run.go_bind, ended]; exact ended'⟩
  | ok a =>
    obtain ⟨b', u, ended', further, h⟩ := next
    exact ⟨b', u, by rw [Run.go_bind, ended]; exact ended', follows.trans further, h⟩

/-- A range is entered in evaluation as it is in the run. -/
theorem entered {result : Except Raise α} {run : Run β} {admitted : Prop} [Decidable admitted]
    (agrees : Agrees c exact result run same w) :
    Agrees c exact (if admitted then result else .error .wrongType)
      (if admitted then run else MonadExcept.throw .wrongType) same w := by
  split
  · exact agrees
  · exact throw

/-- Where the exact runs end, evaluation settles. -/
theorem settles {allowed : Raise → Prop} {evaluate : Nat → Except Raise α} {run : Nat → Run β}
    (agrees : ∀ fuel, Agrees c True (evaluate fuel) (run fuel) same w)
    (ends : Run.Ends allowed run w)
    (upto : ∀ fuel fuel', fuel ≤ fuel' → Peg.Upto (evaluate fuel) (evaluate fuel')) :
    Peg.Settles allowed evaluate := by
  obtain ⟨enough, ended, settled, ends⟩ := ends
  refine ⟨enough, evaluate enough, fun raised failed => ?_, fun fuel more => ?_⟩
  · have agrees := agrees enough
    rw [failed] at agrees
    obtain ⟨after, run⟩ := agrees trivial
    exact settled raised after ((ends enough (Nat.le_refl _)).symm.trans run)
  · rcases upto enough fuel more with out | same
    · -- want of fuel is how the exact runs end, with more fuel too
      have first := agrees enough
      have second := agrees fuel
      rw [out] at first ⊢
      obtain ⟨after, first⟩ := first trivial
      have first := first.symm.trans (ends enough (Nat.le_refl _))
      cases evaluated : evaluate fuel with
      | error raised =>
        rw [evaluated] at second
        obtain ⟨later, second⟩ := second trivial
        have same := first.trans ((ends fuel more).symm.trans second)
        cases (Prod.mk.inj same).1
        rfl
      | ok matched =>
        rw [evaluated] at second
        obtain ⟨out, later, second, -⟩ := second
        have same := first.trans ((ends fuel more).symm.trans second)
        cases (Prod.mk.inj same).1
    · exact same.symm

end Agrees

/-- Evaluation of the expressions of a scene. -/
def Scene.peg (scene : Scene) (input : Text) (source : Option Text) : Peg :=
  ⟨scene.grammar, scene.meaning, scene.matcher, input, source, scene.admits⟩

/-- What is marked as never matching does not match. -/
def Peg.Fails (peg : Peg) (evaluate : Text → Int → Peg.Result) (rounds : Nat) : Prop :=
  ∀ (e : Expr) (scope : Scope) (start : Int) (matched : Option (Value × Int)),
    peg.grammar.Sound e → e.verdict = .never → 0 ≤ start → start ≤ peg.input.length →
      peg.expr evaluate rounds scope e start = .ok matched → matched = none

/-- The run gives the value that was evaluated, and ends behind the match, or where it began. -/
def Lands (start : Int) (matched : Option (Value × Int)) (out : Outcome) (after : World) : Prop :=
  out = matched.map Prod.fst ∧ after.state.offset = (matched.map Prod.snd).getD start

namespace Course

variable {c : Course} {scene : Scene} {exact : Prop} {w : World}

section Leaves

theorem Valid.expects (valid : c.Valid w) (reports : Bool) (entry : Entry) :
    ∃ v, Run.go (Tree.expect reports entry) w = (.ok ⟨⟩, v) ∧ c.Follows w v ∧
      v.state.offset = w.state.offset := by
  rw [Tree.go_expect]
  cases reports with
  | false => exact ⟨w, rfl, .refl valid, rfl⟩
  | true =>
    obtain ⟨s, noted, offset, follows⟩ := valid.expect entry
    exact ⟨_, by rw [if_pos rfl, noted], follows, offset⟩

/-- A leaf: what it expects is noted, then it is matched. -/
theorem leaf_agrees (reports : Bool) (entry : Entry) {matcher : CharClass → ClassMatcher}
    {primitive : ParserState → Except Raise (Option Text × ParserState)}
    (is : Primitive matcher primitive) (valid : c.Valid w) :
    Agrees c exact ((scene.peg c.input c.source).leaf primitive w.state.offset)
      (do Tree.expect reports entry; Tree.matching primitive) (Lands w.state.offset) w := by
  obtain ⟨v, ended, follows, offset⟩ := valid.expects reports entry
  refine .after ended follows ?_
  let alone := (scene.peg c.input c.source).state w.state.offset w.state.offset
  obtain ⟨matched, after, after', found, found', stop⟩ :=
    @Primitive.alike _ _ is v.state alone follows.valid.state.toInside follows.valid.state.input offset
  have matching : Run.go (Tree.matching primitive) v =
      (.ok (matched.map .text), { v with state := after }) := by
    rw [Tree.go_matching, found]
  obtain ⟨consuming, advances⟩ := is.advances
  obtain ⟨further, back, -⟩ := matching_steps advances v follows.valid _ _ matching
  unfold Peg.leaf
  rw [found']
  refine ⟨_, _, matching, further, ?_, ?_⟩
  · rw [Option.map_map]
    rfl
  · change after.offset = _
    cases matched with
    | none =>
      rw [← offset]
      exact back rfl
    | some t =>
      rw [stop]
      rfl

variable (pure : PureMeaning scene.meaning)

include pure in
theorem call_agrees (predicate : Bool) (code : Text) (scope : Scope) {start stop : Int}
    (valid : c.Valid w) (mark : w.state.mark = start) (offset : w.state.offset = stop) :
    Agrees c exact ((scene.peg c.input c.source).call predicate code scope start stop)
      (Tree.call scene predicate code scope) (fun a b after => a = b ∧ after = w) w := by
  have same : (scene.peg c.input c.source).call predicate code scope start stop =
      scene.meaning ⟨predicate, scope.map Prod.fst, code⟩ w.state (scope.map Prod.snd) :=
    pure _ _ _ _ valid.state.input.symm valid.state.source.symm offset.symm mark.symm
  rw [same]
  cases result :
    scene.meaning ⟨predicate, scope.map Prod.fst, code⟩ w.state (scope.map Prod.snd) with
  | error raised => exact fun _ => ⟨w, by rw [Tree.go_call, result]⟩
  | ok value => exact ⟨value, w, by rw [Tree.go_call, result], .refl valid, rfl, rfl⟩

include pure in
theorem act_agrees (code : Text) (scope : Scope) {start stop : Int} (valid : c.Valid w)
    (offset : w.state.offset = stop) :
    Agrees c exact ((scene.peg c.input c.source).act code start (some (scope, stop)))
      (Tree.act scene start code scope) (Lands start) w := by
  refine .after rfl (valid.mark start) ?_
  refine (call_agrees pure false code scope (valid.mark start).valid rfl offset).bind
    fun a b v follows same => ?_
  obtain ⟨rfl, rfl⟩ := same
  exact .pure follows.valid ⟨rfl, offset⟩

theorem bound_agrees (scope : Scope) (name : Text) (valid : c.Valid w) :
    Agrees c exact (Peg.bound? scope (.label (.text name))) (Tree.boundOf scope name)
      (fun a b after => a = some b ∧ after = w) w := by
  cases found : (Value.lookup? name scope).bind Value.number? with
  | some n =>
    have evaluated : Peg.bound? scope (.label (.text name)) = .ok (some n) := by
      simp only [Peg.bound?, found]
      rfl
    rw [evaluated]
    exact ⟨n, w, by rw [Tree.go_boundOf, found], .refl valid, rfl, rfl⟩
  | none =>
    have evaluated : Peg.bound? scope (.label (.text name)) = .error .wrongType := by
      simp only [Peg.bound?, found]
      rfl
    rw [evaluated]
    exact fun _ => ⟨w, by rw [Tree.go_boundOf, found]⟩

theorem reached_agrees (scope : Scope) (max : Boundary) (count : Nat) (valid : c.Valid w) :
    Agrees c exact (Peg.reached scope max count) (Tree.reached scope max count)
      (fun a b after => a = b ∧ after = w) w := by
  rcases max with (_ | _ | _) | (_ | _ | name)
  case label.text =>
    refine (bound_agrees scope name valid).bind fun a b v follows same => ?_
    obtain ⟨rfl, rfl⟩ := same
    exact .pure valid ⟨rfl, rfl⟩
  all_goals exact ⟨_, w, rfl, .refl valid, rfl, rfl⟩

theorem fewer_agrees (scope : Scope) (min : Boundary) (count : Nat) (valid : c.Valid w) :
    Agrees c exact (Peg.fewer scope min count) (Tree.fewer scope min count)
      (fun a b after => a = b ∧ after = w) w := by
  rcases min with (_ | _ | _) | (_ | _ | name)
  case label.text =>
    refine (bound_agrees scope name valid).bind fun a b v follows same => ?_
    obtain ⟨rfl, rfl⟩ := same
    exact .pure valid ⟨rfl, rfl⟩
  all_goals exact ⟨_, w, rfl, .refl valid, rfl, rfl⟩

/-- A lookahead matches where its body does, or where it does not, and stays where it is. -/
theorem lookahead_agrees (negative : Bool) {result : Peg.Result} {body : Run Outcome}
    {turn : Option (Value × Int) → Option (Value × Int)} (valid : c.Valid w)
    (turns : ∀ matched, turn matched =
      if matched.isSome = negative then none else some (.null, w.state.offset))
    (agrees : Agrees c exact result body (Lands w.state.offset) (w.change (·.openRecord))) :
    Agrees c exact (do return turn (← result)) (Tree.lookahead negative body)
      (Lands w.state.offset) w := by
  have whole := Tree.go_lookahead w negative body
  cases result with
  | error raised =>
    intro isExact
    obtain ⟨after, ended⟩ := agrees isExact
    exact ⟨after, by rw [whole, ended]; rfl⟩
  | ok matched =>
    obtain ⟨out, v, ended, follows, rfl, place⟩ := agrees
    obtain ⟨u, closes, closed, same⟩ := follows.closes valid negative
    change ∃ b after, _ ∧ _ ∧ Lands w.state.offset (turn matched) b after
    rw [whole, ended, Ended.andThen_ok, closes, Ended.andThen_ok, turns]
    cases matched with
    | none => cases negative <;> exact ⟨_, u, rfl, closed, rfl, same.trans place⟩
    | some _ =>
      have back := closed.valid.goTo valid.state.lower valid.upper
      cases negative <;> exact ⟨_, _, rfl, closed.trans back, rfl, rfl⟩

end Leaves

section Loops

variable {element separator : Int → Peg.Result} {run between : Run Outcome} {scope : Scope}
  {max : Boundary}
  (each : ∀ w, c.Valid w →
    Agrees c exact (element w.state.offset) run (Lands w.state.offset) w)

/-- The same has been collected, and the runs are at the same place. -/
def Gathers (evaluated : List Value × Int) (items : List Value) (after : World) : Prop :=
  items = evaluated.1 ∧ after.state.offset = evaluated.2

include each in
theorem collect_agrees (rounds : Nat) (items : List Value) (w : World) (valid : c.Valid w) :
    Agrees c exact (Peg.collect (Peg.reached scope max) element rounds w.state.offset items)
      (Tree.collect (Tree.reached scope max) run rounds items) Gathers w := by
  induction rounds generalizing items w with
  | zero => exact .throw
  | succ rounds ih =>
    refine (reached_agrees scope max items.length valid).bind fun full full' v _ same => ?_
    obtain ⟨rfl, rfl⟩ := same
    cases full with
    | true => exact .pure valid ⟨rfl, rfl⟩
    | false =>
      refine (each v valid).bind fun matched out u follows lands => ?_
      obtain ⟨rfl, place⟩ := lands
      cases matched with
      | none => exact .pure follows.valid ⟨rfl, place⟩
      | some matched =>
        change u.state.offset = matched.2 at place
        have others := ih (items ++ [matched.1]) u follows.valid
        rw [place] at others
        exact others

include each in
theorem separate_agrees
    (betweens : ∀ w, c.Valid w →
      Agrees c exact (separator w.state.offset) between (Lands w.state.offset) w)
    (rounds : Nat) (back : Int) (items : List Value) (w : World) (valid : c.Valid w)
    (lower : 0 ≤ back) (upper : back ≤ c.input.length) :
    Agrees c exact
      (Peg.separate (Peg.reached scope max) element separator rounds w.state.offset back items)
      (Tree.separate (Tree.reached scope max) run between rounds back items) Gathers w := by
  induction rounds generalizing back items w with
  | zero => exact .throw
  | succ rounds ih =>
    refine (each w valid).bind fun matched out v follows lands => ?_
    obtain ⟨rfl, place⟩ := lands
    cases matched with
    | none =>
      have goes := follows.valid.goTo lower upper
      exact .after rfl goes (.pure goes.valid ⟨rfl, rfl⟩)
    | some matched =>
      obtain ⟨item, stop⟩ := matched
      obtain rfl : v.state.offset = stop := place
      refine (reached_agrees scope max (items.length + 1) follows.valid).bind
        fun full full' v' _ same => ?_
      obtain ⟨rfl, rfl⟩ := same
      cases full with
      | true => exact .pure follows.valid ⟨rfl, rfl⟩
      | false =>
        refine .after rfl (.refl follows.valid) ?_
        refine (betweens v' follows.valid).bind fun passed out u further lands => ?_
        obtain ⟨rfl, place⟩ := lands
        cases passed with
        | none => exact .pure further.valid ⟨rfl, place⟩
        | some passed =>
          obtain ⟨_, next⟩ := passed
          obtain rfl : u.state.offset = next := place
          exact ih v'.state.offset (items ++ [item]) u further.valid follows.valid.state.lower
            follows.valid.upper

theorem once_agrees {α β : Type} {rounds : Nat} {result : Except Raise α} {run : Run β}
    {same : α → β → World → Prop} (agrees : Agrees c exact result run same w) :
    Agrees c exact (Peg.once rounds result) (Tree.once rounds run) same w := by
  cases rounds with
  | zero => exact .throw
  | succ rounds => exact agrees

theorem once_bind {α β : Type} (rounds : Nat) (result : Except Raise α)
    (next : α → Except Raise β) :
    Peg.once rounds result >>= next = Peg.once rounds (result >>= next) := by
  cases rounds <;> rfl

theorem repetition_agrees {rounds : Nat} {min : Boundary} {peg : Option (Int → Peg.Result)}
    {tree : Option (Run Outcome)} (valid : c.Valid w)
    (gathers : Agrees c exact (Peg.gather rounds scope max element peg w.state.offset)
      (Tree.gather rounds scope max run tree) Gathers w) :
    Agrees c exact (Peg.repetition rounds scope min max element peg w.state.offset)
      (Tree.repetition rounds scope min max run tree) (Lands w.state.offset) w := by
  refine .after rfl (.refl valid) (gathers.bind fun evaluated items v follows same => ?_)
  obtain ⟨rfl, place⟩ := same
  refine (fewer_agrees scope min evaluated.1.length follows.valid).bind fun few few' v' _ same => ?_
  obtain ⟨rfl, rfl⟩ := same
  cases few with
  | true =>
    have goes := follows.valid.goTo valid.state.lower valid.upper
    exact .after rfl goes (.pure goes.valid ⟨rfl, rfl⟩)
  | false => exact .pure follows.valid ⟨rfl, place⟩

end Loops

section Expressions

variable {evaluate : Text → Int → Peg.Result} {call : Int → Run Outcome} {rounds : Nat}

/-- What agreement says of one expression. -/
def ExprAgrees (c : Course) (exact : Prop) (scene : Scene) (evaluate : Text → Int → Peg.Result)
    (call : Int → Run Outcome) (rounds : Nat) (e : Expr) : Prop :=
  ∀ (reports : Bool) (scope : Scope) (w : World), c.Valid w →
    Agrees c exact ((scene.peg c.input c.source).expr evaluate rounds scope e w.state.offset)
      (Tree.expr scene call rounds reports none scope e) (Lands w.state.offset) w

variable (pure : PureMeaning scene.meaning) (exactly : exact → scene.prune = false)
  (calls : ∀ name, scene.grammar.defines name = true → ∀ w, c.Valid w →
    Agrees c exact (evaluate name w.state.offset) (call (scene.grammar.placeOf name))
      (Lands w.state.offset) w)
  (never : scene.prune = true → (scene.peg c.input c.source).Fails evaluate rounds)

/-- Elements in a row with what is done at their end. -/
theorem row_agrees {es : List Expr}
    (each : ∀ e ∈ es, c.ExprAgrees exact scene evaluate call rounds e) (reports : Bool)
    {finish : Option Text} {start : Int} {ending : Option Peg.Row → Peg.Result}
    (lower : 0 ≤ start) (upper : start ≤ c.input.length) (fails : ending none = .ok none)
    (finishes : ∀ (row : Peg.Row) (v : World), c.Valid v → v.state.offset = row.stop →
      Agrees c exact (ending (some row)) (Tree.row scene call rounds reports finish start row.scope
        row.autos row.values []) (Lands start) v)
    (scope : Scope) (autos values : List Value) (w : World) (valid : c.Valid w) :
    Agrees c exact
      ((scene.peg c.input c.source).row evaluate rounds scope autos values es w.state.offset >>=
        ending)
      (Tree.row scene call rounds reports finish start scope autos values es) (Lands start) w := by
  induction es generalizing scope autos values w with
  | nil => exact finishes ⟨values, autos, scope, w.state.offset⟩ w valid rfl
  | cons e rest ih =>
    rw [Peg.row, bind_assoc]
    refine (each e (by simp) reports scope w valid).bind fun matched out v follows lands => ?_
    obtain ⟨rfl, place⟩ := lands
    cases matched with
    | none =>
      have goes := follows.valid.goTo lower upper
      rw [pure_bind, fails]
      exact .after rfl goes (.pure goes.valid ⟨rfl, rfl⟩)
    | some matched =>
      obtain ⟨value, stop⟩ := matched
      obtain rfl : v.state.offset = stop := place
      exact ih (fun e he => each e (by simp [he])) _ _ _ v follows.valid

include exactly never in
theorem firstOf_agrees {es : List Expr}
    (each : ∀ e ∈ es, c.ExprAgrees exact scene evaluate call rounds e)
    (sound : ∀ e ∈ es, scene.grammar.Sound e) (reports : Bool) (scope : Scope) (w : World)
    (valid : c.Valid w) :
    Agrees c exact ((scene.peg c.input c.source).firstOf evaluate rounds scope es w.state.offset)
      (Tree.alternatives scene call rounds reports scope es) (Lands w.state.offset) w := by
  induction es generalizing w with
  | nil => exact .pure valid ⟨rfl, rfl⟩
  | cons e rest ih =>
    have others := ih (fun e he => each e (by simp [he])) (fun e he => sound e (by simp [he]))
    rw [Peg.firstOf, Tree.alternatives]
    split
    · rename_i pruned
      simp only [Bool.and_eq_true, decide_eq_true_eq] at pruned
      cases evaluated :
        (scene.peg c.input c.source).expr evaluate rounds scope e w.state.offset with
      | error raised =>
        intro isExact
        rw [exactly isExact] at pruned
        cases pruned.1
      | ok matched =>
        obtain rfl := never pruned.1 e scope _ matched (sound e (by simp)) pruned.2
          valid.state.lower valid.upper evaluated
        exact others w valid
    · refine (each e (by simp) reports scope w valid).bind fun matched out v follows lands => ?_
      obtain ⟨rfl, place⟩ := lands
      cases matched with
      | some matched => exact .pure follows.valid ⟨rfl, place⟩
      | none =>
        change v.state.offset = w.state.offset at place
        have others := others v follows.valid
        rw [place] at others
        exact others

/-- Only a sequence looks at the user code that it is to end with. -/
theorem expr_finish {e : Expr} (here : e.IsTextual) (plain : e.isRow = false) (reports : Bool)
    (finish : Option Text) (scope : Scope) :
    Tree.expr scene call rounds reports finish scope e =
      Tree.expr scene call rounds reports none scope e := by
  cases e with
  | sequence => cases plain
  | named => exact absurd here id
  | range info min max body delimiter => cases delimiter <;> rfl
  | _ => rfl

include pure exactly calls never in
/-- Every run of an expression agrees with its evaluation. -/
theorem expr_agrees (e : Expr) : scene.grammar.Sound e →
    c.ExprAgrees exact scene evaluate call rounds e := by
  induction e using Expr.byGrandchildren with
  | node e below further =>
    intro sound reports scope w valid
    have each : ∀ b ∈ e.children, c.ExprAgrees exact scene evaluate call rounds b :=
      fun b hb => below b hb (sound.child hb)
    cases e with
    | literal info value ignoreCase =>
      rw [Peg.expr, Tree.expr]
      split
      · exact .pure valid ⟨rfl, rfl⟩
      · cases ignoreCase with
        | true =>
          exact @leaf_agrees _ _ _ _ reports _ scene.matcher _ (.lowercase value.lowercase) valid
        | false =>
          exact @leaf_agrees _ _ _ _ reports _ scene.matcher _ (.literal value) valid
    | charClass info members =>
      rw [Peg.expr, Tree.expr]
      split
      · obtain ⟨v, ended, follows, offset⟩ := valid.expects reports (.charClass members)
        exact .after ended follows (.pure follows.valid ⟨rfl, offset⟩)
      · exact leaf_agrees reports _ (.charClass members) valid
    | any info =>
      exact @leaf_agrees _ _ _ _ reports _ scene.matcher _ .any valid
    | ruleRef info name => exact calls name sound.resolves.here w valid
    | sequence info es =>
      refine .after rfl (.refl valid) ?_
      rw [Peg.expr, once_bind]
      refine once_agrees (row_agrees each reports valid.state.lower valid.upper rfl
        (fun row v valid place => ?_) scope [] [] w valid)
      exact .pure valid ⟨rfl, place⟩
    | choice info es =>
      rw [Tree.expr]
      split
      · rename_i pruned
        simp only [Bool.and_eq_true, decide_eq_true_eq] at pruned
        have verdict : (Expr.choice info es).verdict = .never := by
          simp [Expr.verdict, Expr.info, pruned.2]
        cases evaluated : (scene.peg c.input c.source).expr evaluate rounds scope (.choice info es)
            w.state.offset with
        | error raised =>
          intro isExact
          rw [exactly isExact] at pruned
          cases pruned.1
        | ok matched =>
          obtain rfl := never pruned.1 _ scope _ matched sound verdict valid.state.lower valid.upper
            evaluated
          exact .pure valid ⟨rfl, rfl⟩
      · exact once_agrees (firstOf_agrees exactly never each (fun e he => sound.child he) reports
          scope w valid)
    | labeled info label at? auto body =>
      exact each body (by simp [Expr.children]) reports scope w valid
    | unary info operator body =>
      have inner : ∀ v, c.Valid v → _ := each body (by simp [Expr.children]) reports scope
      cases operator with
      | group => exact inner w valid
      | text =>
        refine .after rfl (.refl valid) ((inner w valid).bind fun matched out v follows lands => ?_)
        obtain ⟨rfl, place⟩ := lands
        cases matched with
        | none => exact .pure follows.valid ⟨rfl, place⟩
        | some matched =>
          obtain ⟨value, stop⟩ := matched
          obtain rfl : v.state.offset = stop := place
          refine .after rfl (.refl follows.valid) (.pure follows.valid ⟨?_, rfl⟩)
          rw [follows.valid.state.input]
          rfl
      | followedBy =>
        exact lookahead_agrees false valid (fun matched => by cases matched <;> rfl)
          (inner _ valid.opened)
      | notFollowedBy =>
        exact lookahead_agrees true valid (fun matched => by cases matched <;> rfl)
          (inner _ valid.opened)
      | optional =>
        refine (inner w valid).bind fun matched out v follows lands => ?_
        obtain ⟨rfl, place⟩ := lands
        cases matched <;> exact .pure follows.valid ⟨rfl, place⟩
      | zeroOrMore | oneOrMore =>
        exact repetition_agrees valid (collect_agrees inner rounds [] w valid)
    | range info min max body delimiter =>
      have inner : ∀ v, c.Valid v → _ := each body (by cases delimiter <;> simp [Expr.children])
        reports scope
      cases delimiter with
      | none => exact .entered (repetition_agrees valid (collect_agrees inner rounds [] w valid))
      | some separator =>
        have between : ∀ v, c.Valid v → _ := each separator (by simp [Expr.children]) reports scope
        refine .entered (repetition_agrees valid (once_agrees ?_))
        refine (reached_agrees scope max 0 valid).bind fun full full' v _ same => ?_
        obtain ⟨rfl, rfl⟩ := same
        cases full with
        | true => exact .pure valid ⟨rfl, rfl⟩
        | false =>
          exact .after rfl (.refl valid) (separate_agrees inner between rounds _ [] v valid
            valid.state.lower valid.upper)
    | named info name body => exact absurd sound.textual.here id
    | action info code at? body =>
      have textual := (sound.child (show body ∈ _ by simp [Expr.children])).textual
      refine .after rfl (.refl valid) ?_
      cases row : body.isRow with
      | true =>
        cases body with
        | sequence inside es =>
          have isSequence : (Expr.sequence inside es).isSequence = true := by
            simpa [Expr.isSequence] using textual.here.1
          have below : Expr.sequence inside es ∈
              (Expr.action info code at? (.sequence inside es)).children := by simp [Expr.children]
          have elements : ∀ b ∈ es, c.ExprAgrees exact scene evaluate call rounds b :=
            fun b hb => further _ below b hb ((sound.child below).child hb)
          rw [← bind_pure (Peg.expr ..), Peg.expr, once_bind]
          refine Agrees.bind (.after rfl (.refl valid) (once_agrees (row_agrees elements reports
            valid.state.lower valid.upper rfl (fun row v valid place =>
              act_agrees pure code row.scope valid place) scope [] [] w valid)))
            fun matched out v follows lands => ?_
          obtain ⟨rfl, place⟩ := lands
          cases matched with
          | none => exact .pure follows.valid ⟨rfl, place⟩
          | some matched =>
            simp only [Option.map_some, isSequence]
            exact .pure follows.valid ⟨rfl, place⟩
        | _ => cases row
      | false =>
        rw [Peg.expr_action row, expr_finish textual.here row]
        refine (each body (by simp [Expr.children]) reports scope w valid).bind
          fun matched out v follows lands => ?_
        obtain ⟨rfl, place⟩ := lands
        cases matched with
        | none => exact .pure follows.valid ⟨rfl, place⟩
        | some matched =>
          have notSequence : body.isSequence = false := by cases body <;> first | rfl | cases row
          simp only [Option.map_some, notSequence]
          exact act_agrees pure code _ follows.valid place
    | predicate info negative code =>
      have marked := valid.mark w.state.offset
      refine .after rfl marked ((call_agrees pure true code scope marked.valid rfl rfl).bind
        fun value value' v follows same => ?_)
      obtain ⟨rfl, rfl⟩ := same
      split
      · exact .pure marked.valid ⟨rfl, rfl⟩
      · exact .pure marked.valid ⟨rfl, rfl⟩
    | foreign what => exact absurd sound.textual.here id

end Expressions

end Course

end PegCompiler
