import PegCompiler.Proofs.Compile.Preparation
import PegCompiler.Proofs.Run.Peg

/-!
Which ranges a careful run enters. The number that a label holds may be infinite, or no number at all;
then it is no limit to what is collected, and a range whose rounds take nothing goes on for ever. A
careful run does not enter such a range (`Grammar.enters`), whatever its annotations are
(`Grammar.enters_like`). One that goes by the bounds alone enters a range if they are integers
(`Expr.isCounted`). Every range that is entered has a limit or consumes (`Scene.Bounded`).
-/

namespace PegCompiler

/-! ## Numbers as limits -/

theorem Double.one_pos : 0 < one := by
  unfold one
  -- the power is not to be computed
  generalize 1074 = order
  exact Nat.two_pow_pos order

theorem Double.exists_atMost {x : Double} (limited : x.isEndless = false) :
    ∃ most : Nat, ∀ count ≥ most, x.atMost count = true := by
  cases x with
  | nan => cases limited
  | infinite negative =>
    refine ⟨0, fun count _ => ?_⟩
    simpa [isEndless, atMost] using limited
  | finite negative magnitude =>
    refine ⟨(signed negative (units magnitude)).toNat, fun count more => ?_⟩
    have more : signed negative (units magnitude) ≤ count := Int.toNat_le.mp more
    have whole : (count : Int) ≤ count * one := by
      exact_mod_cast Nat.le_mul_of_pos_right count one_pos
    exact decide_eq_true (Int.le_trans more whole)

/-- A number that is not endless is a limit. -/
theorem Number.exists_atMost {n : Number} (limited : n.isEndless = false) :
    ∃ most : Nat, ∀ count ≥ most, n.atMost count = true := by
  cases n with
  | integer n => exact ⟨n.toNat, fun count more => decide_eq_true (Int.toNat_le.mp more)⟩
  | double x => exact x.exists_atMost limited

/-- An endless number never is one. -/
theorem Number.atMost_eq_false {n : Number} (endless : n.isEndless = true) (count : Nat) :
    n.atMost count = false := by
  cases n with
  | integer => cases endless
  | double x =>
    cases x with
    | finite => cases endless
    | infinite negative => simpa [isEndless, Double.isEndless, atMost, Double.atMost] using endless
    | nan => rfl

/-! ## Checks of a range -/

/-- The number that a label holds passes a test; constants and what is no number pass as well. -/
def Boundary.passes (test : Number → Bool) (scope : Scope) : Boundary → Bool
  | .label (.text name) => ((Value.lookup? name scope).bind Value.number?).all test
  | _ => true

theorem Boundary.passes_mono {test other : Number → Bool} {scope : Scope} {boundary : Boundary}
    (passes : boundary.passes test scope = true) (imp : ∀ n, test n = true → other n = true) :
    boundary.passes other scope = true := by
  rcases boundary with _ | (_ | _ | name)
  case label.text =>
    rw [Boundary.passes, Option.all_eq_true] at passes ⊢
    exact fun n held => imp n (passes n held)
  all_goals rfl

namespace Expr

/-- The bounds of a range pass a test. -/
def boundsPass (test : (min max : Boundary) → Scope → Bool) : Expr → Scope → Bool
  | .range _ min max _ _, scope => test min max scope
  | _, _ => true

/-- The bounds of a range are integers. -/
def isCounted : Expr → Scope → Bool := boundsPass fun min max scope =>
  min.passes Number.isInteger scope && max.passes Number.isInteger scope

/-- No label gives a range an endless number for the greatest one. -/
def isLimited : Expr → Scope → Bool := boundsPass fun _ max scope => max.passes (!·.isEndless) scope

/-- Alike ranges have the same bounds. -/
theorem Like.boundsPass {rename : Text → Text} {e f : Expr} (like : Like rename e f)
    (test : (min max : Boundary) → Scope → Bool) : f.boundsPass test = e.boundsPass test := by
  cases e with
  | literal | charClass | any | ruleRef | predicate =>
    obtain ⟨_, rfl⟩ := like
    rfl
  | foreign =>
    obtain rfl := like
    rfl
  | sequence | choice | labeled | unary | named | action =>
    obtain ⟨_, _, rfl, -⟩ := like
    rfl
  | range info min max body delimiter =>
    cases delimiter with
    | none =>
      obtain ⟨_, _, rfl, -⟩ := like
      rfl
    | some separator =>
      obtain ⟨_, _, _, rfl, -⟩ := like
      rfl

end Expr

/-- Evaluation in which the bounds that labels hold are to be integers; others count as no numbers. -/
def Peg.counting (peg : Peg) : Peg := { peg with admits := Expr.isCounted }

/-- A range has a limit, or the checks do not find it idle. -/
def Grammar.enters (g : Grammar) (e : Expr) (scope : Scope) : Bool :=
  e.isLimited scope || (Check.idleAt g e).isEmpty

/-- Evaluation in which an endless number counts as no number where it would have to limit an idle
range. -/
def Peg.careful (peg : Peg) : Peg := { peg with admits := peg.grammar.enters }

/-! ## Alike ranges -/

namespace Consumption

variable {ofRule : Text → Decision}

theorem anyOf_like {es fs : List Expr} (likes : Expr.LikeAll id es fs)
    (each : ∀ e ∈ es, ∀ f, Expr.Like id e f → expr ofRule f = expr ofRule e) :
    anyOf ofRule fs = anyOf ofRule es := by
  induction es generalizing fs with
  | nil =>
    obtain rfl := likes
    rfl
  | cons e rest ih =>
    obtain ⟨f, fs, rfl, like, others⟩ := likes
    simp only [anyOf, each e (by simp) f like, ih others fun c hc => each c (by simp [hc])]

theorem allOf_like {es fs : List Expr} (likes : Expr.LikeAll id es fs)
    (each : ∀ e ∈ es, ∀ f, Expr.Like id e f → expr ofRule f = expr ofRule e) :
    allOf ofRule fs = allOf ofRule es := by
  induction es generalizing fs with
  | nil =>
    obtain rfl := likes
    rfl
  | cons e rest ih =>
    obtain ⟨f, fs, rfl, like, others⟩ := likes
    simp only [allOf, each e (by simp) f like, ih others fun c hc => each c (by simp [hc])]

/-- Annotations do not matter for what consumes. -/
theorem expr_like {e f : Expr} (like : Expr.Like id e f) : expr ofRule f = expr ofRule e := by
  induction e using Expr.byChildren generalizing f with
  | node e below =>
    cases e with
    | literal | charClass | any | ruleRef | predicate =>
      obtain ⟨_, rfl⟩ := like
      rfl
    | foreign =>
      obtain rfl := like
      rfl
    | sequence info es =>
      obtain ⟨_, fs, rfl, likes⟩ := like
      exact anyOf_like likes fun c hc f like => below c hc like
    | choice info es =>
      obtain ⟨_, fs, rfl, likes⟩ := like
      exact allOf_like likes fun c hc f like => below c hc like
    | labeled | unary | named | action =>
      obtain ⟨_, b, rfl, inner⟩ := like
      simp only [expr, below _ (by simp [Expr.children]) inner]
    | range info min max body delimiter =>
      cases delimiter with
      | none =>
        obtain ⟨_, b, rfl, inner⟩ := like
        unfold expr
        simp only [below body (by simp [Expr.children]) inner]
      | some separator =>
        obtain ⟨_, b, s, rfl, inner, between⟩ := like
        unfold expr
        simp only [below body (by simp [Expr.children]) inner,
          below separator (by simp [Expr.children]) between]

end Consumption

namespace Check

theorem deciding_isEmpty {α : Type} (answer : Decision) {go go' : Bool → Trail α}
    (same : ∀ truth, (go truth).isEmpty = (go' truth).isEmpty) :
    (deciding answer go).isEmpty = (deciding answer go').isEmpty := by
  cases answer with
  | ok truth => exact same truth
  | error => rfl

/-- Alike ranges are idle alike. -/
theorem idleAt_like {g : Grammar} {e f : Expr} (like : Expr.Like id e f) :
    (idleAt g f).isEmpty = (idleAt g e).isEmpty := by
  have consumes {c d : Expr} (like : Expr.Like id c d) : g.consumes d = g.consumes c :=
    Consumption.expr_like like
  cases e with
  | literal | charClass | any | ruleRef | predicate =>
    obtain ⟨_, rfl⟩ := like
    rfl
  | foreign =>
    obtain rfl := like
    rfl
  | sequence | choice | labeled | named | action =>
    obtain ⟨_, _, rfl, -⟩ := like
    rfl
  | unary info operator body =>
    obtain ⟨_, b, rfl, inner⟩ := like
    cases operator with
    | zeroOrMore | oneOrMore =>
      simp only [idleAt, consumes inner]
      exact deciding_isEmpty _ fun truth => by cases truth <;> rfl
    | _ => rfl
  | range info min max body delimiter =>
    cases delimiter with
    | none =>
      obtain ⟨_, b, rfl, inner⟩ := like
      simp only [idleAt, consumes inner]
      exact deciding_isEmpty _ fun truth => by cases truth <;> rfl
    | some separator =>
      obtain ⟨_, b, s, rfl, inner, between⟩ := like
      simp only [idleAt, consumes inner, consumes between]
      exact deciding_isEmpty _ fun truth => by cases truth <;> rfl

end Check

theorem Grammar.enters_like {g : Grammar} {e f : Expr} (like : Expr.Like id e f) :
    g.enters f = g.enters e := by
  funext scope
  simp only [enters, Expr.isLimited, like.boundsPass, Check.idleAt_like like]

/-! ## Ranges with a limit -/

/-- A range that is not found idle consumes in every round. -/
theorem Check.consumes_of_idleAt {g : Grammar} (textual : ∀ r ∈ g.rules, Rule.Body r.body) {info : Info}
    {min max : Boundary} {body : Expr} {delimiter : Option Expr}
    (here : (Expr.range info min max body delimiter).Textual)
    (busy : idleAt g (.range info min max body delimiter) = []) :
    g.Consumes body ∨ ∃ separator ∈ delimiter, g.Consumes separator := by
  have sound {c : Expr} (hc : c ∈ (Expr.range info min max body delimiter).children) :
      g.consumes c = .ok true → g.Consumes c := g.consumes_sound textual (.plain (here.child hc))
  simp only [idleAt, deciding] at busy
  generalize answer : Consumption.orElse _ _ = progresses at busy
  cases progresses with
  | error => simp at busy
  | ok truth =>
    cases truth with
    | false => simp at busy
    | true =>
      rcases Consumption.orElse_eq_true answer with first | ⟨-, second⟩
      · exact .inl (sound (by cases delimiter <;> simp [Expr.children]) first)
      · cases delimiter with
        | none => simp at second
        | some separator => exact .inr ⟨separator, rfl, sound (by simp [Expr.children]) second⟩

namespace Scene

/-- Every range that is entered has a limit, or consumes in every round. -/
def Bounded (scene : Scene) : Prop :=
  ∀ (info : Info) (min max : Boundary) (body : Expr) (delimiter : Option Expr) (scope : Scope),
    scene.grammar.Sound (.range info min max body delimiter) →
      scene.admits (.range info min max body delimiter) scope = true →
        max.passes (!·.isEndless) scope = true ∨ scene.grammar.Consumes body ∨
          ∃ separator ∈ delimiter, scene.grammar.Consumes separator

variable {scene : Scene}

theorem bounded_of_isCounted (admits : scene.admits = Expr.isCounted) : scene.Bounded := by
  intro info min max body delimiter scope _ admitted
  rw [admits] at admitted
  have integer : max.passes Number.isInteger scope = true := (Bool.and_eq_true_iff.mp admitted).2
  refine .inl (Boundary.passes_mono integer fun n whole => ?_)
  cases n with
  | integer => rfl
  | double => cases whole

theorem bounded_of_enters (prepared : scene.grammar.Prepared)
    (admits : scene.admits = scene.grammar.enters) : scene.Bounded := by
  intro info min max body delimiter scope sound admitted
  rw [admits] at admitted
  rcases Bool.or_eq_true_iff.mp admitted with limited | busy
  · exact .inl limited
  · exact .inr (Check.consumes_of_idleAt prepared.accepted.textual sound.textual
      (List.isEmpty_iff.mp busy))

end Scene

end PegCompiler
