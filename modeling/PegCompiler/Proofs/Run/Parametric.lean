import PegCompiler.Proofs.Run.Engine
import PegCompiler.Proofs.Run.Matching

/-!
What holds of evaluations of expressions because it holds of the steps that they are made of. A
`Engine.Parametric` relation between two engines has a clause for each step and for each way of putting
evaluations together; it relates what they make of an expression (`Engine.Parametric.expr`), and so the
runs of an expression in two scenes (`Tree.expr_related`). A relation that looks at one of the engines
only is a property of evaluations, so no induction of its own is needed for that.
-/

namespace PegCompiler

/-- What expressions say that they expect. -/
def Entry.IsNoted : Entry → Prop
  | .literal _ _ | .charClass _ | .any | .rule _ => True
  | .endOfInput | .user _ | .not _ => False

namespace Engine

variable {m m' : Type → Type}

/-- There are as many rounds on either side, or nothing is said where the left side has no more. -/
def Rounds (left : Engine m) (R : (α : Type) → m α → m' α → Prop) (less more : Nat) : Prop :=
  less = more ∨ less ≤ more ∧ ∀ {α : Type} (run : m' α), R α (left.throw .outOfFuel) run

/-- The same ranges are entered on either side, or nothing is said where the left side refuses. -/
def Admits (left : Engine m) (right : Engine m') (R : (α : Type) → m α → m' α → Prop) : Prop :=
  ∀ e scope, right.admits e scope = left.admits e scope ∨
    left.admits e scope = false ∧ ∀ run : m' Outcome, R Outcome (left.throw .wrongType) run

/-- What is raised for expressions whose nodes are `allowed`, apart from what their steps raise. -/
inductive Throws (allowed : Expr → Prop) : Raise → Prop
  | outOfFuel : Throws allowed .outOfFuel
  | wrongType : Throws allowed .wrongType
  | malformed {what : Stranger} : allowed (.foreign what) → Throws allowed .malformed

variable [Monad m] [Monad m']

/-- A relation between evaluations of expressions whose nodes are `allowed`, from offsets `inside` the
input. What the sides report may differ as far as `reporting` says. -/
structure Parametric (allowed : Expr → Prop) (inside : Int → Prop) (reporting : Bool → Bool → Prop)
    (left : Engine m) (right : Engine m') (R : (α : Type) → m α → m' α → Prop) : Prop where
  prune : right.prune = left.prune
  admits : Admits left right R
  matcher : right.matcher = left.matcher
  rounds : Rounds left R left.rounds right.rounds
  pure : ∀ {α : Type} (a : α), R α (Pure.pure a) (Pure.pure a)
  throw : ∀ {α : Type} {raised : Raise}, Throws allowed raised →
    R α (left.throw raised) (right.throw raised)
  bind : ∀ {α β : Type} {run : m α} {run' : m' α} {next : α → m β} {next' : α → m' β}, R α run run' →
    (∀ a, R β (next a) (next' a)) → R β (run >>= next) (run' >>= next')
  offset : ∀ {α : Type} {next : Int → m α} {next' : Int → m' α},
    (∀ start, inside start → R α (next start) (next' start)) →
      R α (left.offset >>= next) (right.offset >>= next')
  goTo : ∀ {start : Int}, inside start → R Unit (left.goTo start) (right.goTo start)
  matched : ∀ start : Int, R Outcome (left.matched start) (right.matched start)
  expect : ∀ {reports reports' : Bool} (entry : Entry), entry.IsNoted → reporting reports reports' →
    R Unit (left.expect reports entry) (right.expect reports' entry)
  matching : ∀ {primitive}, Primitive left.matcher primitive →
    R Outcome (left.matching primitive) (right.matching primitive)
  boundOf : ∀ (scope : Scope) (name : Text),
    R Number (left.boundOf scope name) (right.boundOf scope name)
  act : ∀ {start : Int} (code : Text) (scope : Scope), inside start →
    R Outcome (left.act start code scope) (right.act start code scope)
  predicate : ∀ (negative : Bool) (code : Text) (scope : Scope),
    R Outcome (left.predicate negative code scope) (right.predicate negative code scope)
  call : ∀ {info name}, allowed (.ruleRef info name) → R Outcome (left.call name) (right.call name)
  followedBy : ∀ {info e} {run : m Outcome} {run' : m' Outcome}, allowed (.unary info .followedBy e) →
    R Outcome run run' → R Outcome (left.lookahead false run) (right.lookahead false run')
  notFollowedBy : ∀ {info e} {run : m Outcome} {run' : m' Outcome},
    allowed (.unary info .notFollowedBy e) →
      R Outcome run run' → R Outcome (left.lookahead true run) (right.lookahead true run')
  named : ∀ {info name e} {reports reports' : Bool}, allowed (.named info name e) →
    reporting reports reports' → reports' = reports ∧ reporting false false
  silently : ∀ {info name e} {run : m Outcome} {run' : m' Outcome}, allowed (.named info name e) →
    R Outcome run run' → R Outcome (left.silently run) (right.silently run')

omit [Monad m] [Monad m'] in
theorem Rounds.next {left : Engine m} {R : (α : Type) → m α → m' α → Prop} {less more : Nat}
    (rounds : Rounds left R (less + 1) more) : ∃ n, more = n + 1 ∧ Rounds left R less n := by
  rcases rounds with rfl | ⟨most, out⟩
  · exact ⟨less, rfl, .inl rfl⟩
  · obtain ⟨n, rfl⟩ := Nat.exists_eq_add_of_le' (Nat.le_trans (Nat.le_add_left 1 _) most)
    exact ⟨n, rfl, .inr ⟨Nat.le_of_succ_le_succ most, out⟩⟩

namespace Parametric

variable {allowed : Expr → Prop} {inside : Int → Prop} {reporting : Bool → Bool → Prop}
  {left : Engine m} {right : Engine m'} {R : (α : Type) → m α → m' α → Prop}
  (p : Parametric allowed inside reporting left right R)

include p

theorem out {α : Type} {more : Nat} (rounds : Rounds left R 0 more) (run : Nat → m' α)
    (ends : run 0 = right.throw .outOfFuel) : R α (left.throw .outOfFuel) (run more) := by
  rcases rounds with rfl | ⟨-, out⟩
  · rw [ends]
    exact p.throw .outOfFuel
  · exact out _

theorem reached (scope : Scope) (max : Boundary) (count : Nat) :
    R Bool (left.reached scope max count) (right.reached scope max count) := by
  unfold Engine.reached
  split
  · exact p.pure _
  · exact p.bind (p.boundOf _ _) fun _ => p.pure _
  · exact p.pure _

theorem fewer (scope : Scope) (min : Boundary) (count : Nat) :
    R Bool (left.fewer scope min count) (right.fewer scope min count) := by
  unfold Engine.fewer
  split
  · exact p.pure _
  · exact p.bind (p.boundOf _ _) fun _ => p.pure _
  · exact p.pure _

section Loops

variable {less more : Nat}

theorem once {α : Type} {run : m α} {run' : m' α} (rounds : Rounds left R less more)
    (related : R α run run') : R α (left.once less run) (right.once more run') := by
  cases less with
  | zero => exact p.out rounds (right.once · run') rfl
  | succ less =>
    obtain ⟨n, rfl, -⟩ := rounds.next
    exact related

variable {element separator : m Outcome} {element' separator' : m' Outcome} {scope : Scope}
  {max : Boundary}
  (each : R Outcome element element')

include each

theorem collect (rounds : Rounds left R less more) (items : List Value) :
    R (List Value) (left.collect scope max element less items)
      (right.collect scope max element' more items) := by
  induction less generalizing more items with
  | zero => exact p.out rounds (right.collect scope max element' · items) rfl
  | succ less ih =>
    obtain ⟨n, rfl, left⟩ := rounds.next
    refine p.bind (p.reached scope max _) fun full => ?_
    split
    · exact p.pure _
    · refine p.bind each fun out => ?_
      cases out with
      | none => exact p.pure _
      | some item => exact ih left _

theorem separate (between : R Outcome separator separator') (rounds : Rounds left R less more) {start : Int}
    (lies : inside start) (items : List Value) :
    R (List Value) (left.separate scope max element separator less start items)
      (right.separate scope max element' separator' more start items) := by
  induction less generalizing more start items with
  | zero => exact p.out rounds (right.separate scope max element' separator' · start items) rfl
  | succ less ih =>
    obtain ⟨n, rfl, left⟩ := rounds.next
    refine p.bind each fun out => ?_
    cases out with
    | none => exact p.bind (p.goTo lies) fun _ => p.pure _
    | some item =>
      refine p.bind (p.reached scope max _) fun full => ?_
      split
      · exact p.pure _
      · refine p.offset fun start lies => p.bind between fun out => ?_
        cases out with
        | none => exact p.pure _
        | some _ => exact ih left lies _

theorem repetition (rounds : Rounds left R less more) {min : Boundary}
    {between : Option (m Outcome)} {between' : Option (m' Outcome)}
    (betweens : Option.Rel (R Outcome) between between') :
    R Outcome (left.repetition less scope min max element between)
      (right.repetition more scope min max element' between') := by
  have gathers : R (List Value) (left.gather less scope max element between)
      (right.gather more scope max element' between') := by
    cases betweens with
    | none => exact p.collect each rounds []
    | some between =>
      refine p.once rounds (p.bind (p.reached scope max 0) fun full => ?_)
      split
      · exact p.pure _
      · exact p.offset fun start lies => p.separate each between rounds lies []
  refine p.offset fun start lies => p.bind gathers fun items =>
    p.bind (p.fewer scope min _) fun short => ?_
  split
  · exact p.bind (p.goTo lies) fun _ => p.pure _
  · exact p.pure _

end Loops

/-- A range that is entered on either side, or refused. -/
theorem entered (e : Expr) (scope : Scope) {run : m Outcome} {run' : m' Outcome}
    (related : R Outcome run run') :
    R Outcome (if left.admits e scope then run else left.throw .wrongType)
      (if right.admits e scope then run' else right.throw .wrongType) := by
  rcases p.admits e scope with same | ⟨refuses, any⟩
  · rw [same]
    split
    · exact related
    · exact p.throw .wrongType
  · rw [refuses]
    exact any _

section Expressions

variable {reports reports' : Bool}

theorem row {es : List Expr} (finish : Option Text) {start : Int} (lies : inside start)
    (each : ∀ e ∈ es, ∀ scope,
      R Outcome (left.expr reports none scope e) (right.expr reports' none scope e))
    (scope : Scope) (autos values : List Value) :
    R Outcome (left.row reports finish start scope autos values es)
      (right.row reports' finish start scope autos values es) := by
  induction es generalizing scope autos values with
  | nil =>
    cases finish with
    | none => exact p.pure _
    | some code => exact p.act code scope lies
  | cons e rest ih =>
    rw [Engine.row, Engine.row]
    refine p.bind (each e (by simp) scope) fun out => ?_
    cases out with
    | none => exact p.bind (p.goTo lies) fun _ => p.pure _
    | some value => exact ih (fun e he => each e (by simp [he])) _ _ _

theorem alternatives {es : List Expr} {scope : Scope}
    (each : ∀ e ∈ es, R Outcome (left.expr reports none scope e) (right.expr reports' none scope e)) :
    R Outcome (left.alternatives reports scope es) (right.alternatives reports' scope es) := by
  induction es with
  | nil => exact p.pure _
  | cons e rest ih =>
    have others := ih fun e he => each e (by simp [he])
    rw [Engine.alternatives, Engine.alternatives, p.prune]
    split
    · exact others
    · refine p.bind (each e (by simp)) fun out => ?_
      cases out with
      | none => exact others
      | some value => exact p.pure _

/-- An expression is related to itself. -/
theorem expr (e : Expr) : e.Everywhere allowed → ∀ {reports reports' : Bool},
    reporting reports reports' → ∀ finish scope,
      R Outcome (left.expr reports finish scope e) (right.expr reports' finish scope e) := by
  induction e using Expr.byChildren with
  | node e ih =>
    intro all reports reports' reporting finish scope
    have each : ∀ b ∈ e.children, ∀ finish scope,
        R Outcome (left.expr reports finish scope b) (right.expr reports' finish scope b) :=
      fun b hb => ih b hb (all.child hb) reporting
    cases e with
    | literal info value ignoreCase =>
      rw [Engine.expr, Engine.expr]
      split
      · exact p.pure _
      · refine p.bind (p.expect _ trivial reporting) fun _ => ?_
        cases ignoreCase
        · exact p.matching (.literal value)
        · exact p.matching (.lowercase value.lowercase)
    | charClass info members =>
      rw [Engine.expr, Engine.expr]
      refine p.bind (p.expect _ trivial reporting) fun _ => ?_
      split
      · exact p.pure _
      · rw [p.matcher]
        exact p.matching (.charClass members)
    | any info =>
      rw [Engine.expr, Engine.expr]
      exact p.bind (p.expect _ trivial reporting) fun _ => p.matching .any
    | ruleRef info name =>
      rw [Engine.expr, Engine.expr]
      exact p.call all.here
    | sequence info es =>
      rw [Engine.expr, Engine.expr]
      exact p.offset fun start lies => p.once p.rounds
        (p.row finish lies (fun e he scope => each e he none scope) scope [] [])
    | choice info es =>
      rw [Engine.expr, Engine.expr, p.prune]
      split
      · exact p.pure _
      · exact p.once p.rounds (p.alternatives fun e he => each e he none scope)
    | labeled info label at? auto body =>
      rw [Engine.expr, Engine.expr]
      exact each body (by simp [Expr.children]) none scope
    | unary info operator body =>
      have inner := each body (by simp [Expr.children]) none scope
      cases operator with
      | group =>
        rw [Engine.expr, Engine.expr]
        exact inner
      | text =>
        rw [Engine.expr, Engine.expr]
        refine p.offset fun start lies => p.bind inner fun out => ?_
        cases out with
        | none => exact p.pure _
        | some _ => exact p.matched start
      | followedBy =>
        rw [Engine.expr, Engine.expr]
        exact p.followedBy all.here inner
      | notFollowedBy =>
        rw [Engine.expr, Engine.expr]
        exact p.notFollowedBy all.here inner
      | optional =>
        rw [Engine.expr, Engine.expr]
        exact p.bind inner fun _ => p.pure _
      | zeroOrMore | oneOrMore =>
        rw [Engine.expr, Engine.expr]
        exact p.repetition inner p.rounds .none
    | range info min max body delimiter =>
      cases delimiter with
      | none =>
        rw [Engine.expr, Engine.expr]
        exact p.entered _ scope
          (p.repetition (each body (by simp [Expr.children]) none scope) p.rounds .none)
      | some separator =>
        rw [Engine.expr, Engine.expr]
        exact p.entered _ scope (p.repetition (each body (by simp [Expr.children]) none scope) p.rounds
          (.some (each separator (by simp [Expr.children]) none scope)))
    | named info name body =>
      obtain ⟨rfl, silent⟩ := p.named all.here reporting
      have inner := ih body (by simp [Expr.children]) (all.child (by simp [Expr.children])) silent
        finish scope
      rw [Engine.expr, Engine.expr]
      split
      · rename_i loud
        exact p.bind (p.expect _ trivial (loud ▸ reporting)) fun _ => p.silently all.here inner
      · exact inner
    | action info code at? body =>
      rw [Engine.expr, Engine.expr]
      refine p.offset fun start lies =>
        p.bind (each body (by simp [Expr.children]) (some code) scope) fun out => ?_
      cases out with
      | none => exact p.pure _
      | some value =>
        simp only
        split
        · exact p.pure _
        · exact p.act code _ lies
    | predicate info negative code =>
      rw [Engine.expr, Engine.expr]
      exact p.predicate negative code scope
    | foreign what =>
      rw [Engine.expr, Engine.expr]
      exact p.throw (.malformed all.here)

end Expressions

end Parametric

end Engine

/-- Runs of an expression are related as the engines of their scenes are. -/
theorem Tree.expr_related {allowed : Expr → Prop} {inside : Int → Prop} {reporting : Bool → Bool → Prop}
    {scene scene' : Scene} {callRule callRule' : Int → Run Outcome} {rounds rounds' : Nat}
    {R : (α : Type) → Run α → Run α → Prop}
    (p : Engine.Parametric allowed inside reporting (engine scene callRule rounds)
      (engine scene' callRule' rounds') R) {e : Expr} (all : e.Everywhere allowed)
    {reports reports' : Bool} (reported : reporting reports reports') (finish : Option Text)
    (scope : Scope) : R Outcome (expr scene callRule rounds reports finish scope e)
      (expr scene' callRule' rounds' reports' finish scope e) := by
  rw [← expr_eq, ← expr_eq]
  exact p.expr e all reported finish scope

end PegCompiler
