import PegCompiler.Proofs.Grammar.Likeness
import PegCompiler.Proofs.Run.Tree

/-!
Direct evaluation of expressions. `Peg.expr` reads the tree of an expression and nothing else: no
annotation, no code and no stack. An expression matches with a value and the offset behind the match,
or it fails. Sequences, choices and repetitions take fuel as they do on the machine; evaluation with
more fuel than enough gives the same (`Peg.rule_of_ok`).
-/

namespace PegCompiler

/-- What expressions are evaluated with. -/
structure Peg where
  grammar : Grammar
  meaning : UserFunction → UserCode
  matcher : CharClass → ClassMatcher
  input : Text
  source : Option Text := none
  /-- The ranges that are entered. -/
  admits : Expr → Scope → Bool := fun _ _ => true

namespace Peg

/-- A value and the offset behind the match, or a failure. -/
abbrev Result := Except Raise (Option (Value × Int))

/-- The state at an offset, for a match that began at `mark`. -/
def state (peg : Peg) (offset mark : Int) : ParserState :=
  { input := peg.input, source := peg.source, offset, mark }

/-- What a matching primitive gives at an offset. -/
def leaf (peg : Peg) (primitive : ParserState → Except Raise (Option Text × ParserState))
    (start : Int) : Result := do
  let (matched, after) ← primitive (peg.state start start)
  return matched.map fun text => (.text text, after.offset)

/-- User code sees the match between two offsets and the values of the labels in scope. -/
def call (peg : Peg) (predicate : Bool) (code : Text) (scope : Scope) (start stop : Int) :
    Except Raise Value :=
  peg.meaning ⟨predicate, scope.map Prod.fst, code⟩ (peg.state stop start) (scope.map Prod.snd)

/-- What an action makes of a match from `start` on. -/
def act (peg : Peg) (code : Text) (start : Int) : Option (Scope × Int) → Result
  | none => return none
  | some (scope, stop) => return some (← peg.call false code scope start stop, stop)

/-- The number that bounds a repetition, if there is one. -/
def bound? (scope : Scope) : Boundary → Except Raise (Option Number)
  | .count n => return some (.integer n)
  | .label (.text name) =>
    match (Value.lookup? name scope).bind Value.number? with
    | some n => return some n
    | none => throw .wrongType
  | _ => return none

def reached (scope : Scope) (max : Boundary) (count : Nat) : Except Raise Bool :=
  return (← bound? scope max).any (·.atMost count)

def fewer (scope : Scope) (min : Boundary) (count : Nat) : Except Raise Bool :=
  return (← bound? scope min).any (·.exceeds count)

def once {α : Type} (rounds : Nat) (result : Except Raise α) : Except Raise α :=
  match rounds with
  | 0 => throw .outOfFuel
  | _ + 1 => result

/-- Collects matches in a row. -/
def collect (enough : Nat → Except Raise Bool) (element : Int → Result) :
    (rounds : Nat) → (start : Int) → List Value → Except Raise (List Value × Int)
  | 0, _, _ => throw .outOfFuel
  | rounds + 1, start, items => do
    if ← enough items.length then return (items, start)
    match ← element start with
    | none => return (items, start)
    | some (item, stop) => collect enough element rounds stop (items ++ [item])

/-- Collects matches with something between them. Where no match follows, the last delimiter, which
began at `back`, is given back. -/
def separate (enough : Nat → Except Raise Bool) (element separator : Int → Result) :
    (rounds : Nat) → (start back : Int) → List Value → Except Raise (List Value × Int)
  | 0, _, _, _ => throw .outOfFuel
  | rounds + 1, start, back, items => do
    match ← element start with
    | none => return (items, back)
    | some (item, stop) =>
      if ← enough (items.length + 1) then return (items ++ [item], stop)
      match ← separator stop with
      | none => return (items ++ [item], stop)
      | some (_, next) => separate enough element separator rounds next stop (items ++ [item])

def gather (rounds : Nat) (scope : Scope) (max : Boundary) (element : Int → Result)
    (separator : Option (Int → Result)) (start : Int) : Except Raise (List Value × Int) :=
  match separator with
  | none => collect (reached scope max) element rounds start []
  | some separator => once rounds do
    if ← reached scope max 0 then return ([], start)
    separate (reached scope max) element separator rounds start start []

/-- A repetition fails if it has not collected enough. -/
def repetition (rounds : Nat) (scope : Scope) (min max : Boundary) (element : Int → Result)
    (separator : Option (Int → Result)) (start : Int) : Result := do
  let (items, stop) ← gather rounds scope max element separator start
  if ← fewer scope min items.length then return none
  return some (.list items, stop)

/-- What the elements of a sequence give: all values, those of the auto labels, the labels in scope,
and where the last element ends. -/
structure Row where
  values : List Value
  autos : List Value
  scope : Scope
  stop : Int

/-- The single auto label, the list of several ones, or the list of all values. -/
def Row.value (row : Row) : Value := Tree.rowValue row.autos row.values

mutual

def expr (peg : Peg) (callRule : Text → Int → Result) (rounds : Nat) (scope : Scope) :
    Expr → Int → Result
  | .literal _ value ignoreCase, start =>
    if value.isEmpty then return some (.text [], start)
    else peg.leaf (fun s => .ok <|
      if ignoreCase then s.matchLowercase value.lowercase else s.matchLiteral value) start
  | .charClass _ members, start =>
    if members.parts.isEmpty then return none
    else peg.leaf (·.matchClass (peg.matcher members)) start
  | .any _, start => peg.leaf (·.matchAny) start
  | .ruleRef _ name, start => callRule name start
  | .sequence _ elements, start => do
    let matched ← once rounds (row peg callRule rounds scope [] [] elements start)
    return matched.map fun row => (row.value, row.stop)
  | .choice _ alternatives, start =>
    once rounds (firstOf peg callRule rounds scope alternatives start)
  | .labeled _ _ _ _ body, start => expr peg callRule rounds scope body start
  | .unary _ operator body, start =>
    let inner := expr peg callRule rounds scope body
    match operator with
    | .group => inner start
    | .text => do
      return (← inner start).map fun (_, stop) => (.text (Index.slice peg.input start stop), stop)
    | .followedBy => return (← inner start).map fun _ => (.null, start)
    | .notFollowedBy => return if (← inner start).isSome then none else some (.null, start)
    | .optional => return some ((← inner start).getD (.null, start))
    | .zeroOrMore => repetition rounds scope (.count 0) .unbounded inner none start
    | .oneOrMore => repetition rounds scope (.count 1) .unbounded inner none start
  | .range info min max body none, start =>
    if peg.admits (.range info min max body none) scope then
      repetition rounds scope min max (expr peg callRule rounds scope body) none start
    else throw .wrongType
  | .range info min max body (some separator), start =>
    if peg.admits (.range info min max body (some separator)) scope then
      repetition rounds scope min max (expr peg callRule rounds scope body)
        (some (expr peg callRule rounds scope separator)) start
    else throw .wrongType
  | .named _ _ body, start => expr peg callRule rounds scope body start
  | .action _ code _ (.sequence _ elements), start => do
    let matched ← once rounds (row peg callRule rounds scope [] [] elements start)
    peg.act code start (matched.map fun row => (row.scope, row.stop))
  | .action _ code _ body, start => do
    let matched ← expr peg callRule rounds scope body start
    peg.act code start (matched.map fun (value, stop) => (body.extend value scope, stop))
  | .predicate _ negative code, start => do
    let value ← peg.call true code scope start start
    return if value.isTrue != negative then some (.null, start) else none
  | .foreign _, _ => throw .malformed

/-- The elements of a sequence one after the other; an element sees the labels before it. -/
def row (peg : Peg) (callRule : Text → Int → Result) (rounds : Nat) (scope : Scope)
    (autos values : List Value) : List Expr → Int → Except Raise (Option Row)
  | [], start => return some ⟨values, autos, scope, start⟩
  | e :: rest, start => do
    match ← expr peg callRule rounds scope e start with
    | none => return none
    | some (value, stop) =>
      row peg callRule rounds (e.extend value scope) (e.collect value autos) (values ++ [value]) rest
        stop

/-- The first alternative that matches. -/
def firstOf (peg : Peg) (callRule : Text → Int → Result) (rounds : Nat) (scope : Scope) :
    List Expr → Int → Result
  | [], _ => return none
  | e :: rest, start => do
    match ← expr peg callRule rounds scope e start with
    | some matched => return some matched
    | none => firstOf peg callRule rounds scope rest start

end

/-- Evaluates the rule called `name`, with no labels in scope. -/
def rule (peg : Peg) : (fuel : Nat) → (name : Text) → (start : Int) → Result
  | 0, _, _ => throw .outOfFuel
  | fuel + 1, name, start =>
    match peg.grammar.find? name with
    | some r => expr peg (rule peg fuel) fuel [] r.body start
    | none => throw .malformed

/-- With fuel enough there is one result, which is no failure but an allowed one. -/
def Settles {α : Type} (allowed : Raise → Prop) (evaluate : Nat → Except Raise α) : Prop :=
  ∃ (enough : Nat) (result : Except Raise α), (∀ raised, result = .error raised → allowed raised) ∧
    ∀ fuel ≥ enough, evaluate fuel = result

/-- What takes one call more settles as well. -/
theorem Settles.shift {α : Type} {allowed : Raise → Prop} {evaluate calls : Nat → Except Raise α}
    (takes : ∀ fuel, calls (fuel + 1) = evaluate fuel) (settles : Settles allowed evaluate) :
    Settles allowed calls := by
  obtain ⟨enough, result, settled, ends⟩ := settles
  refine ⟨enough + 1, result, settled, fun fuel more => ?_⟩
  obtain ⟨fuel, rfl⟩ := Nat.exists_eq_add_of_le' (show 1 ≤ fuel by omega)
  exact (takes fuel).trans (ends fuel (by omega))

/-! ## More fuel -/

/-- The same, unless the first had too little fuel. -/
def Upto {α : Type} (less more : Except Raise α) : Prop := less = .error .outOfFuel ∨ less = more

namespace Upto

variable {α β : Type} {less more : Except Raise α}

theorem refl (result : Except Raise α) : Upto result result := .inr rfl

theorem eq_of_ok {a : α} (upto : Upto less more) (ok : less = .ok a) : more = .ok a := by
  rcases upto with out | same
  · rw [ok] at out
    cases out
  · exact same ▸ ok

theorem trans {most : Except Raise α} (upto : Upto less more) (further : Upto more most) :
    Upto less most := by
  rcases upto with out | rfl
  · exact .inl out
  · exact further

theorem ite {cond : Prop} [Decidable cond] (upto : Upto less more) {other : Except Raise α} :
    Upto (if cond then less else other) (if cond then more else other) := by
  split
  · exact upto
  · exact .refl _

theorem bind {next other : α → Except Raise β} (upto : Upto less more)
    (then' : ∀ a, Upto (next a) (other a)) : Upto (less >>= next) (more >>= other) := by
  rcases upto with rfl | rfl
  · exact .inl rfl
  · cases less with
    | error raised => exact .inr rfl
    | ok a => exact then' a

end Upto

section Fuel

variable {peg : Peg} {call call' : Text → Int → Result} {rounds rounds' : Nat}
  {element element' separator separator' : Int → Result} (more : rounds ≤ rounds')
  (each : ∀ start, Upto (element start) (element' start))

include more in
theorem once_upto {α : Type} {less greater : Except Raise α} (upto : Upto less greater) :
    Upto (once rounds less) (once rounds' greater) := by
  cases rounds with
  | zero => exact .inl rfl
  | succ rounds =>
    obtain ⟨rounds', rfl⟩ := Nat.exists_eq_add_of_le' (Nat.le_trans (Nat.le_add_left 1 _) more)
    exact upto

include each more in
theorem collect_upto (enough : Nat → Except Raise Bool) (start : Int) (items : List Value) :
    Upto (collect enough element rounds start items) (collect enough element' rounds' start items) := by
  induction rounds generalizing rounds' start items with
  | zero => exact .inl rfl
  | succ rounds ih =>
    obtain ⟨rounds', rfl⟩ := Nat.exists_eq_add_of_le' (Nat.le_trans (Nat.le_add_left 1 _) more)
    refine .bind (.refl _) fun full => ?_
    cases full with
    | true => exact .refl _
    | false =>
      refine .bind (each start) fun matched => ?_
      cases matched with
      | none => exact .refl _
      | some matched => exact ih (by omega) _ _

include each more in
theorem separate_upto (between : ∀ start, Upto (separator start) (separator' start))
    (enough : Nat → Except Raise Bool) (start back : Int) (items : List Value) :
    Upto (separate enough element separator rounds start back items)
      (separate enough element' separator' rounds' start back items) := by
  induction rounds generalizing rounds' start back items with
  | zero => exact .inl rfl
  | succ rounds ih =>
    obtain ⟨rounds', rfl⟩ := Nat.exists_eq_add_of_le' (Nat.le_trans (Nat.le_add_left 1 _) more)
    refine .bind (each start) fun matched => ?_
    cases matched with
    | none => exact .refl _
    | some matched =>
      refine .bind (.refl _) fun full => ?_
      cases full with
      | true => exact .refl _
      | false =>
        refine .bind (between _) fun passed => ?_
        cases passed with
        | none => exact .refl _
        | some passed => exact ih (by omega) _ _ _

include each more in
theorem repetition_upto (scope : Scope) (min max : Boundary) (start : Int) :
    Upto (repetition rounds scope min max element none start)
      (repetition rounds' scope min max element' none start) :=
  .bind (collect_upto more each _ start []) fun _ => .refl _

include each more in
theorem repetition_between_upto (between : ∀ start, Upto (separator start) (separator' start))
    (scope : Scope) (min max : Boundary) (start : Int) :
    Upto (repetition rounds scope min max element (some separator) start)
      (repetition rounds' scope min max element' (some separator') start) := by
  refine .bind (once_upto more (.bind (.refl _) fun full => ?_)) fun _ => .refl _
  cases full with
  | true => exact .refl _
  | false => exact separate_upto more each between _ start start []

theorem row_upto {es : List Expr} (each : ∀ e ∈ es, ∀ scope start,
      Upto (expr peg call rounds scope e start) (expr peg call' rounds' scope e start))
    (scope : Scope) (autos values : List Value) (start : Int) :
    Upto (row peg call rounds scope autos values es start)
      (row peg call' rounds' scope autos values es start) := by
  induction es generalizing scope autos values start with
  | nil => exact .refl _
  | cons e rest ih =>
    refine .bind (each e (by simp) scope start) fun matched => ?_
    cases matched with
    | none => exact .refl _
    | some matched => exact ih (fun e he => each e (by simp [he])) _ _ _ _

theorem firstOf_upto {es : List Expr} (scope : Scope) (start : Int) (each : ∀ e ∈ es,
      Upto (expr peg call rounds scope e start) (expr peg call' rounds' scope e start)) :
    Upto (firstOf peg call rounds scope es start) (firstOf peg call' rounds' scope es start) := by
  induction es with
  | nil => exact .refl _
  | cons e rest ih =>
    refine .bind (each e (by simp)) fun matched => ?_
    cases matched with
    | some matched => exact .refl _
    | none => exact ih fun e he => each e (by simp [he])

/-- An action that is not over a sequence. -/
theorem expr_action {body : Expr} (plain : body.isRow = false) (scope : Scope) (info : Info)
    (code : Text) (at? : Option Location) (start : Int) :
    expr peg call rounds scope (.action info code at? body) start = (do
      let matched ← expr peg call rounds scope body start
      peg.act code start (matched.map fun (value, stop) => (body.extend value scope, stop))) := by
  cases body with
  | sequence => cases plain
  | _ => rfl

include more in
theorem expr_upto (e : Expr) (calls : e.Refers fun name => ∀ start,
      Upto (call name start) (call' name start)) (scope : Scope) (start : Int) :
    Upto (expr peg call rounds scope e start) (expr peg call' rounds' scope e start) := by
  induction e using Expr.byGrandchildren generalizing scope start with
  | node e below further =>
    have further c hc b hb := further c hc b hb ((calls.child hc).child hb)
    have below c hc := below c hc (calls.child hc)
    cases e with
    | literal | charClass | any | predicate | foreign => exact .refl _
    | ruleRef info name => exact calls.here start
    | sequence info es => exact .bind (once_upto more (row_upto below _ _ _ _)) fun _ => .refl _
    | choice info es =>
      exact once_upto more (firstOf_upto scope start fun e he => below e he scope start)
    | labeled info label at? auto body => exact below body (by simp [Expr.children]) scope start
    | named info name body => exact below body (by simp [Expr.children]) scope start
    | unary info operator body =>
      have inner := below body (by simp [Expr.children]) scope
      cases operator with
      | group => exact inner start
      | text | followedBy | notFollowedBy | optional => exact .bind (inner start) fun _ => .refl _
      | zeroOrMore | oneOrMore => exact repetition_upto more inner scope _ _ start
    | range info min max body delimiter =>
      cases delimiter with
      | none =>
        exact .ite (repetition_upto more (below body (by simp [Expr.children]) scope) scope _ _ start)
      | some separator =>
        exact .ite (repetition_between_upto more (below body (by simp [Expr.children]) scope)
          (below separator (by simp [Expr.children]) scope) scope _ _ start)
    | action info code at? body =>
      cases row : body.isRow with
      | true =>
        cases body with
        | sequence info es =>
          exact .bind
            (once_upto more (row_upto (further (.sequence info es) (by simp [Expr.children])) _ _ _ _))
            fun _ => .refl _
        | _ => cases row
      | false =>
        rw [expr_action row, expr_action row]
        exact .bind (below body (by simp [Expr.children]) scope start) fun _ => .refl _

end Fuel

end Peg

/-! ## Alike expressions -/

namespace Expr

variable {rename : Text → Text} {e f : Expr}

theorem Like.isAuto (h : Like rename e f) : f.isAuto = e.isAuto := by
  cases e with
  | literal | charClass | any | ruleRef | predicate =>
    obtain ⟨_, rfl⟩ := h
    rfl
  | foreign =>
    obtain rfl := h
    rfl
  | sequence | choice | labeled | unary | named | action =>
    obtain ⟨_, _, rfl, -⟩ := h
    rfl
  | range info min max body delimiter =>
    cases delimiter with
    | none =>
      obtain ⟨_, _, rfl, -⟩ := h
      rfl
    | some separator =>
      obtain ⟨_, _, _, rfl, -⟩ := h
      rfl

/-- Alike elements label the same value in the same way. -/
theorem Like.extend (h : Like rename e f) : f.extend = e.extend := by
  funext value scope
  simp only [Expr.extend, h.root.2.2]

theorem Like.collect {α : Type} (h : Like rename e f) (place : α) (autos : List α) :
    f.collect place autos = e.collect place autos := by
  simp only [Expr.collect, h.isAuto]

end Expr

namespace Peg

/-- Evaluators that match leaves and call user code in the same way; their rules may differ. -/
structure Kin (rename : Text → Text) (peg other : Peg) : Prop where
  input : other.input = peg.input
  source : other.source = peg.source
  matcher : other.matcher = peg.matcher
  admits : ∀ {e f : Expr}, Expr.Like rename e f → other.admits f = peg.admits e
  call : ∀ predicate code scope start stop,
    other.call predicate code scope start stop = peg.call predicate code scope start stop

namespace Kin

variable {rename : Text → Text} {peg other : Peg} (kin : Kin rename peg other)

include kin in
theorem leaf : other.leaf = peg.leaf := by
  funext primitive start
  simp only [Peg.leaf, Peg.state, kin.input, kin.source]

include kin in
theorem act : other.act = peg.act := by
  funext code start matched
  cases matched with
  | none => rfl
  | some matched => simp only [Peg.act, kin.call]

end Kin

section Like

variable {rename : Text → Text} {peg other : Peg} (kin : Kin rename peg other)
  {call : Text → Int → Result} {rounds : Nat}

theorem row_like {es fs : List Expr} (likes : Expr.LikeAll rename es fs)
    (each : ∀ e ∈ es, ∀ f, Expr.Like rename e f → ∀ scope, other.expr call rounds scope f =
      peg.expr (fun name => call (rename name)) rounds scope e)
    (scope : Scope) (autos values : List Value) (start : Int) :
    row other call rounds scope autos values fs start =
      row peg (fun name => call (rename name)) rounds scope autos values es start := by
  induction es generalizing fs scope autos values start with
  | nil =>
    obtain rfl := likes
    rfl
  | cons e rest ih =>
    obtain ⟨f, fs, rfl, like, others⟩ := likes
    have others := ih others fun c hc => each c (by simp [hc])
    simp only [row, each e (by simp) f like, like.extend, like.collect, others]

theorem firstOf_like {es fs : List Expr} (likes : Expr.LikeAll rename es fs)
    (each : ∀ e ∈ es, ∀ f, Expr.Like rename e f → ∀ scope, other.expr call rounds scope f =
      peg.expr (fun name => call (rename name)) rounds scope e)
    (scope : Scope) (start : Int) :
    firstOf other call rounds scope fs start =
      firstOf peg (fun name => call (rename name)) rounds scope es start := by
  induction es generalizing fs with
  | nil =>
    obtain rfl := likes
    rfl
  | cons e rest ih =>
    obtain ⟨f, fs, rfl, like, others⟩ := likes
    simp only [firstOf, each e (by simp) f like, ih others fun c hc => each c (by simp [hc])]

include kin in
/-- Alike expressions evaluate alike, with calls by the names that they have in turn. -/
theorem expr_like (e : Expr) {f : Expr} (like : Expr.Like rename e f) (scope : Scope) :
    other.expr call rounds scope f =
      peg.expr (fun name => call (rename name)) rounds scope e := by
  induction e using Expr.byGrandchildren generalizing f scope with
  | node e below further =>
    funext start
    cases e with
    | literal | charClass | any =>
      obtain ⟨_, rfl⟩ := like
      simp only [expr, kin.leaf, kin.matcher]
    | predicate =>
      obtain ⟨_, rfl⟩ := like
      simp only [expr, kin.call]
    | foreign =>
      obtain rfl := like
      rfl
    | ruleRef info name =>
      obtain ⟨_, rfl⟩ := like
      rfl
    | sequence info es =>
      obtain ⟨_, fs, rfl, likes⟩ := like
      simp only [expr, row_like likes fun c hc f like scope => below c hc like scope]
    | choice info es =>
      obtain ⟨_, fs, rfl, likes⟩ := like
      simp only [expr, firstOf_like likes fun c hc f like scope => below c hc like scope]
    | labeled info label at? auto body | named info name body =>
      obtain ⟨_, b, rfl, inner⟩ := like
      simp only [expr, below body (by simp [Expr.children]) inner]
    | unary info operator body =>
      obtain ⟨_, b, rfl, inner⟩ := like
      simp only [expr, below body (by simp [Expr.children]) inner, kin.input]
    | range info min max body delimiter =>
      have admits := kin.admits like
      cases delimiter with
      | none =>
        obtain ⟨_, b, rfl, inner⟩ := like
        simp only [expr, admits, below body (by simp [Expr.children]) inner]
      | some separator =>
        obtain ⟨_, b, s, rfl, inner, between⟩ := like
        simp only [expr, admits, below body (by simp [Expr.children]) inner,
          below separator (by simp [Expr.children]) between]
    | action info code at? body =>
      obtain ⟨_, b, rfl, inner⟩ := like
      cases row : body.isRow with
      | true =>
        cases body with
        | sequence info es =>
          have further := further (.sequence info es) (by simp [Expr.children])
          obtain ⟨_, fs, rfl, likes⟩ := inner
          simp only [expr, row_like likes fun c hc f like scope => further c hc like scope, kin.act]
        | _ => cases row
      | false =>
        rw [expr_action row, expr_action (inner.root.1.trans row), kin.act, inner.extend,
          below body (by simp [Expr.children]) inner]

end Like

section Same

variable {peg other : Peg} (kin : Kin id peg other)

include kin in
theorem Kin.expr_eq : other.expr = peg.expr := by
  funext call rounds scope e
  exact expr_like kin e (.refl e) scope

include kin in
/-- With the same rules, kin evaluate all rules in the same way. -/
theorem Kin.rule_eq (grammar : other.grammar = peg.grammar) : other.rule = peg.rule := by
  funext fuel
  induction fuel with
  | zero => rfl
  | succ fuel ih =>
    funext name start
    simp only [rule, grammar, ih, kin.expr_eq]

end Same

theorem rule_upto (peg : Peg) {fuel fuel' : Nat} (more : fuel ≤ fuel') (name : Text) (start : Int) :
    Upto (peg.rule fuel name start) (peg.rule fuel' name start) := by
  induction fuel generalizing fuel' name start with
  | zero => exact .inl rfl
  | succ fuel ih =>
    obtain ⟨fuel', rfl⟩ := Nat.exists_eq_add_of_le' (Nat.le_trans (Nat.le_add_left 1 _) more)
    unfold rule
    split
    · exact expr_upto (by omega) _ (.all (ih (by omega)) _) _ _
    · exact .refl _

/-- What a rule gives does not depend on how much fuel there was, if it was enough. -/
theorem rule_of_ok {peg : Peg} {fuel : Nat} {name : Text} {start : Int}
    {matched : Option (Value × Int)} (ok : peg.rule fuel name start = .ok matched) {other : Nat}
    {result : Option (Value × Int)} (ok' : peg.rule other name start = .ok result) :
    matched = result := by
  have first := (peg.rule_upto (Nat.le_max_left fuel other) name start).eq_of_ok ok
  have second := (peg.rule_upto (Nat.le_max_right fuel other) name start).eq_of_ok ok'
  exact Except.ok.inj (first.symm.trans second)

/-- Where a rule gives something with fuel enough, only want of fuel keeps it from that. -/
theorem rule_raises_of_ok {peg : Peg} {fuel : Nat} {name : Text} {start : Int}
    {matched : Option (Value × Int)} (ok : peg.rule fuel name start = .ok matched) {other : Nat}
    {raised : Raise} (failed : peg.rule other name start = .error raised) : raised = .outOfFuel := by
  rcases Nat.le_total other fuel with less | more
  · rcases peg.rule_upto less name start with out | same
    · exact Except.error.inj (failed.symm.trans out)
    · cases failed.symm.trans (same.trans ok)
  · cases failed.symm.trans ((peg.rule_upto more name start).eq_of_ok ok)

end Peg

end PegCompiler
