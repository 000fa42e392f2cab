import PegCompiler.Proofs.Run.Correctness

/-!
Evaluation moves on where the analysis says so. A match never ends before it began, and behind that if
the expression consumes (`Peg.expr_forward`); this holds of all grammars, also where their rules call
themselves or each other without end, because a match is found in a finite number of calls. With the
soundness of the analysis, every match of a node that it finds consuming takes some of the input
(`Grammar.consumes_moves`).
-/

namespace PegCompiler

namespace ParserState

/-- A primitive that matches goes on from where it is, by some code points at least if `consuming`. -/
def Forward (consuming : Prop)
    (primitive : ParserState → Except Raise (Option Text × ParserState)) : Prop :=
  ∀ s text after, primitive s = .ok (some text, after) →
    ∃ n : Nat, after = s.advance n ∧ (consuming → 0 < n)

theorem forward_matchOne (accepts : CodePoint → Bool) : Forward True (·.matchOne accepts) := by
  intro s text after matched
  simp only [matchOne] at matched
  cases peeked : s.peek with
  | error raised =>
    rw [peeked] at matched
    cases matched
  | ok next =>
    rw [peeked] at matched
    simp only [bind, Except.bind, pure, Except.pure] at matched
    cases next with
    | none => cases matched
    | some c =>
      simp only at matched
      split at matched <;> cases matched
      exact ⟨1, rfl, fun _ => Nat.one_pos⟩

theorem forward_matchClass (matcher : ClassMatcher) : Forward True (·.matchClass matcher) := by
  intro s text after matched
  simp only [matchClass] at matched
  split at matched
  · cases matched
  · split at matched
    · exact forward_matchOne _ s text after matched
    · cases matched

theorem forward_matchLiteral (literal : Text) :
    Forward (literal ≠ []) fun s => .ok (s.matchLiteral literal) := by
  intro s text after matched
  simp only [matchLiteral] at matched
  split at matched <;> cases matched
  exact ⟨literal.length, rfl, List.length_pos_iff.mpr⟩

/-- The chunk of the input that is the same in lower case is not empty, whatever its length is. -/
theorem forward_matchLowercase (lowered : Text) :
    Forward (lowered ≠ []) fun s => .ok (s.matchLowercase lowered) := by
  intro s text after matched
  simp only [matchLowercase] at matched
  split at matched <;> cases matched
  rename_i same
  refine ⟨_, rfl, fun nonempty => List.length_pos_iff.mpr fun empty => nonempty ?_⟩
  rw [← same, empty]
  rfl

end ParserState

namespace Peg

/-- Where there is a result, it is as `P` says. -/
def Yields {α : Type} (result : Except Raise α) (P : α → Prop) : Prop := ∀ a, result = .ok a → P a

namespace Yields

variable {α β : Type} {P : α → Prop} {Q : β → Prop}

theorem pure {a : α} (h : P a) : Yields (.ok a) P := by
  intro b same
  cases same
  exact h

theorem throw {raised : Raise} : Yields (.error raised : Except Raise α) P := nofun

theorem bind {result : Except Raise α} {next : α → Except Raise β}
    (h : ∀ a, result = .ok a → Yields (next a) Q) : Yields (result >>= next) Q := by
  cases result with
  | error raised => exact throw
  | ok a => exact h a rfl

theorem mono {result : Except Raise α} {P' : α → Prop} (h : Yields result P)
    (imp : ∀ a, P a → P' a) : Yields result P' :=
  fun a same => imp a (h a same)

end Yields

/-- Every match ends no earlier than it began, and later than that if `consuming`. -/
def Forward (consuming : Prop) (evaluate : Int → Result) : Prop :=
  ∀ start, Yields (evaluate start) fun matched =>
    ∀ value stop, matched = some (value, stop) → start ≤ stop ∧ (consuming → start < stop)

section Steps

variable {peg : Peg} {rounds : Nat} {element separator : Int → Result} {consumes between : Prop}

theorem Forward.mono {evaluate : Int → Result} {consuming : Prop} (forward : Forward consumes evaluate)
    (imp : consuming → consumes) : Forward consuming evaluate :=
  fun start => (forward start).mono fun _ found value stop same =>
    (found value stop same).imp_right fun moves h => moves (imp h)

/-- A range that is not entered gives nothing. -/
theorem entered_forward {evaluate : Int → Result} {consuming admitted : Prop} [Decidable admitted]
    (forward : Forward consuming evaluate) :
    Forward consuming fun start => if admitted then evaluate start else throw .wrongType := by
  intro start
  split
  · exact forward start
  · exact .throw

theorem leaf_forward {primitive : ParserState → Except Raise (Option Text × ParserState)}
    {consuming : Prop} (forward : ParserState.Forward consuming primitive) :
    Forward consuming (peg.leaf primitive) := by
  intro start
  refine .bind fun (matched, after) given => .pure fun value stop same => ?_
  cases matched with
  | none => cases same
  | some text =>
    cases same
    obtain ⟨n, rfl, moves⟩ := forward _ _ _ given
    have here : ((peg.state start start).advance n).offset = start + n := rfl
    rw [here]
    exact ⟨by omega, fun h => by have := moves h; omega⟩

theorem once_yields {α : Type} {P : α → Prop} {result : Except Raise α} (h : Yields result P) :
    Yields (once rounds result) P := by
  cases rounds with
  | zero => exact .throw
  | succ => exact h

/-- Collecting never goes back. -/
theorem collect_forward (each : Forward consumes element) (enough : Nat → Except Raise Bool)
    (start : Int) (items : List Value) :
    Yields (collect enough element rounds start items) fun (all, stop) =>
      start ≤ stop ∧ items.length ≤ all.length ∧
        (items.length < all.length → consumes → start < stop) := by
  induction rounds generalizing start items with
  | zero => exact .throw
  | succ rounds ih =>
    refine .bind fun full _ => ?_
    cases full with
    | true => exact .pure ⟨Int.le_refl _, Nat.le_refl _, by omega⟩
    | false =>
      refine .bind fun matched given => ?_
      cases matched with
      | none => exact .pure ⟨Int.le_refl _, Nat.le_refl _, by omega⟩
      | some found =>
        obtain ⟨item, next⟩ := found
        obtain ⟨onward, moves⟩ := each start _ given item next rfl
        refine (ih next (items ++ [item])).mono fun (all, stop) reaches => ?_
        obtain ⟨further, more, -⟩ := reaches
        simp only [List.length_append, List.length_singleton] at more
        exact ⟨by omega, by omega, fun _ h => by have := moves h; omega⟩

/-- Where collecting ends that begins an element at `start`, with a delimiter from `back` on before it. It
falls back to `back` at the worst. With one more element it has gone on, by some of the input if that
consumes, and also if the delimiter does and there are several. -/
structure Ahead (consumes between : Prop) (start back : Int) (count all : Nat) (stop : Int) : Prop where
  back_le : back ≤ stop
  count_le : count ≤ all
  more : count < all → start ≤ stop ∧ (consumes → start < stop)
  several : count + 1 < all → between → start < stop

/-- The same with a delimiter. What is given back is a delimiter, and no match lies behind it. -/
theorem separate_forward (each : Forward consumes element) (apart : Forward between separator)
    (enough : Nat → Except Raise Bool) {start back : Int} (behind : back ≤ start)
    (items : List Value) :
    Yields (separate enough element separator rounds start back items) fun found =>
      Ahead consumes between start back items.length found.1.length found.2 := by
  induction rounds generalizing start back items with
  | zero => exact .throw
  | succ rounds ih =>
    refine .bind fun matched given => ?_
    cases matched with
    | none => exact .pure ⟨Int.le_refl _, Nat.le_refl _, by simp, by simp⟩
    | some found =>
      obtain ⟨item, middle⟩ := found
      obtain ⟨onward, moves⟩ := each start _ given item middle rfl
      have one : (items ++ [item]).length = items.length + 1 := by simp
      have ends : Ahead consumes between start back items.length (items ++ [item]).length middle :=
        ⟨by omega, by omega, fun _ => ⟨onward, moves⟩, by omega⟩
      refine .bind fun full _ => ?_
      cases full with
      | true => exact .pure ends
      | false =>
        refine .bind fun passed given => ?_
        cases passed with
        | none => exact .pure ends
        | some found =>
          obtain ⟨_, next⟩ := found
          obtain ⟨onward', moves'⟩ := apart middle _ given _ next rfl
          refine (ih onward' (items ++ [item])).mono fun found reaches => ?_
          obtain ⟨further, count, more, -⟩ := reaches
          rw [one] at count more
          refine ⟨by omega, by omega, fun _ => ⟨by omega, fun h => ?_⟩, fun several h => ?_⟩
          · have := moves h
            omega
          · have := moves' h
            have := (more several).1
            omega

theorem not_lt_of_fewer {scope : Scope} {n : Int} {count : Nat}
    (few : fewer scope (.count n) count = .ok false) : ¬(count : Int) < n := by
  simpa [fewer, bound?, bind, Except.bind, pure, Except.pure, Number.exceeds] using few

/-- A repetition that has a least number consumes if its element does, or its delimiter where there
are several elements. -/
theorem repetition_forward (each : Forward consumes element) (scope : Scope) (min max : Boundary) :
    Forward ((∃ n, min = .count n ∧ 0 < n) ∧ consumes)
      (repetition rounds scope min max element none) := by
  intro start
  refine .bind fun (items, stop) given => .bind fun missing few => ?_
  obtain ⟨onward, -, moves⟩ := collect_forward each _ start [] _ given
  cases missing with
  | true => exact .pure nofun
  | false =>
    refine .pure fun value last same => ?_
    cases same
    refine ⟨onward, ?_⟩
    rintro ⟨⟨n, rfl, least⟩, h⟩
    have many := not_lt_of_fewer few
    exact moves (by simp only [List.length_nil]; omega) h

theorem repetition_between_forward (each : Forward consumes element)
    (apart : Forward between separator) (scope : Scope) (min max : Boundary) :
    Forward ((∃ n, min = .count n ∧ (0 < n ∧ consumes ∨ 1 < n ∧ between)))
      (repetition rounds scope min max element (some separator)) := by
  intro start
  refine .bind fun (items, stop) given => .bind fun missing few => ?_
  have gathers : Yields (gather rounds scope max element (some separator) start) fun (all, stop) =>
      start ≤ stop ∧ (0 < all.length → consumes → start < stop) ∧
        (1 < all.length → between → start < stop) := by
    refine once_yields (.bind fun full _ => ?_)
    cases full with
    | true => exact .pure ⟨Int.le_refl _, by simp, by simp⟩
    | false =>
      refine (separate_forward each apart _ (Int.le_refl start) []).mono fun (all, stop) reaches => ?_
      obtain ⟨onward, -, ahead, moves⟩ := reaches
      exact ⟨onward, fun some => (ahead some).2, moves⟩
  obtain ⟨onward, moves, moves'⟩ := gathers _ given
  cases missing with
  | true => exact .pure nofun
  | false =>
    refine .pure fun value last same => ?_
    cases same
    refine ⟨onward, ?_⟩
    rintro ⟨n, rfl, either⟩
    have many := not_lt_of_fewer few
    rcases either with ⟨least, h⟩ | ⟨least, h⟩
    · exact moves (by omega) h
    · exact moves' (by omega) h

end Steps

section Expressions

variable {peg : Peg} {g : Grammar} {call : Text → Int → Result} {rounds : Nat}

/-- A row goes on with every element. -/
theorem row_forward {es : List Expr}
    (each : ∀ e ∈ es, ∀ scope, Forward (g.Consumes e) (peg.expr call rounds scope e))
    (scope : Scope) (autos values : List Value) (start : Int) :
    Yields (row peg call rounds scope autos values es start) fun matched =>
      ∀ row, matched = some row →
        start ≤ row.stop ∧ ((∃ e ∈ es, g.Consumes e) → start < row.stop) := by
  induction es generalizing scope autos values start with
  | nil =>
    refine .pure fun row same => ?_
    cases same
    simp
  | cons e rest ih =>
    refine .bind fun matched given => ?_
    cases matched with
    | none => exact .pure nofun
    | some found =>
      obtain ⟨value, next⟩ := found
      obtain ⟨onward, moves⟩ := each e (by simp) scope start _ given value next rfl
      refine (ih (fun c hc => each c (by simp [hc])) _ _ _ next).mono fun _ reaches row same => ?_
      obtain ⟨further, moves'⟩ := reaches row same
      refine ⟨by omega, ?_⟩
      rintro ⟨c, member, h⟩
      rcases List.mem_cons.mp member with rfl | member
      · have := moves h
        omega
      · have := moves' ⟨c, member, h⟩
        omega

theorem firstOf_forward {es : List Expr} (scope : Scope)
    (each : ∀ e ∈ es, Forward (g.Consumes e) (peg.expr call rounds scope e)) :
    Forward (∀ e ∈ es, g.Consumes e) (firstOf peg call rounds scope es) := by
  induction es with
  | nil => exact fun start => .pure nofun
  | cons e rest ih =>
    refine fun start => .bind fun matched given => ?_
    cases matched with
    | some found =>
      refine .pure fun value stop same => ?_
      cases same
      exact (each e (by simp) start _ given value stop rfl).imp_right fun moves h => moves (h e (by simp))
    | none =>
      exact (ih fun c hc => each c (by simp [hc])).mono (fun h c hc => h c (by simp [hc])) start

/-- An action sees the match, and leaves it where it is. -/
theorem act_forward {code : Text} {start : Int} {found : Option (Scope × Int)} {consuming : Prop}
    (h : ∀ scope stop, found = some (scope, stop) → start ≤ stop ∧ (consuming → start < stop)) :
    Yields (peg.act code start found) fun matched =>
      ∀ value stop, matched = some (value, stop) → start ≤ stop ∧ (consuming → start < stop) := by
  cases found with
  | none => exact .pure nofun
  | some found =>
    refine .bind fun value _ => .pure fun value stop same => ?_
    cases same
    exact h _ _ rfl

theorem literal_forward (info : Info) (value : Text) (ignoreCase : Bool) (scope : Scope) :
    Forward (value ≠ []) (peg.expr call rounds scope (.literal info value ignoreCase)) := by
  intro start
  unfold expr
  split
  · rename_i empty
    refine .pure fun text stop same => ?_
    cases same
    exact ⟨Int.le_refl _, fun nonempty => absurd (List.isEmpty_iff.mp empty) nonempty⟩
  · cases ignoreCase with
    | true =>
      exact (leaf_forward (ParserState.forward_matchLowercase _)).mono
        Text.lowercase_eq_nil_iff.not.mpr start
    | false => exact leaf_forward (ParserState.forward_matchLiteral value) start

/-- Of the operators, those that hand the match on consume what their operand does. -/
theorem operator_forward {body : Expr} {scope : Scope} {consumes : Prop} (info : Info)
    (operator : Operator) (inner : Forward consumes (peg.expr call rounds scope body)) :
    Forward (operator.handsOn = true ∧ consumes)
      (peg.expr call rounds scope (.unary info operator body)) := by
  cases operator with
  | group => exact inner.mono And.right
  | text =>
    refine fun start => .bind fun matched given => .pure fun value stop same => ?_
    obtain ⟨⟨_, _⟩, rfl, here⟩ := Option.map_eq_some_iff.mp same
    cases here
    exact (inner start _ given _ _ rfl).imp_right fun moves h => moves h.2
  | followedBy =>
    refine fun start => .bind fun matched given => .pure fun value stop same => ?_
    obtain ⟨_, rfl, here⟩ := Option.map_eq_some_iff.mp same
    cases here
    exact ⟨Int.le_refl _, fun h => absurd h.1 Bool.false_ne_true⟩
  | notFollowedBy =>
    refine fun start => .bind fun matched given => ?_
    split
    · exact .pure (by simp)
    · refine .pure fun value stop same => ?_
      cases same
      exact ⟨Int.le_refl _, fun h => absurd h.1 Bool.false_ne_true⟩
  | optional =>
    refine fun start => .bind fun matched given => .pure fun value stop same => ?_
    cases matched with
    | none =>
      cases same
      exact ⟨Int.le_refl _, fun h => absurd h.1 Bool.false_ne_true⟩
    | some found =>
      cases same
      exact (inner start _ given value stop rfl).imp_right fun moves h => moves h.2
  | zeroOrMore =>
    exact (repetition_forward inner scope _ _).mono fun h => absurd h.1 Bool.false_ne_true
  | oneOrMore =>
    exact (repetition_forward inner scope _ _).mono fun h => ⟨⟨1, rfl, Int.one_pos⟩, h.2⟩

/-- An action over a row is evaluated with the labels of the row, any other with its own scope. -/
theorem action_forward {body : Expr} (info : Info) (code : Text) (at? : Option Location)
    (scope : Scope) (inner : ∀ scope, Forward (g.Consumes body) (peg.expr call rounds scope body))
    (elements : ∀ e ∈ body.children, ∀ scope,
      Forward (g.Consumes e) (peg.expr call rounds scope e)) :
    Forward (g.Consumes body) (peg.expr call rounds scope (.action info code at? body)) := by
  intro start
  cases row : body.isRow with
  | true =>
    cases body with
    | sequence info es =>
      refine .bind fun matched given => act_forward fun scope stop same => ?_
      obtain ⟨row, rfl, here⟩ := Option.map_eq_some_iff.mp same
      cases here
      refine (once_yields (row_forward elements _ [] [] start) _ given row rfl).imp_right
        fun moves consumes => ?_
      cases consumes with
      | sequence member h => exact moves ⟨_, member, h⟩
    | _ => cases row
  | false =>
    rw [expr_action row]
    refine .bind fun matched given => act_forward fun scope stop same => ?_
    obtain ⟨⟨_, _⟩, rfl, here⟩ := Option.map_eq_some_iff.mp same
    cases here
    exact inner _ start _ given _ _ rfl

/-- Every match of an expression goes on, if those of the rules that it calls do. -/
theorem expr_forward
    (calls : ∀ info name, Forward (g.Consumes (.ruleRef info name)) (call name)) (e : Expr)
    (scope : Scope) : Forward (g.Consumes e) (peg.expr call rounds scope e) := by
  induction e using Expr.byGrandchildren generalizing scope with
  | node e below further =>
    cases e with
    | literal info value ignoreCase =>
      refine (literal_forward info value ignoreCase scope).mono fun consumes => ?_
      cases consumes with
      | literal nonempty => exact nonempty
    | charClass info members =>
      intro start
      unfold expr
      split
      · exact .pure (by simp)
      · exact (leaf_forward (ParserState.forward_matchClass _)).mono (fun _ => trivial) start
    | any => exact (leaf_forward (ParserState.forward_matchOne _)).mono fun _ => trivial
    | ruleRef info name => exact calls info name
    | foreign => exact fun start => .throw
    | predicate info negative code =>
      refine fun start => .bind fun value _ => ?_
      split
      · refine .pure fun value stop same => ?_
        cases same
        exact ⟨Int.le_refl _, fun h => by cases h⟩
      · exact .pure (by simp)
    | sequence info es =>
      refine fun start => .bind fun matched given => .pure fun value stop same => ?_
      obtain ⟨row, rfl, here⟩ := Option.map_eq_some_iff.mp same
      cases here
      refine (once_yields (row_forward below scope [] [] start) _ given row rfl).imp_right
        fun moves consumes => ?_
      cases consumes with
      | sequence member h => exact moves ⟨_, member, h⟩
    | choice info es =>
      refine fun start => once_yields ((firstOf_forward scope fun c hc => below c hc scope).mono
        (fun consumes => ?_) start)
      cases consumes with
      | choice each => exact each
    | labeled info label at? auto body =>
      refine (below body (by simp [Expr.children]) scope).mono fun consumes => ?_
      cases consumes with
      | labeled h => exact h
    | named info name body =>
      refine (below body (by simp [Expr.children]) scope).mono fun consumes => ?_
      cases consumes with
      | named h => exact h
    | unary info operator body =>
      refine (operator_forward info operator (below body (by simp [Expr.children]) scope)).mono
        fun consumes => ?_
      cases consumes with
      | unary hands h => exact ⟨hands, h⟩
    | range info min max body delimiter =>
      cases delimiter with
      | none =>
        refine (entered_forward
          (repetition_forward (below body (by simp [Expr.children]) scope) scope min max)).mono
          fun consumes => ?_
        cases consumes with
        | rangeBody least h => exact ⟨⟨_, rfl, least⟩, h⟩
      | some separator =>
        refine (entered_forward (repetition_between_forward (below body (by simp [Expr.children]) scope)
          (below separator (by simp [Expr.children]) scope) scope min max)).mono fun consumes => ?_
        cases consumes with
        | rangeBody least h => exact ⟨_, rfl, .inl ⟨least, h⟩⟩
        | rangeDelimiter several h => exact ⟨_, rfl, .inr ⟨several, h⟩⟩
    | action info code at? body =>
      refine (action_forward info code at? scope (below body (by simp [Expr.children]))
        (further body (by simp [Expr.children]))).mono fun consumes => ?_
      cases consumes with
      | action h => exact h

/-- Every match of a rule goes on, however deep the calls are that it takes. -/
theorem rule_forward (peg : Peg) (fuel : Nat) (info : Info) (name : Text) :
    Forward (peg.grammar.Consumes (.ruleRef info name)) (peg.rule fuel name) := by
  induction fuel generalizing info name with
  | zero => exact fun start => .throw
  | succ fuel ih =>
    intro start
    unfold rule
    split
    · rename_i r found
      refine (expr_forward ih r.body []).mono (fun consumes => ?_) start
      cases consumes with
      | ruleRef found' h =>
        rw [found] at found'
        cases found'
        exact h
    · exact .throw

end Expressions

end Peg

namespace Grammar

/-- Every match of a node for which the analysis says yes ends behind the place where it began. -/
theorem consumes_moves {text : Text} {source : Option Text} {g : Grammar}
    (read : Grammar.read text source = .ok g) {r : Rule} (member : r ∈ g.rules) :
    r.body.Everywhere fun e => g.consumes e = .ok true →
      ∀ (semantics : Semantics) (state : ParserState) (fuel rounds : Nat) (scope : Scope)
        (value : Value) (stop : Int),
        (g.evaluator semantics state).expr ((g.evaluator semantics state).rule fuel) rounds scope e
          state.offset = .ok (some (value, stop)) →
        state.offset < stop := by
  have textual := bodies_of_read read
  refine (textual r member).everywhere.mono fun e body yes semantics state fuel rounds scope value
    stop matched => ?_
  have consumes := g.consumes_sound textual body yes
  exact (Peg.expr_forward (Peg.rule_forward _ fuel) e scope _ _ matched value stop rfl).2 consumes

/-! A sample: two rules that call each other, one of them from between matches of nothing. -/

def separatedText : Text := .ofString "s = 'a'i t / 'b'\nt = ''|2.., s| / s"

def separatedState : ParserState := { input := .ofString "Abb" }

/-- The first rule is found consuming, and matches all of a sample. -/
def separatesSample (g : Grammar) : Bool :=
  match g.rules[0]? with
  | none => false
  | some r =>
    match g.consumes r.body, (g.evaluator countingSemantics separatedState).expr
        ((g.evaluator countingSemantics separatedState).rule 6) 6 [] r.body 0 with
    | .ok true, .ok (some (_, 3)) => true
    | _, _ => false

theorem separated_moves : ∃ g r value, Grammar.read separatedText none = .ok g ∧ r ∈ g.rules ∧
    g.consumes r.body = .ok true ∧
    (g.evaluator countingSemantics separatedState).expr
      ((g.evaluator countingSemantics separatedState).rule 6) 6 [] r.body 0 =
        .ok (some (value, 3)) ∧
    (0 : Int) < 3 := by
  obtain ⟨g, read, -, passes⟩ := exists_of_accepted
    (show (accepted? plainSettings separatedText).any separatesSample = true by decide +kernel)
  unfold separatesSample at passes
  split at passes
  · cases passes
  · rename_i r at?
    have member := List.mem_of_getElem? at?
    split at passes
    · rename_i value yes matched
      exact ⟨g, r, value, read, member, yes, matched,
        (consumes_moves read member).here yes countingSemantics separatedState 6 6 [] value 3 matched⟩
    · cases passes

end Grammar

end PegCompiler
