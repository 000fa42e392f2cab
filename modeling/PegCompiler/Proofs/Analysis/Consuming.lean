import PegCompiler.Analysis.Consumption
import PegCompiler.Proofs.Grammar.Textual

/-!
What the consumption analysis answers. `Grammar.Consumes` is the least property of expressions that
justifies a yes: it follows references as often as it takes, but not for ever. The analysis cuts
recursion short, so it may say no where the property holds; where it says yes the property does hold.
-/

namespace PegCompiler

/-- Operators that leave it to the body whether something is consumed. -/
def Operator.handsOn : Operator → Bool
  | .text | .oneOrMore | .group => true
  | .followedBy | .notFollowedBy | .optional | .zeroOrMore => false

namespace Grammar

/-- Every match of the expression takes some of the input. -/
inductive Consumes (g : Grammar) : Expr → Prop
  | literal {info : Info} {value : Text} {ignoreCase : Bool} :
    value ≠ [] → Consumes g (.literal info value ignoreCase)
  | charClass {info : Info} {members : CharClass} :
    members.parts ≠ [] → Consumes g (.charClass info members)
  | any {info : Info} : Consumes g (.any info)
  | ruleRef {info : Info} {name : Text} {r : Rule} :
    g.find? name = some r → Consumes g r.body → Consumes g (.ruleRef info name)
  | sequence {info : Info} {elements : List Expr} {e : Expr} :
    e ∈ elements → Consumes g e → Consumes g (.sequence info elements)
  | choice {info : Info} {alternatives : List Expr} :
    (∀ e ∈ alternatives, Consumes g e) → Consumes g (.choice info alternatives)
  | labeled {info : Info} {label : Option Text} {at? : Option Location} {auto : Bool} {body : Expr} :
    Consumes g body → Consumes g (.labeled info label at? auto body)
  | unary {info : Info} {operator : Operator} {body : Expr} :
    operator.handsOn → Consumes g body → Consumes g (.unary info operator body)
  /-- The body is matched at least once. -/
  | rangeBody {info : Info} {n : Int} {max : Boundary} {body : Expr} {delimiter : Option Expr} :
    0 < n → Consumes g body → Consumes g (.range info (.count n) max body delimiter)
  /-- The delimiter is matched at least once. -/
  | rangeDelimiter {info : Info} {n : Int} {max : Boundary} {body separator : Expr} :
    1 < n → Consumes g separator → Consumes g (.range info (.count n) max body (some separator))
  | named {info : Info} {name : Text} {body : Expr} :
    Consumes g body → Consumes g (.named info name body)
  | action {info : Info} {code : Text} {at? : Option Location} {body : Expr} :
    Consumes g body → Consumes g (.action info code at? body)

end Grammar

namespace Consumption

theorem orElse_eq_true {first second : Decision} (h : orElse first second = .ok true) :
    first = .ok true ∨ first = .ok false ∧ second = .ok true := by
  unfold orElse at h
  split at h
  · exact .inr ⟨rfl, h⟩
  · exact .inl h

theorem andAlso_eq_true {first second : Decision} (h : andAlso first second = .ok true) :
    first = .ok true ∧ second = .ok true := by
  unfold andAlso at h
  split at h
  · exact ⟨rfl, h⟩
  · rename_i notTrue
    exact absurd h notTrue

variable {g : Grammar} {ofRule : Text → Decision}

theorem exists_of_anyOf {es : List Expr} (h : anyOf ofRule es = .ok true) :
    ∃ e ∈ es, expr ofRule e = .ok true := by
  induction es with
  | nil => cases h
  | cons e rest ih =>
    rcases orElse_eq_true h with first | ⟨-, others⟩
    · exact ⟨e, by simp, first⟩
    · obtain ⟨other, member, found⟩ := ih others
      exact ⟨other, by simp [member], found⟩

theorem forall_of_allOf {es : List Expr} (h : allOf ofRule es = .ok true) :
    ∀ e ∈ es, expr ofRule e = .ok true := by
  induction es with
  | nil => simp
  | cons e rest ih =>
    obtain ⟨first, others⟩ := andAlso_eq_true h
    simpa [first] using ih others

/-- A yes is right if the answers for references are. -/
theorem consumes_of_expr
    (rules : ∀ info name, ofRule name = .ok true → g.Consumes (.ruleRef info name)) (e : Expr) :
    e.Textual → expr ofRule e = .ok true → g.Consumes e := by
  induction e using Expr.byChildren with
  | node e ih =>
    intro textual h
    have below : ∀ c ∈ e.children, expr ofRule c = .ok true → g.Consumes c :=
      fun c hc => ih c hc (textual.child hc)
    cases e with
    | literal info value ignoreCase => exact .literal (by simpa [expr] using h)
    | charClass info members => exact .charClass (by simpa [expr] using h)
    | any info => exact .any
    | ruleRef info name => exact rules info name h
    | sequence info elements =>
      obtain ⟨e, member, found⟩ := exists_of_anyOf h
      exact .sequence member (below e member found)
    | choice info alternatives =>
      exact .choice fun e member => below e member (forall_of_allOf h e member)
    | labeled info label at? auto body => exact .labeled (below body (by simp [Expr.children]) h)
    | unary info operator body =>
      cases operator with
      | text | oneOrMore | group => exact .unary rfl (below body (by simp [Expr.children]) h)
      | followedBy | notFollowedBy | optional | zeroOrMore => simp [expr] at h
    | range info min max body delimiter =>
      have ofBody : body ∈ (Expr.range info min max body delimiter).children := by
        cases delimiter <;> simp [Expr.children]
      have least : min.IsLeast := textual.here.1
      unfold expr at h
      split at h
      · simp at h
      · simp at h
      · rename_i n nonzero
        have positive : 0 < n := by
          have : 0 ≤ n := least
          have : n ≠ 0 := by simpa using nonzero
          omega
        rcases orElse_eq_true h with first | ⟨-, second⟩
        · exact .rangeBody positive (below body ofBody first)
        · cases delimiter with
          | none => simp at second
          | some separator =>
            simp only at second
            split at second
            · exact .rangeDelimiter ‹_› (below separator (by simp [Expr.children]) second)
            · simp at second
      · rename_i limit _ notCount
        cases limit with
        | number n => exact absurd rfl (notCount n)
        | absent | text => exact absurd least id
    | named info name body => exact absurd textual.here id
    | action info code at? body => exact .action (below body (by simp [Expr.children]) h)
    | predicate info negative code => simp [expr] at h
    | foreign what => exact absurd textual.here id

theorem consumes_of_body
    (rules : ∀ info name, ofRule name = .ok true → g.Consumes (.ruleRef info name)) {e : Expr}
    (body : Rule.Body e) (h : expr ofRule e = .ok true) : g.Consumes e := by
  cases body with
  | plain textual => exact consumes_of_expr rules e textual h
  | displayed textual => exact .named (consumes_of_expr rules _ textual h)

theorem consumes_of_reference (textual : ∀ r ∈ g.rules, Rule.Body r.body) (depth : Nat)
    (active : List Text) (info : Info) (name : Text)
    (h : reference g depth active name = .ok true) : g.Consumes (.ruleRef info name) := by
  induction depth generalizing active info name with
  | zero => simp [reference] at h
  | succ depth ih =>
    unfold reference at h
    split at h
    · simp at h
    · rename_i found defined
      split at h
      · simp at h
      · have body := textual found (List.mem_of_find?_eq_some defined)
        exact .ruleRef defined (consumes_of_body (ih _) body h)

end Consumption

/-- Where the analysis says yes, every match consumes. -/
theorem Grammar.consumes_sound {g : Grammar} (textual : ∀ r ∈ g.rules, Rule.Body r.body) {e : Expr}
    (body : Rule.Body e) (h : g.consumes e = .ok true) : g.Consumes e :=
  Consumption.consumes_of_body (Consumption.consumes_of_reference textual _ _) body h

end PegCompiler
