import Mathlib.Logic.Function.Iterate
import PegCompiler.Proofs.Analysis.Consuming

/-!
The consumption analysis has an answer for every node that a text gives (`Grammar.decides_of_body`), and
it has it by itself: rules are not entered while they are active, so that it never takes more steps into
each other than there are rules (`Consumption.refer_iterate`).
-/

namespace PegCompiler

namespace Consumption

variable {g : Grammar} {ofRule : Text → Decision}

theorem orElse_decided {first second : Decision} (h : ∃ truth, first = .ok truth)
    (k : ∃ truth, second = .ok truth) : ∃ truth, orElse first second = .ok truth := by
  obtain ⟨truth, rfl⟩ := h
  cases truth with
  | true => exact ⟨true, rfl⟩
  | false => exact k

theorem andAlso_decided {first second : Decision} (h : ∃ truth, first = .ok truth)
    (k : ∃ truth, second = .ok truth) : ∃ truth, andAlso first second = .ok truth := by
  obtain ⟨truth, rfl⟩ := h
  cases truth with
  | true => exact k
  | false => exact ⟨false, rfl⟩

/-- On what a text gives the analysis meets no fault. -/
theorem expr_decided (rules : ∀ name, ∃ truth, ofRule name = .ok truth) (e : Expr) :
    e.Textual → ∃ truth, expr ofRule e = .ok truth := by
  induction e using Expr.byChildren with
  | node e ih =>
    intro textual
    have below : ∀ c ∈ e.children, ∃ truth, expr ofRule c = .ok truth :=
      fun c hc => ih c hc (textual.child hc)
    cases e with
    | literal | charClass | any | predicate => exact ⟨_, rfl⟩
    | ruleRef info name => exact rules name
    | sequence info es =>
      simp only [Expr.children] at below
      change ∃ truth, anyOf ofRule es = .ok truth
      clear ih textual
      induction es with
      | nil => exact ⟨false, rfl⟩
      | cons e rest ih =>
        exact orElse_decided (below e (by simp)) (ih fun c hc => below c (by simp [hc]))
    | choice info es =>
      simp only [Expr.children] at below
      change ∃ truth, allOf ofRule es = .ok truth
      clear ih textual
      induction es with
      | nil => exact ⟨true, rfl⟩
      | cons e rest ih =>
        exact andAlso_decided (below e (by simp)) (ih fun c hc => below c (by simp [hc]))
    | labeled info label at? auto body | action info code at? body =>
      exact below body (by simp [Expr.children])
    | unary info operator body =>
      cases operator with
      | text | oneOrMore | group => exact below body (by simp [Expr.children])
      | followedBy | notFollowedBy | optional | zeroOrMore => exact ⟨false, rfl⟩
    | range info min max body delimiter =>
      have ofBody := below body (by cases delimiter <;> simp [Expr.children])
      have least : min.IsLeast := textual.here.1
      unfold expr
      split
      · exact ⟨_, rfl⟩
      · exact ⟨_, rfl⟩
      · refine orElse_decided ofBody ?_
        cases delimiter with
        | none => exact ⟨_, rfl⟩
        | some separator =>
          simp only
          split
          · exact below separator (by simp [Expr.children])
          · exact ⟨_, rfl⟩
      · rename_i limit _ notCount
        cases limit with
        | number n => exact absurd rfl (notCount n)
        | absent | text => exact absurd least id
    | named | foreign => exact absurd textual.here id

theorem body_decided (rules : ∀ name, ∃ truth, ofRule name = .ok truth) {e : Expr}
    (body : Rule.Body e) : ∃ truth, expr ofRule e = .ok truth := by
  cases body with
  | plain textual => exact expr_decided rules e textual
  | @displayed info name inner textual =>
    exact (expr_decided rules inner textual : ∃ truth, expr ofRule inner = .ok truth)

theorem reference_decided (textual : ∀ r ∈ g.rules, Rule.Body r.body) (depth : Nat)
    (active : List Text) (name : Text) : ∃ truth, reference g depth active name = .ok truth := by
  induction depth generalizing active name with
  | zero => exact ⟨false, rfl⟩
  | succ depth ih =>
    unfold reference
    split
    · exact ⟨_, rfl⟩
    · rename_i found defined
      split
      · exact ⟨_, rfl⟩
      · exact body_decided (ih _) (textual found (List.mem_of_find?_eq_some defined))

/-- One step of the analysis of a reference, with `below` for those that it meets. -/
def refer (g : Grammar) (below : List Text → Text → Decision) (active : List Text) (name : Text) :
    Decision :=
  match g.find? name with
  | none => .ok false
  | some found =>
    if active.contains found.name then .ok false else expr (below (found.name :: active)) found.body

/-- The analysis of a reference ends by itself: what lies more steps deep than there are rules does
not matter, since all rules are active there. -/
theorem refer_iterate (bottom : List Text → Text → Decision) (depth : Nat) (active : List Text)
    (distinct : g.Distinct active) (deep : g.rules.length ≤ depth + active.length) (name : Text) :
    (refer g)^[depth + 1] bottom active name = reference g depth active name := by
  induction depth generalizing active name with
  | zero =>
    change refer g bottom active name = .ok false
    unfold refer
    split
    · rfl
    · rename_i found defined
      split
      · rfl
      · rename_i fresh
        have more := distinct.cons (Grammar.mem_ruleNames_of_find? defined) (by simpa using fresh)
        have bound := more.length_le
        simp only [List.length_cons] at bound
        omega
  | succ depth ih =>
    rw [Function.iterate_succ_apply']
    change refer g _ active name = refer g (reference g depth) active name
    unfold refer
    cases defined : g.find? name with
    | none => rfl
    | some found =>
      simp only
      split
      · rfl
      · rename_i fresh
        have more := distinct.cons (Grammar.mem_ruleNames_of_find? defined) (by simpa using fresh)
        refine congrArg (expr · found.body) (funext fun name => ih _ more ?_ name)
        simp only [List.length_cons]
        omega

end Consumption

/-- The analysis has an answer for every node. -/
def Grammar.Decides (g : Grammar) (e : Expr) : Prop :=
  e.Everywhere fun c => c.Native ∧ ∃ truth, g.consumes c = .ok truth

theorem Grammar.decides_of_body {g : Grammar} (textual : ∀ r ∈ g.rules, Rule.Body r.body) {e : Expr}
    (body : Rule.Body e) : g.Decides e :=
  body.everywhere.mono fun _ body => ⟨body.native,
    Consumption.body_decided (Consumption.reference_decided textual _ _) body⟩

end PegCompiler
