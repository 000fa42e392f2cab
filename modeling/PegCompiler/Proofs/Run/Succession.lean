import PegCompiler.Proofs.Proxy.Redirect
import PegCompiler.Proofs.Run.Correctness

/-!
Passes keep what rules evaluate to. Two families of evaluations, one for every amount of fuel, are
equivalent if each comes to what the other one comes to, perhaps with more fuel. In a grammar that
succeeds another one a reference may skip a proxy, and so take less fuel; every rule of it evaluates to
what the rule of that name did before (`Grammar.Descends.equivalent`).
-/

namespace PegCompiler

namespace Peg

/-- What comes of the first evaluation comes of the second one, with fuel of its own. -/
def Tracks (evaluate other : Nat → Result) : Prop :=
  ∀ fuel, ∃ more, Upto (evaluate fuel) (other more)

structure Equivalent (evaluate other : Nat → Result) : Prop where
  onward : Tracks evaluate other
  back : Tracks other evaluate

namespace Equivalent

variable {evaluate other third : Nat → Result}

theorem refl (evaluate : Nat → Result) : Equivalent evaluate evaluate :=
  ⟨fun fuel => ⟨fuel, .refl _⟩, fun fuel => ⟨fuel, .refl _⟩⟩

theorem trans (first : Equivalent evaluate other) (second : Equivalent other third) :
    Equivalent evaluate third := by
  constructor
  · intro fuel
    obtain ⟨more, upto⟩ := first.onward fuel
    obtain ⟨most, further⟩ := second.onward more
    exact ⟨most, upto.trans further⟩
  · intro fuel
    obtain ⟨more, upto⟩ := second.back fuel
    obtain ⟨most, further⟩ := first.back more
    exact ⟨most, upto.trans further⟩

/-- Equivalent evaluations that keep what they have come to come to the same. -/
theorem settled (equivalent : Equivalent evaluate other)
    (grows : ∀ fuel fuel', fuel ≤ fuel' → Upto (evaluate fuel) (evaluate fuel'))
    (grows' : ∀ fuel fuel', fuel ≤ fuel' → Upto (other fuel) (other fuel')) {enough : Nat}
    {result : Result} (ends : ∀ fuel ≥ enough, evaluate fuel = result) :
    ∃ enough, ∀ fuel ≥ enough, other fuel = result := by
  by_cases out : result = .error .outOfFuel
  · -- then the first one never comes to anything else, and neither does the second one
    have never (fuel : Nat) : evaluate fuel = result := by
      have upto := grows fuel (max fuel enough) (Nat.le_max_left ..)
      rw [ends _ (Nat.le_max_right ..)] at upto
      rcases upto with early | same
      · exact early.trans out.symm
      · exact same
    refine ⟨0, fun fuel _ => ?_⟩
    obtain ⟨more, upto⟩ := equivalent.back fuel
    rcases upto with early | same
    · exact early.trans out.symm
    · exact same.trans (never more)
  · obtain ⟨more, upto⟩ := equivalent.onward enough
    rw [ends enough (Nat.le_refl _)] at upto
    have here : other more = result := (upto.resolve_left out).symm
    refine ⟨more, fun fuel most => ?_⟩
    have upto := grows' more fuel most
    rw [here] at upto
    exact (upto.resolve_left out).symm

end Equivalent

end Peg

/-- What holds of the names in an expression holds of the new names in one that it is like. -/
theorem Expr.Like.refers {rename : Text → Text} {P : Text → Prop} {e f : Expr}
    (like : Expr.Like rename e f) (refers : f.Refers P) : e.Refers fun name => P (rename name) := by
  induction e using Expr.byChildren generalizing f with
  | node e ih =>
    refine .node ?_ fun c hc => ?_
    · cases e with
      | ruleRef info name =>
        obtain ⟨_, rfl⟩ := like
        exact refers.here
      | _ => trivial
    · obtain ⟨b, member, below⟩ := like.below.mem_left hc
      exact ih c hc below (refers.child member)

namespace Grammar

variable {g h : Grammar} {rename : Text → Text} (semantics : Semantics) (state : ParserState)

/-- Only the rules are different. -/
theorem evaluator_kin (g h : Grammar) :
    Peg.Kin rename (g.evaluator semantics state) (h.evaluator semantics state) :=
  ⟨rfl, rfl, rfl, fun _ => rfl, fun _ _ _ _ _ => rfl⟩

namespace Succeeds

variable (succeeds : Succeeds rename g h) (accepted : g.Accepted)

include succeeds accepted

/-- What a rule evaluates to before, it evaluates to behind, with no more fuel. -/
theorem rule_onward (fuel : Nat) {name : Text} (defined : h.defines name = true) (start : Int) :
    Peg.Upto ((g.evaluator semantics state).rule fuel name start)
      ((h.evaluator semantics state).rule fuel name start) := by
  induction fuel using Nat.strongRecOn generalizing name start with
  | ind fuel ih =>
    cases fuel with
    | zero => exact .inl rfl
    | succ fuel =>
      obtain ⟨s, found⟩ := Option.isSome_iff_exists.mp defined
      obtain ⟨r, before, -, like⟩ := succeeds.find? accepted found
      have resolves := succeeds.resolves s (List.mem_of_find?_eq_some found)
      simp only [Peg.rule, show (g.evaluator semantics state).grammar.find? name = some r from before,
        show (h.evaluator semantics state).grammar.find? name = some s from found,
        Peg.expr_like (evaluator_kin semantics state g h) r.body like]
      refine Peg.expr_upto (Nat.le_refl _) _ ((like.refers (Resolves.refers resolves)).imp ?_) [] start
      intro name here start
      rcases succeeds.proxy name with same | ⟨p, info, found, only⟩
      · rw [same] at here ⊢
        exact ih fuel (Nat.lt_succ_self _) here start
      · -- the proxy takes a call of its own
        cases fuel with
        | zero => exact .inl rfl
        | succ fuel =>
          have skip : (g.evaluator semantics state).rule (fuel + 1) name start =
              (g.evaluator semantics state).rule fuel (rename name) start := by
            simp only [Peg.rule,
              show (g.evaluator semantics state).grammar.find? name = some p from found, only, Peg.expr]
          rw [skip]
          exact (ih fuel (by omega) here start).trans (Peg.rule_upto _ (Nat.le_succ _) _ _)

/-- What a rule evaluates to behind, it evaluates to before, with fuel for the proxies. -/
theorem rule_back (fuel : Nat) {name : Text} (defined : h.defines name = true) (start : Int) :
    Peg.Upto ((h.evaluator semantics state).rule fuel name start)
      ((g.evaluator semantics state).rule (2 * fuel) name start) := by
  induction fuel generalizing name start with
  | zero => exact .inl rfl
  | succ fuel ih =>
    obtain ⟨s, found⟩ := Option.isSome_iff_exists.mp defined
    obtain ⟨r, before, -, like⟩ := succeeds.find? accepted found
    have resolves := succeeds.resolves s (List.mem_of_find?_eq_some found)
    rw [show 2 * (fuel + 1) = 2 * fuel + 1 + 1 by omega]
    rw [Peg.rule, Peg.rule]
    simp only [show (g.evaluator semantics state).grammar.find? name = some r from before,
      show (h.evaluator semantics state).grammar.find? name = some s from found,
      Peg.expr_like (evaluator_kin semantics state g h) r.body like]
    refine Peg.expr_upto (by omega) _ ((like.refers (Resolves.refers resolves)).imp ?_) [] start
    intro name here start
    refine (ih here start).trans ?_
    rcases succeeds.proxy name with same | ⟨p, info, found, only⟩
    · rw [same]
      exact Peg.rule_upto _ (Nat.le_succ _) _ _
    · rw [Peg.rule.eq_def _ (2 * fuel + 1)]
      simp only [show (g.evaluator semantics state).grammar.find? name = some p from found, only,
        Peg.expr]
      exact .refl _

end Succeeds

/-- The rules of a grammar evaluate to what they did in the grammar that it descends from. -/
theorem Descends.equivalent (descends : g.Descends h) (accepted : g.Accepted) {name : Text}
    (defined : h.defines name = true) (start : Int) :
    Peg.Equivalent (fun fuel => (g.evaluator semantics state).rule fuel name start)
      (fun fuel => (h.evaluator semantics state).rule fuel name start) := by
  induction descends with
  | refl => exact .refl _
  | step descends succeeds ih =>
    have accepted := descends.accepted accepted
    obtain ⟨s, found⟩ := Option.isSome_iff_exists.mp defined
    obtain ⟨r, before, -⟩ := succeeds.find? accepted found
    refine (ih (Option.isSome_iff_exists.mpr ⟨r, before⟩)).trans ⟨fun fuel => ?_, fun fuel => ?_⟩
    · exact ⟨fuel, succeeds.rule_onward semantics state accepted fuel defined start⟩
    · exact ⟨2 * fuel, succeeds.rule_back semantics state accepted fuel defined start⟩

end Grammar

end PegCompiler
