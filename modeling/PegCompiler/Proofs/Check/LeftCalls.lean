import PegCompiler.Proofs.Check.Acceptance
import PegCompiler.Proofs.Check.LeftWalk

/-!
Left calls. `Grammar.LeftRef` says that a reference stands where an expression can get to without
having consumed anything, and `Grammar.LeftCall` that one rule can so call another one. Where the
check for left recursion finds nothing, no chain of left calls goes on for ever
(`Grammar.leftCall_acc`).
-/

namespace PegCompiler

namespace Grammar

/-- A reference to `name` that an expression can get to where it starts. -/
inductive LeftRef (g : Grammar) (name : Text) : Expr → Prop
  | here {info : Info} : LeftRef g name (.ruleRef info name)
  | element {info : Info} {before after : List Expr} {e : Expr} :
    (∀ b ∈ before, ¬g.Consumes b) → LeftRef g name e →
    LeftRef g name (.sequence info (before ++ e :: after))
  | alternative {info : Info} {alternatives : List Expr} {e : Expr} :
    e ∈ alternatives → LeftRef g name e → LeftRef g name (.choice info alternatives)
  | labeled {info : Info} {label : Option Text} {at? : Option Location} {auto : Bool} {body : Expr} :
    LeftRef g name body → LeftRef g name (.labeled info label at? auto body)
  | unary {info : Info} {operator : Operator} {body : Expr} :
    LeftRef g name body → LeftRef g name (.unary info operator body)
  | rangeBody {info : Info} {min max : Boundary} {body : Expr} {delimiter : Option Expr} :
    LeftRef g name body → LeftRef g name (.range info min max body delimiter)
  | rangeDelimiter {info : Info} {min max : Boundary} {body separator : Expr} :
    ¬g.Consumes body → LeftRef g name separator →
    LeftRef g name (.range info min max body (some separator))
  | named {info : Info} {shown : Text} {body : Expr} :
    LeftRef g name body → LeftRef g name (.named info shown body)
  | action {info : Info} {code : Text} {at? : Option Location} {body : Expr} :
    LeftRef g name body → LeftRef g name (.action info code at? body)

/-- The rule `caller` can call the rule `callee` where it starts. -/
def LeftCall (g : Grammar) (callee caller : Text) : Prop :=
  ∃ r, g.find? caller = some r ∧ g.LeftRef callee r.body

section

variable {g : Grammar} (textual : ∀ r ∈ g.rules, Rule.Body r.body)

include textual

/-- What an expression can get to where it starts, the analysis cannot tell to lie behind anything. -/
theorem LeftRef.opens {name : Text} {e : Expr} (ref : g.LeftRef name e)
    (bodies : e.Everywhere Rule.Body) :
    ∃ info, Relation.ReflTransGen g.Opens e (.ruleRef info name) := by
  have idle (b : Expr) (body : Rule.Body b) (idle : ¬g.Consumes b) : g.consumes b ≠ .ok true :=
    fun answer => idle (g.consumes_sound textual body answer)
  induction ref with
  | here => exact ⟨_, .refl⟩
  | @element info before after e first _ ih =>
    have below := fun c hc => bodies.child (c := c) hc
    simp only [Expr.children, List.mem_append, List.mem_cons] at below
    obtain ⟨at?, reaches⟩ := ih (below e (.inr (.inl rfl)))
    have opens : g.Opens (.sequence info (before ++ e :: after)) e :=
      ⟨before, after, rfl, fun b hb => idle b (below b (.inl hb)).here (first b hb)⟩
    exact ⟨at?, reaches.head opens⟩
  | alternative member _ ih =>
    obtain ⟨at?, reaches⟩ := ih (bodies.child member)
    exact ⟨at?, reaches.head member⟩
  | labeled _ ih | unary _ ih | named _ ih | action _ ih =>
    obtain ⟨at?, reaches⟩ := ih (bodies.child (List.mem_singleton.mpr rfl))
    exact ⟨at?, reaches.head (List.mem_singleton.mpr rfl)⟩
  | @rangeBody info min max body delimiter _ ih =>
    obtain ⟨at?, reaches⟩ := ih (bodies.child (by cases delimiter <;> simp [Expr.children]))
    have opens : g.Opens (.range info min max body delimiter) body := by
      cases delimiter with
      | none => exact List.mem_singleton.mpr rfl
      | some => exact .inl rfl
    exact ⟨at?, reaches.head opens⟩
  | @rangeDelimiter info min max body separator free _ ih =>
    obtain ⟨at?, reaches⟩ := ih (bodies.child (by simp [Expr.children]))
    have ofBody := (bodies.child (c := body) (by simp [Expr.children])).here
    have opens : g.Opens (.range info min max body (some separator)) separator :=
      .inr ⟨rfl, idle body ofBody free⟩
    exact ⟨at?, reaches.head opens⟩

theorem LeftCall.edge {callee caller : Text} (call : g.LeftCall callee caller)
    (defined : g.defines callee = true) : g.LeftEdge caller callee := by
  obtain ⟨r, found, ref⟩ := call
  have body := textual r (List.mem_of_find?_eq_some found)
  obtain ⟨info, reaches⟩ := ref.opens textual body.everywhere
  exact ⟨r, info, found, reaches, defined⟩

end

theorem acc_of_undefined {g : Grammar} {name : Text} (undefined : ¬g.defines name = true) :
    Acc g.LeftCall name := by
  refine Acc.intro _ fun callee call => ?_
  obtain ⟨r, found, -⟩ := call
  exact absurd (by simp [defines, found]) undefined

/-- Where the check for left recursion finds nothing, no rule is at the head of an endless chain of
left calls. -/
theorem leftCall_acc {g : Grammar} (textual : ∀ r ∈ g.rules, Rule.Body r.body)
    (h : (Check.leftRecursion g).IsClear) (name : Text) : Acc g.LeftCall name := by
  have none (path : List Text) (last : Text) : ¬Check.Lasso g path last := fun lasso => by
    obtain ⟨r, member, d, found, finding⟩ := Check.exists_of_lasso textual lasso
    have clear := Trail.isClear_flatMap.mp h r member
    refine clear.not_severe d (.inr ?_) found
    simp [Diagnostic.severity, finding, Finding.severity]
  by_cases defined : g.defines name = true
  · have acc := Check.acc_of_no_lasso none name defined
    induction acc with
    | intro caller _ ih =>
      refine Acc.intro _ fun callee call => ?_
      by_cases target : g.defines callee = true
      · exact ih callee (call.edge textual target) target
      · exact acc_of_undefined target
  · exact acc_of_undefined defined

end Grammar

end PegCompiler
