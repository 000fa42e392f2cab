import PegCompiler.Proofs.Analysis.Verdicts

/-!
Expressions with the verdicts that follow from those of rules. `Expr.judge` annotates an expression as
match inference does once the verdicts of the rules that it refers to are given; it does not look at
annotations that are there before. Verdicts that say more about rules say more about expressions
(`Expr.judge_below`).
-/

namespace PegCompiler

namespace Expr

/-- The node with the verdict concluded for it. -/
def concluded (e : Expr) : Expr := e.setVerdict (some e.conclusion)

mutual

/-- All nodes with their verdicts, those of references by `ofRule`. -/
def judge (ofRule : Text → Verdict) : Expr → Expr
  | ruleRef info name => ruleRef { info with verdict := some (ofRule name) } name
  | foreign what => foreign what
  | sequence info elements => concluded (sequence info (judgeAll ofRule elements))
  | choice info alternatives => concluded (choice info (judgeAll ofRule alternatives))
  | labeled info label labelLocation auto body =>
    concluded (labeled info label labelLocation auto (judge ofRule body))
  | unary info operator body => concluded (unary info operator (judge ofRule body))
  | range info min max body none => concluded (range info min max (judge ofRule body) none)
  | range info min max body (some separator) =>
    concluded (range info min max (judge ofRule body) (some (judge ofRule separator)))
  | named info name body => concluded (named info name (judge ofRule body))
  | action info code codeLocation body =>
    concluded (action info code codeLocation (judge ofRule body))
  | e => concluded e

def judgeAll (ofRule : Text → Verdict) : List Expr → List Expr
  | [] => []
  | e :: rest => judge ofRule e :: judgeAll ofRule rest

end

/-- A node carries the verdict concluded for it; a reference carries one that is `right` for the rule
that it names. -/
def Carries (right : Text → Verdict → Prop) : Expr → Prop
  | ruleRef info name => ∃ v, info.verdict = some v ∧ right name v
  | foreign _ => False
  | e => e.info.verdict = some e.conclusion

variable {ofRule other : Text → Verdict}

@[simp]
theorem judgeAll_eq_map (es : List Expr) : judgeAll ofRule es = es.map (judge ofRule) := by
  induction es with
  | nil => rfl
  | cons e rest ih => rw [judgeAll, ih, List.map_cons]

theorem children_judge (e : Expr) : (e.judge ofRule).children = e.children.map (judge ofRule) := by
  cases e with
  | sequence info es => exact judgeAll_eq_map es
  | choice info es => exact judgeAll_eq_map es
  | range info min max body delimiter => cases delimiter <;> rfl
  | _ => rfl

/-- Judging changes annotations only. -/
theorem judge_like (e : Expr) : Like id e (e.judge ofRule) := by
  induction e using byChildren with
  | node e ih =>
    have each {es : List Expr} (below : ∀ c ∈ es, Like id c (c.judge ofRule)) :
        LikeAll id es (judgeAll ofRule es) := by
      induction es with
      | nil => rfl
      | cons e rest ihRest =>
        exact ⟨_, _, rfl, below e (by simp), ihRest fun c hc => below c (by simp [hc])⟩
    cases e with
    | literal | charClass | any | predicate | ruleRef => exact ⟨_, rfl⟩
    | foreign => rfl
    | sequence | choice => exact ⟨_, _, rfl, each ih⟩
    | labeled | unary | named | action => exact ⟨_, _, rfl, ih _ (by simp [children])⟩
    | range info min max body delimiter =>
      cases delimiter with
      | none => exact ⟨_, _, rfl, ih _ (by simp [children])⟩
      | some separator =>
        exact ⟨_, _, _, rfl, ih _ (by simp [children]), ih _ (by simp [children])⟩

theorem judge_native {e : Expr} (native : e.Everywhere Native) : (e.judge ofRule).Everywhere Native := by
  refine (judge_like e).everywhere (fun e f like native => ?_) native
  cases f with
  | foreign what =>
    cases e with
    | foreign => exact native
    | range info min max body delimiter => cases delimiter <;> simp [Like] at like
    | _ => simp [Like] at like
  | _ => trivial

variable (ofRule) in
theorem judge_refers {P : Text → Prop} {e : Expr} (refers : e.Refers P) : (e.judge ofRule).Refers P := by
  refine (judge_like e).everywhere (fun e f like here => ?_) refers
  cases f with
  | ruleRef info name =>
    obtain ⟨before, _, rfl, rfl⟩ := like.of_ruleRef
    exact here
  | _ => trivial

/-- Judging again, the verdicts given first do not matter. -/
theorem judge_judge (e : Expr) : (e.judge ofRule).judge other = e.judge other := by
  induction e using byChildren with
  | node e ih =>
    cases e with
    | literal | charClass | any | predicate | ruleRef | foreign => rfl
    | sequence info es | choice info es =>
      have each : (es.map (judge ofRule)).map (judge other) = es.map (judge other) := by
        simpa [children] using ih
      simp only [judge, judgeAll_eq_map, concluded, setVerdict, setInfo, Expr.info, conclusion, each]
    | labeled info label at? auto body | unary info operator body | named info shown body
    | action info code at? body =>
      have again := ih body (by simp [children])
      simp only [judge, concluded, setVerdict, setInfo, Expr.info, conclusion, again]
    | range info min max body delimiter =>
      have again := ih body (by cases delimiter <;> simp [children])
      cases delimiter with
      | none => simp only [judge, concluded, setVerdict, setInfo, Expr.info, conclusion, again]
      | some separator =>
        have between := ih separator (by simp [children])
        simp only [judge, concluded, setVerdict, setInfo, Expr.info, conclusion, again, between]

/-- Only the verdicts of rules that the expression refers to matter. -/
theorem judge_congr {e : Expr} (same : e.Refers fun name => ofRule name = other name) :
    e.judge ofRule = e.judge other := by
  induction e using byChildren with
  | node e ih =>
    have below : ∀ c ∈ e.children, c.judge ofRule = c.judge other :=
      fun c hc => ih c hc (same.child hc)
    cases e with
    | literal | charClass | any | predicate | foreign => rfl
    | ruleRef info name => simp only [judge, show ofRule name = other name from same.here]
    | sequence info es =>
      exact congrArg (fun es => concluded (sequence info es)) (by simpa [children] using below)
    | choice info es =>
      exact congrArg (fun es => concluded (choice info es)) (by simpa [children] using below)
    | labeled info label at? auto body | unary info operator body | named info shown body
    | action info code at? body =>
      simp only [judge, below body (List.mem_singleton.mpr rfl)]
    | range info min max body delimiter =>
      cases delimiter with
      | none => simp only [judge, below body (by simp [children])]
      | some separator =>
        simp only [judge, below body (by simp [children]), below separator (by simp [children])]

/-- All nodes carry the verdicts concluded for them, and references those given. -/
theorem judge_carries {right : Text → Verdict → Prop} {e : Expr} (native : e.Everywhere Native)
    (rules : e.Refers fun name => right name (ofRule name)) :
    (e.judge ofRule).Everywhere (Carries right) := by
  induction e using byChildren with
  | node e ih =>
    refine .node ?_ ?_
    · cases e with
      | foreign => exact absurd native.here id
      | ruleRef info name => exact ⟨_, rfl, rules.here⟩
      | range info min max body delimiter => cases delimiter <;> rfl
      | _ => rfl
    · rw [children_judge, List.forall_mem_map]
      exact fun c hc => ih c hc (native.child hc) (rules.child hc)

theorem Carries.info {right : Text → Verdict → Prop} {e : Expr} (carries : e.Carries right) :
    e.info.verdict = some e.verdict := by
  have given : ∃ v, e.info.verdict = some v := by
    cases e with
    | foreign => exact absurd carries id
    | ruleRef info name => exact carries.imp fun _ => And.left
    | _ => exact ⟨_, carries⟩
  obtain ⟨v, given⟩ := given
  simp [verdict, given]

/-- Where more is known of the rules that it refers to, more is concluded for an expression. -/
theorem judge_below {e : Expr} (native : e.Everywhere Native)
    (rules : e.Refers fun name => (ofRule name).Below (other name)) :
    (e.judge ofRule).verdict.Below (e.judge other).verdict := by
  induction e using byChildren with
  | node e ih =>
    have below : ∀ c ∈ e.children, (c.judge ofRule).verdict.Below (c.judge other).verdict :=
      fun c hc => ih c hc (native.child hc) (rules.child hc)
    have each {es : List Expr}
        (below : ∀ c ∈ es, (c.judge ofRule).verdict.Below (c.judge other).verdict) :
        List.Forall₂ Verdict.Below ((judgeAll ofRule es).map verdict)
          ((judgeAll other es).map verdict) := by
      simp only [judgeAll_eq_map, List.map_map, List.forall₂_map_left_iff, List.forall₂_map_right_iff]
      exact List.forall₂_same.mpr below
    cases e with
    | literal | charClass | any | predicate => exact .refl _
    | ruleRef info name => exact rules.here
    | foreign => exact absurd native.here id
    | sequence => exact Verdict.inOrder_below (each below)
    | choice => exact Verdict.apart_below (each below)
    | labeled info label at? auto body | named info shown body | action info code at? body =>
      exact below body (List.mem_singleton.mpr rfl)
    | unary info operator body =>
      exact Verdict.ofOperator_below operator (below body (List.mem_singleton.mpr rfl))
    | range info min max body delimiter =>
      cases delimiter with
      | none => exact Verdict.ofRange_below min max (below body (List.mem_singleton.mpr rfl)) .none
      | some separator =>
        exact Verdict.ofRange_below min max (below body (by simp [children]))
          (.some (below separator (by simp [children])))

/-- A verdict that is not open stays where more is known of the rules. -/
theorem judge_stays {e : Expr} {v : Verdict} (native : e.Everywhere Native)
    (rules : ∀ name, (ofRule name).Below (other name)) (first : (e.judge ofRule).verdict = v)
    (sure : v ≠ .sometimes) : (e.judge other).verdict = v := by
  have below := judge_below native (Refers.all rules e)
  rw [first] at below
  exact (below.resolve_left sure).symm

end Expr

/-- The rule with its body judged, and the verdict of that. -/
def Rule.judged (ofRule : Text → Verdict) (r : Rule) : Rule :=
  { r with body := r.body.judge ofRule, verdict := some (r.body.judge ofRule).verdict }

/-- Verdicts of rules that are those of their bodies. -/
def Grammar.IsFixpoint (g : Grammar) (ofRule : Text → Verdict) : Prop :=
  ∀ r ∈ g.rules, (r.body.judge ofRule).verdict = ofRule r.name

end PegCompiler
