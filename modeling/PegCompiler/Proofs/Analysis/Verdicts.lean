import Mathlib.Data.List.Forall2
import PegCompiler.Analysis.Matching
import PegCompiler.Proofs.Grammar.Likeness

/-!
The algebra of verdicts. A verdict is below another one if it says less: the open verdict is below
all, and everything is below itself. What inference concludes for a node from the verdicts below it
is monotone in this order. `Expr.IsJudged` says that a node carries the verdict concluded for it, and
`Grammar.Judged` that all rules of a grammar have settled verdicts.
-/

namespace PegCompiler

namespace Verdict

/-- The first verdict says nothing that the second one does not. -/
def Below (v w : Verdict) : Prop := v = .sometimes ∨ v = w

theorem Below.refl (v : Verdict) : v.Below v := .inr rfl

/-- What is known of a sequence. -/
def inOrder (vs : List Verdict) : Verdict :=
  if vs.all (· = .always) then .always else if vs.any (· = .never) then .never else .sometimes

/-- What is known of a choice. -/
def apart (vs : List Verdict) : Verdict :=
  if vs.all (· = .always) then .always else if vs.all (· = .never) then .never else .sometimes

/-- What is known of a range. -/
def ofRange (min max : Boundary) (body : Verdict) (delimiter : Option Verdict) : Verdict :=
  match min, max with
  | .label _, _ | _, .label _ => .sometimes
  | .constant limit, _ =>
    if limit.isVoid then .always
    else match delimiter with
      | none => body
      | some between => if limit = .number 1 then body else inOrder [body, between]

/-- What is known of an operator. -/
def ofOperator (operator : Operator) (body : Verdict) : Verdict :=
  match operator with
  | .optional | .zeroOrMore => .always
  | .notFollowedBy => body.neg
  | .text | .followedBy | .oneOrMore | .group => body

/-- Which ranges have a verdict that says something, if the bounds are those of a text. -/
theorem ofRange_cases {min max : Boundary} {v : Verdict} {d : Option Verdict}
    (least : min.IsLeast) (greatest : max.IsGreatest) :
    ofRange min max v d = .sometimes ∨ ∃ n : Int, min = .count n ∧ 0 ≤ n ∧
      (max = .unbounded ∨ ∃ k, max = .count k) ∧
      ((n = 0 ∧ ofRange min max v d = .always) ∨
        (0 < n ∧ (d = none ∨ n = 1) ∧ ofRange min max v d = v) ∨
        (1 < n ∧ ∃ between, d = some between ∧
          ofRange min max v d = .inOrder [v, between])) := by
  cases min with
  | label => exact .inl rfl
  | constant limit =>
    cases max with
    | label => exact .inl rfl
    | constant other =>
      obtain ⟨n, rfl, natural⟩ : ∃ n, limit = .number n ∧ 0 ≤ n := by
        cases limit with
        | number n => exact ⟨n, rfl, least⟩
        | absent | text => exact absurd least id
      have bound : Boundary.constant other = .unbounded ∨ ∃ k, Boundary.constant other = .count k := by
        cases other with
        | absent => exact .inl rfl
        | number k => exact .inr ⟨k, rfl⟩
        | text => exact absurd greatest id
      refine .inr ⟨n, rfl, natural, bound, ?_⟩
      by_cases zero : n = 0
      · subst zero
        exact .inl ⟨rfl, rfl⟩
      · have void : (Limit.number n).isVoid = false := by
          simp [Limit.isVoid, Limit.value, Value.isTrue, zero]
        cases d with
        | none => exact .inr (.inl ⟨by omega, .inl rfl, by simp [ofRange, void]⟩)
        | some between =>
          by_cases one : n = 1
          · subst one
            exact .inr (.inl ⟨Int.one_pos, .inr rfl, rfl⟩)
          · exact .inr (.inr ⟨by omega, between, rfl, by simp [ofRange, void, one]⟩)

theorem neg_eq_always_iff {v : Verdict} : v.neg = .always ↔ v = .never := by cases v <;> simp [neg]

theorem neg_eq_never_iff {v : Verdict} : v.neg = .never ↔ v = .always := by cases v <;> simp [neg]

theorem inOrder_eq_always {vs : List Verdict} (h : inOrder vs = .always) : ∀ v ∈ vs, v = .always := by
  unfold inOrder at h
  split at h
  · rename_i all
    simpa using all
  · split at h <;> cases h

theorem inOrder_eq_never {vs : List Verdict} (h : inOrder vs = .never) : .never ∈ vs := by
  unfold inOrder at h
  split at h
  · cases h
  · split at h
    · rename_i any
      simpa using any
    · cases h

theorem apart_eq_always {vs : List Verdict} (h : apart vs = .always) : ∀ v ∈ vs, v = .always := by
  unfold apart at h
  split at h
  · rename_i all
    simpa using all
  · split at h <;> cases h

theorem apart_eq_never {vs : List Verdict} (h : apart vs = .never) : ∀ v ∈ vs, v = .never := by
  unfold apart at h
  split at h
  · cases h
  · split at h
    · rename_i all
      simpa using all
    · cases h

theorem apart_of_never {vs : List Verdict} (some : vs ≠ []) (h : ∀ v ∈ vs, v = .never) :
    apart vs = .never := by
  have notAlways : ¬vs.all (· = .always) := by
    obtain ⟨v, member⟩ := List.exists_mem_of_ne_nil vs some
    simp only [List.all_eq_true, decide_eq_true_eq]
    exact fun all => absurd ((h v member).symm.trans (all v member)) (by simp)
  have never : vs.all (· = .never) := by simpa using h
  rw [apart, if_neg notAlways, if_pos never]

section Monotone

variable {vs ws : List Verdict}

theorem all_of_below {wanted : Verdict} (definite : wanted ≠ .sometimes)
    (below : List.Forall₂ Below vs ws) (h : vs.all (· = wanted)) : ws.all (· = wanted) := by
  induction below with
  | nil => rfl
  | cons here _ ih =>
    simp only [List.all_cons, Bool.and_eq_true, decide_eq_true_eq] at h ⊢
    obtain ⟨rfl, others⟩ := h
    exact ⟨(here.resolve_left definite).symm, ih others⟩

theorem any_of_below {wanted : Verdict} (definite : wanted ≠ .sometimes)
    (below : List.Forall₂ Below vs ws) (h : vs.any (· = wanted)) : ws.any (· = wanted) := by
  induction below with
  | nil => exact h
  | cons here _ ih =>
    simp only [List.any_cons, Bool.or_eq_true, decide_eq_true_eq] at h ⊢
    rcases h with rfl | others
    · exact .inl (here.resolve_left definite).symm
    · exact .inr (ih others)

theorem not_all_of_any (h : vs.any (· = .never)) : ¬vs.all (· = .always) := by
  simp only [List.any_eq_true, decide_eq_true_eq, List.all_eq_true] at h ⊢
  obtain ⟨v, member, rfl⟩ := h
  exact fun all => absurd (all _ member) (by simp)

theorem inOrder_below (below : List.Forall₂ Below vs ws) : (inOrder vs).Below (inOrder ws) := by
  unfold inOrder
  by_cases all : vs.all (· = .always)
  · rw [if_pos all, if_pos (all_of_below (by simp) below all)]
    exact .refl _
  · rw [if_neg all]
    by_cases any : vs.any (· = .never)
    · have other := any_of_below (by simp) below any
      rw [if_pos any, if_neg (not_all_of_any other), if_pos other]
      exact .refl _
    · rw [if_neg any]
      exact .inl rfl

theorem apart_below (below : List.Forall₂ Below vs ws) : (apart vs).Below (apart ws) := by
  unfold apart
  by_cases always : vs.all (· = .always)
  · rw [if_pos always, if_pos (all_of_below (by simp) below always)]
    exact .refl _
  · rw [if_neg always]
    by_cases never : vs.all (· = .never)
    · have other := all_of_below (by simp) below never
      rw [if_pos never]
      cases below with
      | nil => simp at always
      | cons =>
        rw [if_neg (not_all_of_any (by simp_all)), if_pos other]
        exact .refl _
    · rw [if_neg never]
      exact .inl rfl

theorem neg_below {v w : Verdict} (h : v.Below w) : v.neg.Below w.neg := by
  rcases h with rfl | rfl
  · exact .inl rfl
  · exact .refl _

theorem ofOperator_below {v w : Verdict} (operator : Operator) (h : v.Below w) :
    (ofOperator operator v).Below (ofOperator operator w) := by
  cases operator with
  | optional | zeroOrMore => exact .refl _
  | notFollowedBy => exact neg_below h
  | text | followedBy | oneOrMore | group => exact h

theorem ofRange_below {v w : Verdict} {d e : Option Verdict} (min max : Boundary) (h : v.Below w)
    (between : Option.Rel Below d e) :
    (ofRange min max v d).Below (ofRange min max w e) := by
  unfold ofRange
  split
  · exact .refl _
  · exact .refl _
  · split
    · exact .refl _
    · cases between with
      | none => exact h
      | some between =>
        simp only
        split
        · exact h
        · exact inOrder_below (.cons h (.cons between .nil))

end Monotone

end Verdict

namespace Matching

theorem allAre_some (wanted : Verdict) (vs : List Verdict) :
    allAre wanted (vs.map some) = .ok (vs.all (· = wanted)) := by
  induction vs with
  | nil => rfl
  | cons v rest ih => by_cases same : v = wanted <;> simp [allAre, same, ih]

theorem anyIs_some (wanted : Verdict) (vs : List Verdict) :
    anyIs wanted (vs.map some) = .ok (vs.any (· = wanted)) := by
  induction vs with
  | nil => rfl
  | cons v rest ih => by_cases same : v = wanted <;> simp [anyIs, same, ih]

theorem ofSequence_some (vs : List Verdict) :
    ofSequence (vs.map some) = .ok (some (Verdict.inOrder vs)) := by
  unfold ofSequence Verdict.inOrder
  simp only [allAre_some, anyIs_some, bind, Except.bind]
  split
  · rfl
  · split <;> rfl

theorem ofChoice_some (vs : List Verdict) :
    ofChoice (vs.map some) = .ok (some (Verdict.apart vs)) := by
  unfold ofChoice Verdict.apart
  simp only [allAre_some, bind, Except.bind]
  split
  · rfl
  · split <;> rfl

theorem ofOperator_some (operator : Operator) (v : Verdict) :
    ofOperator operator (some v) = .ok (some (Verdict.ofOperator operator v)) := by
  cases operator <;> rfl

theorem ofRange_some (min max : Boundary) (body : Verdict) (delimiter : Option Verdict) :
    ofRange min max (some body) delimiter = .ok (some (Verdict.ofRange min max body delimiter)) := by
  cases min with
  | label => rfl
  | constant limit =>
    cases max with
    | label => rfl
    | constant =>
      simp only [ofRange, Verdict.ofRange]
      split
      · rfl
      · cases delimiter with
        | none => simp
        | some between =>
          simp only [Option.isNone_some, Bool.or_false, decide_eq_true_eq]
          split
          · rfl
          · exact ofSequence_some [body, between]

end Matching

namespace Expr

/-- The verdict concluded for a node from those of the nodes below it. -/
def conclusion : Expr → Verdict
  | literal _ value _ => if value.isEmpty then .always else .sometimes
  | charClass _ members => if members.parts.isEmpty then .never else .sometimes
  | sequence _ elements => .inOrder (elements.map verdict)
  | choice _ alternatives => .apart (alternatives.map verdict)
  | labeled _ _ _ _ body => body.verdict
  | unary _ operator body => .ofOperator operator body.verdict
  | range _ min max body delimiter => .ofRange min max body.verdict (delimiter.map verdict)
  | named _ _ body => body.verdict
  | action _ _ _ body => body.verdict
  | any _ | ruleRef .. | predicate .. | foreign _ => .sometimes

/-- A node carries the verdict concluded for it; a reference that is not left open carries that of
its rule. -/
def IsJudged (known : Text → Option Verdict) : Expr → Prop
  | ruleRef info name => ∃ v, info.verdict = some v ∧ (v = .sometimes ∨ known name = some v)
  | foreign _ => False
  | e => e.info.verdict = some e.conclusion

abbrev Judged (known : Text → Option Verdict) : Expr → Prop := Everywhere (IsJudged known)

end Expr

namespace Grammar

/-- The verdict of the rule called `name`. -/
def known (g : Grammar) (name : Text) : Option Verdict := (g.find? name).bind Rule.verdict

/-- The same, open where there is none. -/
def verdictOf (g : Grammar) (name : Text) : Verdict := (g.known name).getD .sometimes

/-- A rule has the open verdict or that of its body, which is judged. -/
def Settled (known : Text → Option Verdict) (r : Rule) : Prop :=
  ∃ v, r.verdict = some v ∧ (v = .sometimes ∨ r.body.info.verdict = some v) ∧ r.body.Judged known

def Judged (g : Grammar) : Prop := ∀ r ∈ g.rules, Settled g.known r

end Grammar

end PegCompiler
