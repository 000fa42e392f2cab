import PegCompiler.Proofs.Grammar.Shape

/-!
What passes need of the tree of a grammar text. `Expr.IsTextual` says of one node what every node that
is read satisfies and what annotating and redirecting keep: nothing foreign, a display name only around
the whole expression of a rule, no empty rows, and bounds that are natural numbers or names.
`Grammar.read_textual` is the result: every rule of a grammar that was read is textual, and has no
annotations of a later pass.
-/

namespace PegCompiler

namespace Expr

/-- What a text says about a single node. -/
def IsTextual : Expr → Prop
  | sequence _ elements => elements ≠ [] ∧ ∀ e ∈ elements, e.isRow = false
  | choice _ alternatives => alternatives ≠ []
  | labeled _ _ _ _ body => body.isRow = false ∧ body.isLabeled = false
  | range _ min max _ _ => min.IsLeast ∧ max.IsGreatest ∧ min.Ordered max
  | charClass _ members => ∀ part ∈ members.parts, part.IsOrdered
  | named .. | foreign _ => False
  | _ => True

/-- Every node is as a text gives it. -/
abbrev Textual : Expr → Prop := Everywhere IsTextual

theorem IsShaped.textual {e : Expr} (h : e.IsShaped) : e.IsTextual := by
  cases e with
  | sequence => exact ⟨h.1, h.2.2⟩
  | choice info alternatives =>
    rintro rfl
    simp [IsShaped] at h
  | labeled => exact h.1
  | range => exact h.2.2
  | charClass => exact h
  | named | foreign => exact h
  | literal | any | ruleRef | unary | action | predicate => trivial

end Expr

/-- The expression of a rule may have a display name around it. -/
inductive Rule.Body : Expr → Prop
  | plain {e : Expr} : e.Textual → Rule.Body e
  | displayed {info : Info} {name : Text} {e : Expr} : e.Textual → Rule.Body (.named info name e)

namespace Rule.Body

theorem native {e : Expr} (body : Rule.Body e) : e.Native := by
  cases body with
  | plain textual =>
    cases e with
    | foreign => exact absurd textual.here id
    | _ => trivial
  | displayed => trivial

/-- The nodes of the expression of a rule could be such expressions themselves. -/
theorem everywhere {e : Expr} (body : Rule.Body e) : e.Everywhere Rule.Body := by
  cases body with
  | plain textual => exact textual.nested.mono fun _ => .plain
  | displayed textual =>
    refine .node (.displayed textual) ?_
    simpa [Expr.children] using textual.nested.mono fun _ => .plain

theorem expressions {e : Expr} (body : Rule.Body e) : e.Everywhere Expr.Native :=
  body.everywhere.mono fun _ => native

end Rule.Body

/-- A rule as a text gives it, without annotations of a later pass. -/
structure Rule.Textual (rule : Rule) : Prop where
  body : Rule.Body rule.body
  verdict : rule.verdict = none
  words : rule.words = none

theorem Rule.Shaped.textual {rule : Rule} (h : rule.Shaped) : rule.Textual := by
  obtain ⟨e, named, shaped, -⟩ := h.body
  have textual : e.Textual := shaped.mono fun _ here => here.textual
  refine ⟨?_, h.verdict, h.words⟩
  rcases named with plain | ⟨info, name, displayed⟩
  · exact plain ▸ .plain textual
  · exact displayed ▸ .displayed textual

namespace Grammar

variable {text : Text} {source : Option Text} {g : Grammar}

/-- Every rule that was read is as a text gives it. -/
theorem read_textual (h : Grammar.read text source = .ok g) : ∀ r ∈ g.rules, r.Textual :=
  fun r member => ((read_gives Scan.grammar_gives h).2 r member).textual

theorem bodies_of_read (h : Grammar.read text source = .ok g) : ∀ r ∈ g.rules, Rule.Body r.body :=
  fun r member => (read_textual h r member).body

/-- No pass has annotated a grammar that was just read. -/
theorem fresh_of_read (h : Grammar.read text source = .ok g) :
    ∀ r ∈ g.rules, r.verdict = none ∧ r.words = none :=
  fun r member => ⟨(read_textual h r member).verdict, (read_textual h r member).words⟩

end Grammar

end PegCompiler
