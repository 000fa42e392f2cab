import PegCompiler.Proofs.Check.LeftCalls
import PegCompiler.Proofs.Check.Scoping

/-!
Accepted grammars. `Grammar.Accepted` collects what the later stages may rely on, in terms of the
tree alone: annotations do not matter for any of it. A grammar that was read from a text and against
which the checks have nothing is accepted (`Grammar.accepted_of_read`).
-/

namespace PegCompiler

namespace Grammar

/-- A reference is to a rule of the grammar. -/
def Resolves (g : Grammar) : Expr → Prop
  | .ruleRef _ name => g.defines name = true
  | _ => True

theorem Resolves.refers {g : Grammar} {e : Expr} (resolves : e.Everywhere g.Resolves) :
    e.Refers fun name => g.defines name = true :=
  resolves.mono fun e here => by cases e <;> exact here

/-- What is repeated without bound consumes. -/
def Advances (g : Grammar) : Expr → Prop
  | .unary _ .zeroOrMore body | .unary _ .oneOrMore body => g.Consumes body
  | .range _ _ max body delimiter =>
    max ≠ .unbounded ∨ g.Consumes body ∨ ∃ separator ∈ delimiter, g.Consumes separator
  | _ => True

/-- What the checks establish. -/
structure Accepted (g : Grammar) : Prop where
  textual : ∀ r ∈ g.rules, Rule.Body r.body
  names : g.ruleNames.Nodup
  resolves : ∀ r ∈ g.rules, r.body.Everywhere g.Resolves
  acyclic : ∀ name, Acc g.LeftCall name
  advances : ∀ r ∈ g.rules, r.body.Everywhere g.Advances
  scopes : ∀ r ∈ g.rules, r.body.Scoped []

end Grammar

namespace Expr

variable {α : Type} {prune : Expr → Bool} {here : Expr → Trail α} {Q : Except TreeFault α → Prop}

theorem mem_trailAll {es : List Expr} {entry : Except TreeFault α} :
    entry ∈ trailAll prune here es ↔ ∃ e ∈ es, entry ∈ e.trail prune here := by
  induction es with
  | nil => simp [trailAll]
  | cons e rest ih => simp [trailAll, ih]

/-- What a walk meets is found at the node itself or, unless it stops there, on the walk from one of
the nodes directly below. -/
theorem mem_trail {e : Expr} (native : e.Native) {entry : Except TreeFault α} :
    entry ∈ e.trail prune here ↔
      entry ∈ here e ∨ prune e = false ∧ ∃ c ∈ e.children, entry ∈ c.trail prune here := by
  have split {rest : Trail α} (below : entry ∈ rest ↔ ∃ c ∈ e.children, entry ∈ c.trail prune here) :
      entry ∈ here e ++ (if prune e then [] else rest) ↔
        entry ∈ here e ∨ prune e = false ∧ ∃ c ∈ e.children, entry ∈ c.trail prune here := by
    rw [List.mem_append, ← below]
    cases prune e <;> simp
  cases e with
  | foreign => exact absurd native id
  | literal | charClass | any | ruleRef | predicate => exact split (by simp [children])
  | sequence | choice => exact split mem_trailAll
  | labeled | unary | named | action => exact split (by simp [children])
  | range info min max body delimiter =>
    cases delimiter with
    | none => exact split (by simp [children])
    | some separator => exact split (by simp [children, or_comm])

/-- What holds of all entries of a trail holds of what is found at every node. -/
theorem everywhere_of_trail {e : Expr} (native : e.Everywhere Native)
    (h : ∀ entry ∈ e.trail (fun _ => false) here, Q entry) :
    e.Everywhere fun n => ∀ entry ∈ here n, Q entry := by
  induction native with
  | node native _ ih =>
    refine .node (fun entry found => h entry ((mem_trail native).mpr (.inl found))) fun c child => ?_
    exact ih c child fun entry found => h entry ((mem_trail native).mpr (.inr ⟨rfl, c, child, found⟩))

/-- The same for the body of a rule and what follows for a node from its entries; nothing has to
follow for a display name. -/
theorem everywhere_of_body {P : Expr → Prop} {e : Expr} (body : Rule.Body e)
    (h : ∀ entry ∈ e.trail (fun _ => false) here, Q entry)
    (display : ∀ info name c, P (named info name c))
    (imp : ∀ n, n.Textual → (∀ entry ∈ here n, Q entry) → P n) : e.Everywhere P := by
  have native := body.expressions
  cases body with
  | plain textual =>
    exact (textual.nested.and (everywhere_of_trail native h)).mono fun n both => imp n both.1 both.2
  | displayed textual =>
    have below := everywhere_of_trail (native.child (by simp [children]))
      (List.forall_mem_append.mp h).2
    refine .node (display _ _ _) ?_
    simpa [children] using (textual.nested.and below).mono fun n both => imp n both.1 both.2

end Expr

namespace Check

open Trail

variable {g : Grammar} {startRules : List Value}

theorem resolves_of_clear (textual : ∀ r ∈ g.rules, Rule.Body r.body)
    (h : (undefinedRules g startRules).IsClear) :
    ∀ r ∈ g.rules, r.body.Everywhere g.Resolves := by
  have h := isClear_flatMap.mp (isClear_append.mp h).1
  intro r hr
  have entries : ∀ entry ∈ r.body.references (fun _ => false),
      ∃ found : Text × Option Location, entry = .ok found ∧ g.defines found.1 = true := by
    intro entry he
    have here := h entry (List.mem_flatMap.mpr ⟨r, hr, he⟩)
    cases entry with
    | error fault => exact absurd here (not_isClear_fault fault (by simp))
    | ok found =>
      obtain ⟨name, location⟩ := found
      refine ⟨_, rfl, ?_⟩
      cases defined : g.defines name with
      | true => rfl
      | false =>
        simp only [defined] at here
        exact absurd (List.mem_singleton.mpr rfl) (here.not_severe _ (.inr rfl))
  refine Expr.everywhere_of_body (textual r hr) entries (fun _ _ _ => trivial) fun e _ found => ?_
  cases e with
  | ruleRef info name =>
    obtain ⟨_, same, defined⟩ := found (.ok (name, info.location)) (by simp)
    cases same
    exact defined
  | _ => trivial

/-- Start rules that were checked are names of rules. -/
theorem starts_of_clear (h : (undefinedRules g startRules).IsClear) :
    ∀ start ∈ startRules, ∃ name ∈ g.ruleNames, start = .text name := by
  have h := (isClear_append.mp h).2
  intro start member
  cases defined : g.definesStart start with
  | false =>
    have reported : (.ok ⟨.undefinedStartRule start, none⟩ : Except TreeFault Diagnostic) ∈
        (startRules.filter (!g.definesStart ·)).map fun name =>
          .ok ⟨.undefinedStartRule name, none⟩ :=
      List.mem_map.mpr ⟨start, List.mem_filter.mpr ⟨member, by simp [defined]⟩, rfl⟩
    exact absurd reported (h.not_severe _ (.inr rfl))
  | true =>
    cases start with
    | text name => exact ⟨name, Grammar.defines_iff.mp defined, rfl⟩
    | _ => cases defined

theorem names_of_clear (h : ∀ d ∈ duplicateRules g, ¬d.IsSevere) : g.ruleNames.Nodup := by
  have apart : ∀ (rules : List Rule) (seen : List (Text × Option Location)),
      (∀ d ∈ duplicateRulesAfter seen rules, ¬d.IsSevere) →
      (rules.map Rule.name).Nodup ∧ ∀ r ∈ rules, r.name ∉ names seen := by
    intro rules
    induction rules with
    | nil => simp
    | cons r rest ih =>
      intro seen clear
      rw [duplicateRulesAfter, List.forall_mem_append] at clear
      obtain ⟨unique, fresh⟩ := ih _ clear.2
      have new : r.name ∉ names seen := by
        rw [← lookup_isSome]
        intro found
        obtain ⟨first, at?⟩ := Option.isSome_iff_exists.mp found
        have here := clear.1
        rw [at?] at here
        exact here _ (List.mem_singleton.mpr rfl) (.inr rfl)
      simp only [names, List.map_cons, List.mem_cons, not_or] at fresh
      refine ⟨List.nodup_cons.mpr ⟨?_, unique⟩, ?_⟩
      · intro member
        obtain ⟨other, hother, same⟩ := List.mem_map.mp member
        exact (fresh other hother).1 same
      · intro other hother
        rcases List.mem_cons.mp hother with rfl | hother
        · exact new
        · exact (fresh other hother).2
  exact (apart g.rules [] h).1

theorem isClear_deciding {answer : Decision} {go : Bool → Trail Diagnostic}
    (h : (deciding answer go).IsClear) : ∃ truth, answer = .ok truth ∧ (go truth).IsClear := by
  cases answer with
  | ok truth => exact ⟨truth, rfl, h⟩
  | error fault => exact absurd h (not_isClear_fault fault (by simp [deciding]))

theorem advances_of_idleAt (textual : ∀ r ∈ g.rules, Rule.Body r.body) {e : Expr} (here : e.Textual)
    (h : (idleAt g e).IsClear) : g.Advances e := by
  have sound {c : Expr} (hc : c ∈ e.children) : g.consumes c = .ok true → g.Consumes c :=
    g.consumes_sound textual (.plain (here.child hc))
  unfold idleAt at h
  split at h
  · obtain ⟨truth, answer, clear⟩ := isClear_deciding h
    cases truth with
    | true => exact sound (by simp [Expr.children]) answer
    | false => exact absurd (List.mem_singleton.mpr rfl) (clear.not_severe _ (.inr rfl))
  · obtain ⟨truth, answer, clear⟩ := isClear_deciding h
    cases truth with
    | true => exact sound (by simp [Expr.children]) answer
    | false => exact absurd (List.mem_singleton.mpr rfl) (clear.not_severe _ (.inr rfl))
  · rename_i info min max body delimiter
    obtain ⟨truth, answer, clear⟩ := isClear_deciding h
    cases truth with
    | true =>
      refine .inr ?_
      rcases Consumption.orElse_eq_true answer with first | ⟨-, second⟩
      · exact .inl (sound (by cases delimiter <;> simp [Expr.children]) first)
      · cases delimiter with
        | none => simp at second
        | some separator =>
          exact .inr ⟨separator, rfl, sound (by simp [Expr.children]) second⟩
    | false =>
      refine .inl fun unbounded => ?_
      subst unbounded
      exact absurd (List.mem_singleton.mpr rfl) (clear.not_severe _ (.inr rfl))
  · rename_i notMany notSome notRange
    unfold Grammar.Advances
    split
    · exact absurd rfl (notMany _ _)
    · exact absurd rfl (notSome _ _)
    · exact absurd rfl (notRange _ _ _ _ _)
    · trivial

theorem advances_of_clear (textual : ∀ r ∈ g.rules, Rule.Body r.body)
    (h : (idleRepetitions g).IsClear) : ∀ r ∈ g.rules, r.body.Everywhere g.Advances := by
  intro r hr
  have clear := isClear_flatMap.mp h r hr
  exact Expr.everywhere_of_body (textual r hr) clear (fun _ _ _ => trivial) fun e here found =>
    advances_of_idleAt textual here found

end Check

namespace Grammar

variable {g : Grammar} {settings : Settings}

/-- Checks look at the grammar and leave it alone. -/
theorem check_alone (settings : Settings) (g : Grammar) :
    ∀ step ∈ Stage.check.steps, (Stage.runStep settings g step).grammar = g := by
  simp only [Stage.check, List.map_cons, List.map_nil, List.forall_mem_cons]
  refine ⟨rfl, rfl, rfl, rfl, rfl, rfl, ?_, by simp⟩
  simp only [Stage.runStep, Pass.run]
  split <;> rfl

/-- A grammar whose rules are as a text gives them, and against which the checks have nothing. -/
theorem accepted_of_check (textual : ∀ r ∈ g.rules, Rule.Body r.body)
    (h : (Stage.check.run settings g).failure = none) : g.Accepted := by
  have clear : ∀ pass, .pass pass ∈ Stage.check.steps → (pass.run settings g).IsClear :=
    fun pass member => Stage.clear_of_run (check_alone settings g) h _ member
  constructor
  · exact textual
  · exact Check.names_of_clear (clear .duplicateRules (by simp [Stage.check])).found
  · exact Check.resolves_of_clear textual
      (Pass.checked_isClear.mp (clear .undefinedRules (by simp [Stage.check])))
  · exact g.leftCall_acc textual
      (Pass.checked_isClear.mp (clear .leftRecursion (by simp [Stage.check])))
  · exact Check.advances_of_clear textual
      (Pass.checked_isClear.mp (clear .idleRepetitions (by simp [Stage.check])))
  · have labels := Trail.isClear_flatMap.mp
      (Pass.checked_isClear.mp (clear .duplicateLabels (by simp [Stage.check])))
    exact fun r hr => Check.scoped_of_body (textual r hr) (labels r hr)

theorem accepted_of_read {text : Text} {source : Option Text} (read : Grammar.read text source = .ok g)
    (checked : (Stage.check.run settings g).failure = none) : g.Accepted :=
  accepted_of_check (bodies_of_read read) checked

end Grammar

end PegCompiler
