import PegCompiler.Grammar.Basic

/-!
The nodes of an expression. `children` lists what stands directly below a node, `Everywhere` says that
something holds of a node and of all nodes below it. Rules are found by their names.
-/

namespace PegCompiler

namespace Expr

/-- The nodes directly below a node. -/
def children : Expr → List Expr
  | sequence _ elements => elements
  | choice _ alternatives => alternatives
  | labeled _ _ _ _ body => [body]
  | unary _ _ body => [body]
  | range _ _ _ body none => [body]
  | range _ _ _ body (some separator) => [body, separator]
  | named _ _ body => [body]
  | action _ _ _ body => [body]
  | _ => []

theorem sizeOf_child_lt {c e : Expr} (h : c ∈ e.children) : sizeOf c < sizeOf e := by
  cases e with
  | sequence info elements =>
    have smaller : sizeOf c < sizeOf elements := List.sizeOf_lt_of_mem h
    simp only [sequence.sizeOf_spec]
    omega
  | choice info alternatives =>
    have smaller : sizeOf c < sizeOf alternatives := List.sizeOf_lt_of_mem h
    simp only [choice.sizeOf_spec]
    omega
  | range info min max body delimiter =>
    cases delimiter with
    | none =>
      simp only [children, List.mem_singleton] at h
      subst h
      simp only [range.sizeOf_spec]
      omega
    | some separator =>
      simp only [children, List.mem_cons, List.not_mem_nil, or_false] at h
      rcases h with rfl | rfl <;> simp only [range.sizeOf_spec, Option.some.sizeOf_spec] <;> omega
  | labeled info label location auto body =>
    simp only [children, List.mem_singleton] at h
    subst h
    simp only [labeled.sizeOf_spec]
    omega
  | unary info operator body =>
    simp only [children, List.mem_singleton] at h
    subst h
    simp only [unary.sizeOf_spec]
    omega
  | named info name body =>
    simp only [children, List.mem_singleton] at h
    subst h
    simp only [named.sizeOf_spec]
    omega
  | action info code location body =>
    simp only [children, List.mem_singleton] at h
    subst h
    simp only [action.sizeOf_spec]
    omega
  | literal | charClass | any | ruleRef | predicate | foreign => simp [children] at h

/-- What a node inherits from the nodes directly below it holds of every expression. -/
theorem byChildren {motive : Expr → Prop}
    (node : ∀ e, (∀ c ∈ e.children, motive c) → motive e) (e : Expr) : motive e :=
  node e fun c _ => byChildren node c
termination_by sizeOf e
decreasing_by exact sizeOf_child_lt ‹_›

/-- The same with the nodes two steps below at hand as well. -/
theorem byGrandchildren {motive : Expr → Prop}
    (node : ∀ e, (∀ c ∈ e.children, motive c) → (∀ c ∈ e.children, ∀ b ∈ c.children, motive b) →
      motive e) (e : Expr) : motive e := by
  have both : motive e ∧ ∀ c ∈ e.children, motive c := by
    induction e using byChildren with
    | node e ih =>
      have below : ∀ c ∈ e.children, motive c := fun c hc => (ih c hc).1
      exact ⟨node e below fun c hc => (ih c hc).2, below⟩
  exact both.1

/-- `P` holds of a node and of every node below it. -/
inductive Everywhere (P : Expr → Prop) : Expr → Prop
  | node {e : Expr} : P e → (∀ c ∈ e.children, Everywhere P c) → Everywhere P e

namespace Everywhere

variable {P Q : Expr → Prop} {e c : Expr}

theorem here (h : Everywhere P e) : P e := by cases h; assumption

theorem child (h : Everywhere P e) (hc : c ∈ e.children) : Everywhere P c := by
  cases h with
  | node _ each => exact each c hc

theorem mono (h : Everywhere P e) (imp : ∀ e, P e → Q e) : Everywhere Q e := by
  induction h with
  | node here _ ih => exact node (imp _ here) ih

theorem and (hp : Everywhere P e) (hq : Everywhere Q e) : Everywhere (fun e => P e ∧ Q e) e := by
  induction hp with
  | node here _ ih => exact node ⟨here, hq.here⟩ fun c hc => ih c hc (hq.child hc)

theorem of_forall (h : ∀ e, P e) (e : Expr) : Everywhere P e := by
  induction e using byChildren with
  | node e ih => exact node (h e) ih

theorem all {ι : Type} {R : ι → Expr → Prop} (h : ∀ i, Everywhere (R i) e) :
    Everywhere (fun e => ∀ i, R i e) e := by
  induction e using byChildren with
  | node e ih => exact node (fun i => (h i).here) fun c hc => ih c hc fun i => (h i).child hc

/-- What holds of all nodes below a node holds so at each of them. -/
theorem nested (h : Everywhere P e) : Everywhere (Everywhere P) e := by
  induction h with
  | node here below ih => exact node (node here below) ih

end Everywhere

/-- The node that a way down leads to, which says which child to go to next. -/
def at? : Expr → List Nat → Option Expr
  | e, [] => some e
  | e, j :: way => e.children[j]?.bind fun c => c.at? way

theorem at?_cons {e d : Expr} {j : Nat} {way : List Nat} :
    e.at? (j :: way) = some d ↔ ∃ c, e.children[j]? = some c ∧ c.at? way = some d :=
  Option.bind_eq_some_iff

theorem Everywhere.at {P : Expr → Prop} {e d : Expr} {way : List Nat} (h : Everywhere P e)
    (found : e.at? way = some d) : Everywhere P d := by
  induction way generalizing e with
  | nil => exact Option.some.inj found ▸ h
  | cons j way ih =>
    obtain ⟨c, child, found⟩ := at?_cons.mp found
    exact ih (h.child (List.mem_of_getElem? child)) found

/-- The node is an expression, and nothing that only stands in the place of one. -/
def Native : Expr → Prop
  | foreign _ => False
  | _ => True

/-- Something holds of the names of all rules that the expression refers to. -/
abbrev Refers (P : Text → Prop) : Expr → Prop :=
  Everywhere fun
    | ruleRef _ name => P name
    | _ => True

theorem Refers.imp {P Q : Text → Prop} {e : Expr} (h : e.Refers P) (imp : ∀ name, P name → Q name) :
    e.Refers Q :=
  h.mono fun e here => by
    cases e with
    | ruleRef info name => exact imp name here
    | _ => trivial

/-- The expression refers to the rule called `name`. -/
inductive Mentions (name : Text) : Expr → Prop
  | here {info : Info} : Mentions name (ruleRef info name)
  | child {e c : Expr} : c ∈ e.children → Mentions name c → Mentions name e

theorem refers_iff {P : Text → Prop} {e : Expr} :
    e.Refers P ↔ ∀ name, e.Mentions name → P name := by
  constructor
  · intro h name mentions
    induction mentions with
    | here => exact h.here
    | child hc _ ih => exact ih (h.child hc)
  · intro h
    induction e using byChildren with
    | node e ih =>
      refine .node ?_ fun c hc => ih c hc fun name mentions => h name (.child hc mentions)
      cases e with
      | ruleRef info name => exact h name .here
      | _ => trivial

theorem Refers.all {P : Text → Prop} (h : ∀ name, P name) (e : Expr) : e.Refers P :=
  Everywhere.of_forall (fun e => by cases e <;> simp [h]) e

end Expr

namespace Grammar

variable {g : Grammar}

theorem find?_name {name : Text} {r : Rule} (h : g.find? name = some r) : r.name = name := by
  have := List.find?_some h
  simpa using this

theorem mem_ruleNames_of_find? {name : Text} {r : Rule} (h : g.find? name = some r) :
    r.name ∈ g.ruleNames :=
  List.mem_map_of_mem (List.mem_of_find?_eq_some h)

/-- Rules with different names are found by their names. -/
theorem find?_of_mem (names : g.ruleNames.Nodup) {r : Rule} (member : r ∈ g.rules) :
    g.find? r.name = some r := by
  suffices each : ∀ rules : List Rule, (rules.map Rule.name).Nodup → r ∈ rules →
      rules.find? (·.name = r.name) = some r from each g.rules names member
  intro rules names member
  induction rules with
  | nil => simp at member
  | cons first rest ih =>
    rw [List.map_cons, List.nodup_cons] at names
    rcases List.mem_cons.mp member with rfl | member
    · simp
    · have apart : first.name ≠ r.name := fun same =>
        names.1 (List.mem_map.mpr ⟨r, member, same.symm⟩)
      rw [List.find?_cons_of_neg (by simpa using apart)]
      exact ih names.2 member

theorem indexOf?_lt {name : Text} {i : Nat} (found : g.indexOf? name = some i) : i < g.rules.length :=
  (List.findIdx?_eq_some_iff_getElem.mp found).1

/-- The place found for a name is that of a rule that has it. -/
theorem name_of_indexOf? {name : Text} {i : Nat} {r : Rule} (found : g.indexOf? name = some i)
    (at? : g.rules[i]? = some r) : r.name = name := by
  obtain ⟨bound, same, -⟩ := List.findIdx?_eq_some_iff_getElem.mp found
  rw [List.getElem?_eq_getElem bound] at at?
  obtain rfl := Option.some.inj at?
  simpa using same

/-- With different names, the place of a rule is found by its name. -/
theorem indexOf?_name {i : Nat} {r : Rule} (names : g.ruleNames.Nodup) (at? : g.rules[i]? = some r) :
    g.indexOf? r.name = some i := by
  obtain ⟨bound, rfl⟩ := List.getElem?_eq_some_iff.mp at?
  refine List.findIdx?_eq_some_iff_getElem.mpr ⟨bound, by simp, fun j before same => ?_⟩
  have inside : j < g.ruleNames.length := by
    simp only [Grammar.ruleNames, List.length_map]
    omega
  have equal : g.ruleNames[j]? = g.ruleNames[i]? := by
    simpa [Grammar.ruleNames, bound, Nat.lt_trans before bound] using same
  exact Nat.ne_of_lt before ((List.getElem?_inj inside names).mp equal)

/-- Different names of rules, as those of the rules that are being gone into are. -/
structure Distinct (g : Grammar) (names : List Text) : Prop where
  apart : names.Nodup
  known : names ⊆ g.ruleNames

namespace Distinct

variable {names : List Text} {name : Text}

theorem nil : g.Distinct [] := ⟨List.nodup_nil, List.nil_subset _⟩

theorem cons (distinct : g.Distinct names) (known : name ∈ g.ruleNames) (fresh : name ∉ names) :
    g.Distinct (name :: names) :=
  ⟨List.nodup_cons.mpr ⟨fresh, distinct.apart⟩, List.cons_subset.mpr ⟨known, distinct.known⟩⟩

theorem concat (distinct : g.Distinct names) (known : name ∈ g.ruleNames) (fresh : name ∉ names) :
    g.Distinct (names ++ [name]) := by
  refine ⟨List.nodup_append.mpr ⟨distinct.apart, by simp, fun a ha b hb same => fresh ?_⟩, ?_⟩
  · rwa [← List.mem_singleton.mp hb, ← same]
  · exact List.append_subset.mpr ⟨distinct.known, by simpa using known⟩

/-- There are no more of them than rules. -/
theorem length_le (distinct : g.Distinct names) : names.length ≤ g.rules.length := by
  have bound := distinct.apart.length_le_of_subset distinct.known
  rwa [ruleNames, List.length_map] at bound

end Distinct

end Grammar

end PegCompiler
