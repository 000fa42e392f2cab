import PegCompiler.Compile.Pass
import PegCompiler.Proofs.Analysis.Marks
import Mathlib.Logic.Function.Iterate
import Mathlib.Logic.Relation

/-!
Which rules record what they expect, told without the order in which rules are looked into. The pass
ends by itself, and marks a rule exactly if it is a start rule or references lead to it from one, each
of them outside every display name of its rule (`Grammar.reporting_reaches`).
-/

namespace PegCompiler

/-- The expression refers to the rule called `name`, and no display name is around the reference. -/
inductive Expr.Exposes (name : Text) : Expr → Prop
  | here {info : Info} : Exposes name (.ruleRef info name)
  | child {e c : Expr} : e.isNamed = false → c ∈ e.children → Exposes name c → Exposes name e

namespace Grammar

/-- A rule called `caller` refers to `callee` outside a display name. -/
def Shows (g : Grammar) (caller callee : Text) : Prop :=
  ∃ r ∈ g.rules, r.name = caller ∧ r.body.Exposes callee

/-- A start rule that is defined leads to the rule called `name`, over references outside display
names, if it is not that rule itself. -/
def Reported (g : Grammar) (startRules : List Value) (name : Text) : Prop :=
  ∃ start ∈ g.ruleNames, .text start ∈ startRules ∧ Relation.ReflTransGen g.Shows start name

end Grammar

namespace Expr

theorem exposes_iff {name : Text} {e : Expr} : e.Exposes name ↔
    (∃ info, e = ruleRef info name) ∨ e.isNamed = false ∧ ∃ c ∈ e.children, c.Exposes name := by
  constructor
  · intro exposes
    cases exposes with
    | here => exact .inl ⟨_, rfl⟩
    | child plain child exposes => exact .inr ⟨plain, _, child, exposes⟩
  · rintro (⟨info, rfl⟩ | ⟨plain, c, child, exposes⟩)
    · exact .here
    · exact .child plain child exposes

/-- The references found outside display names are those that are exposed. -/
theorem mem_references {name : Text} {e : Expr} (native : e.Everywhere Native) :
    (∃ location, .ok (name, location) ∈ e.references isNamed) ↔ e.Exposes name := by
  induction native with
  | @node e native _ ih =>
    simp only [references, mem_trail native, exists_or]
    rw [exposes_iff]
    refine or_congr ?_ ?_
    · cases e <;> simp [eq_comm]
    · rw [exists_and_left]
      refine and_congr_right fun _ => ?_
      rw [exists_comm]
      simp only [exists_and_left]
      exact exists_congr fun c => and_congr_right fun child => ih c child

end Expr

namespace Reporting

variable {g : Grammar}

theorem mem_targets {r : Rule} (native : r.body.Everywhere Expr.Native) {j : Nat} :
    j ∈ targets g r ↔ ∃ name, r.body.Exposes name ∧ g.indexOf? name = some j := by
  obtain ⟨found, whole⟩ : ∃ found : List (Text × Option Location),
      r.body.references Expr.isNamed = found.map .ok :=
    ⟨_, Trail.eq_of_fault?_eq_none _ (references_sound native)⟩
  have names (name : Text) : name ∈ (r.body.references Expr.isNamed).cut.1.map Prod.fst ↔
      r.body.Exposes name := by
    rw [← Expr.mem_references native, whole, Trail.cut_map_ok]
    simp
  simp only [targets, List.mem_filterMap, names]

theorem mark_only {p : Progress} {i j : Nat} (marked : (p.mark i).marks[j]? = some true) :
    p.marks[j]? = some true ∨ j = i := by
  by_cases same : j = i
  · exact .inr same
  · unfold Progress.mark at marked
    split at marked
    · exact .inl marked
    · rw [List.getElem?_set_ne (Ne.symm same)] at marked
      exact .inl marked

theorem marks_only {places : List Nat} {p : Progress} {j : Nat}
    (marked : (places.foldl Progress.mark p).marks[j]? = some true) :
    p.marks[j]? = some true ∨ j ∈ places := by
  induction places generalizing p with
  | nil => exact .inl marked
  | cons i rest ih =>
    rcases ih marked with marked | later
    · exact (mark_only marked).imp_right fun here => by simp [here]
    · exact .inr (List.mem_cons_of_mem i later)

/-- Only rules with `right` names are marked. -/
def Progress.Within (g : Grammar) (right : Text → Prop) (p : Progress) : Prop :=
  ∀ (i : Nat) (r : Rule), p.marks[i]? = some true → g.rules[i]? = some r → right r.name

section Run

variable (native : ∀ r ∈ g.rules, r.body.Everywhere Expr.Native)

include native

/-- Looking into a rule marks what it shows. -/
theorem Progress.Within.next {right : Text → Prop}
    (shown : ∀ caller callee, right caller → g.Shows caller callee → right callee)
    {marks : List Bool} {i : Nat} {pending : List Nat} {r : Rule}
    (spreads : Progress.Spreads g ⟨marks, i :: pending⟩) (at? : g.rules[i]? = some r)
    (within : Progress.Within g right ⟨marks, i :: pending⟩) :
    Progress.Within g right ((targets g r).foldl Progress.mark ⟨marks, pending⟩) := by
  have member := List.mem_of_getElem? at?
  intro j q marked there
  rcases marks_only marked with before | target
  · exact within j q before there
  · obtain ⟨name, exposes, found⟩ := (mem_targets (native r member)).mp target
    rw [Grammar.name_of_indexOf? found there]
    exact shown r.name name (within i r (spreads.pending i (by simp)) at?) ⟨r, member, rfl, exposes⟩

theorem spread_within (right : Text → Prop)
    (shown : ∀ caller callee, right caller → g.Shows caller callee → right callee)
    (rounds : Nat) (p : Progress) (spreads : p.Spreads g)
    (enough : p.pending.length + p.marks.count false ≤ rounds) (within : p.Within g right) :
    (spread g rounds p).1.Within g right := by
  refine Progress.Spreads.rounds (g := g)
    (motive := fun rounds p => p.Within g right → (spread g rounds p).1.Within g right)
    (fun rounds marks _ within => ?_) (fun rounds marks i pending r spreads at? ih within => ?_)
    rounds p spreads enough within
  · cases rounds <;> exact within
  · rw [spread_succ, look_next native _ at?]
    exact ih (within.next native shown spreads at?)

/-- The rounds end by themselves: it does not matter what would be done after them. -/
theorem look_iterate (bottom : Progress → Progress × Option TreeFault) (rounds : Nat) (p : Progress)
    (spreads : p.Spreads g) (enough : p.pending.length + p.marks.count false ≤ rounds) :
    (look g)^[rounds + 1] bottom p = spread g rounds p := by
  refine Progress.Spreads.rounds (g := g)
    (motive := fun rounds p => (look g)^[rounds + 1] bottom p = spread g rounds p)
    (fun rounds marks _ => ?_) (fun rounds marks i pending r _ at? ih => ?_) rounds p spreads enough
  · rw [Function.iterate_succ_apply']
    cases rounds <;> rfl
  · rw [Function.iterate_succ_apply', spread_succ, look_next native _ at?, look_next native _ at?]
    exact ih

/-- In the end the marked rules are those that a start rule leads to. -/
theorem spread_reports (names : g.ruleNames.Nodup) (startRules : List Value) {i : Nat} {r : Rule}
    (at? : g.rules[i]? = some r) :
    (spread g (startRules.length + g.rules.length) (start g startRules)).1.marks[i]? = some true ↔
      g.Reported startRules r.name := by
  have spreads := start_spreads g startRules
  have enough := start_left g startRules
  constructor
  · intro marked
    refine spread_within native (g.Reported startRules) ?_ _ _ spreads enough ?_ i r marked at?
    · rintro caller callee ⟨first, known, starts, leads⟩ edge
      exact ⟨first, known, starts, leads.tail edge⟩
    · intro i r marked at?
      have place : i ∈ startPlaces g startRules := by
        simpa [start, List.getElem?_mapIdx, at?] using marked
      obtain ⟨value, starts, found⟩ := List.mem_filterMap.mp place
      split at found
      · rename_i name
        obtain rfl := Grammar.name_of_indexOf? found at?
        exact ⟨r.name, List.mem_map_of_mem (List.mem_of_getElem? at?), starts, .refl⟩
      · cases found
  · obtain ⟨spreads, none, kept⟩ := spread_spreads native _ _ spreads enough
    rintro ⟨first, known, starts, leads⟩
    -- along the references, from the start rule on
    suffices each : ∀ name, Relation.ReflTransGen g.Shows first name → ∀ (j : Nat) (q : Rule),
        g.rules[j]? = some q → q.name = name →
        (spread g (startRules.length + g.rules.length) (start g startRules)).1.marks[j]? = some true from
      each r.name leads i r at? rfl
    intro name leads
    induction leads with
    | refl =>
      rintro j q there rfl
      have place : j ∈ startPlaces g startRules :=
        List.mem_filterMap.mpr ⟨.text q.name, starts, Grammar.indexOf?_name names there⟩
      exact kept j (by simp [start, List.getElem?_mapIdx, there, place])
    | tail _ edge ih =>
      rintro j q there rfl
      obtain ⟨caller, member, rfl, exposes⟩ := edge
      obtain ⟨k, here⟩ := List.mem_iff_getElem?.mp member
      have looked := (spreads.looked k caller (ih k caller here rfl) here).resolve_left (by simp [none])
      exact looked j ((mem_targets (native caller member)).mpr
        ⟨q.name, exposes, Grammar.indexOf?_name names there⟩)

end Run

end Reporting

namespace Grammar

variable {g : Grammar}

/-- The pass that marks the rules that record what they expect ends by itself, also where the rules
refer to each other in a circle, and does not fail. It changes nothing but the marks, and marks a rule
exactly if a start rule leads to it over references outside display names. -/
theorem reporting_reaches (settings : Settings) (native : ∀ r ∈ g.rules, r.body.Everywhere Expr.Native)
    (names : g.ruleNames.Nodup) :
    (∀ bottom, (Reporting.look g)^[settings.startRules.length + g.rules.length + 1] bottom
        (Reporting.start g settings.startRules) =
      Reporting.spread g (settings.startRules.length + g.rules.length)
        (Reporting.start g settings.startRules)) ∧
    ∃ rules, Pass.reporting.run settings g = ⟨{ g with rules }, [], none⟩ ∧
      List.Forall₂ (fun r marked => ∃ mark, marked = { r with reportsFailures := some mark } ∧
        (mark = true ↔ g.Reported settings.startRules r.name)) g.rules rules := by
  have spreads := Reporting.start_spreads g settings.startRules
  have enough := Reporting.start_left g settings.startRules
  refine ⟨fun bottom => Reporting.look_iterate native bottom _ _ spreads enough, ?_⟩
  obtain ⟨length, none⟩ := Reporting.spread_sound native (settings.startRules.length + g.rules.length)
    (Reporting.start g settings.startRules)
  rw [spreads.length] at length
  have reports (i : Nat) (r : Rule) := Reporting.spread_reports native names settings.startRules
    (i := i) (r := r)
  simp only [Pass.run, Reporting.annotate, none]
  generalize (Reporting.spread g _ _).1.marks = marks at length reports
  refine ⟨_, rfl, List.forall₂_iff_get.mpr ⟨by simp [length], fun i here there => ?_⟩⟩
  have bound : i < marks.length := length.symm ▸ here
  have reported := reports i g.rules[i] (List.getElem?_eq_getElem here)
  rw [List.getElem?_eq_getElem bound, Option.some.injEq] at reported
  exact ⟨marks[i], by simp, reported⟩

/-! A sample: the rules go round, one of them refers to a rule that is not there, and two rules can be
come to only below a display name. One start rule is named twice, and another is not there. -/

def shownText : Text := .ofString "s = 'a' t / u\nt 'shown' = v\nu = s gone\nv = w / s\nw = 'w' w"

def shownStarts : List Value := [.text "s", .text "nowhere", .text "s"]

/-- The rules called `u` and `v` have these places, and the pass marks the first and not the second. -/
def marksShown (g : Grammar) : Bool :=
  decide (g.ruleNames = ["s", "t", "u", "v", "w"]) &&
    decide ((Pass.reporting.run { plainSettings with startRules := shownStarts } g).grammar.rules.map
      Rule.reportsFailures = [some true, some true, some true, some false, some false])

theorem shown_reported : ∃ g, Grammar.read shownText none = .ok g ∧
    (∀ r ∈ g.rules, r.body.Everywhere Expr.Native) ∧ g.ruleNames.Nodup ∧
    g.Reported shownStarts "u" ∧ ¬g.Reported shownStarts "v" := by
  obtain ⟨g, read, holds⟩ := exists_of_read marksShown
    (show (Grammar.read shownText none).toOption.any _ = true by decide +kernel)
  simp only [marksShown, Bool.and_eq_true, decide_eq_true_eq] at holds
  obtain ⟨same, marks⟩ := holds
  have native : ∀ r ∈ g.rules, r.body.Everywhere Expr.Native :=
    fun r member => (bodies_of_read read r member).expressions
  have names : g.ruleNames.Nodup := same ▸ by decide +kernel
  refine ⟨g, read, native, names, ?_⟩
  obtain ⟨rules, run, each⟩ := (reporting_reaches { plainSettings with startRules := shownStarts }
    native names).2
  rw [run] at marks
  have found (i : Nat) (name : Text) (mark : Bool) (at? : g.ruleNames[i]? = some name)
      (marked : (rules.map Rule.reportsFailures)[i]? = some (some mark)) :
      mark = true ↔ g.Reported shownStarts name := by
    rw [ruleNames, List.getElem?_map, Option.map_eq_some_iff] at at?
    rw [List.getElem?_map, Option.map_eq_some_iff] at marked
    obtain ⟨r, here, rfl⟩ := at?
    obtain ⟨q, there, marked⟩ := marked
    obtain ⟨inside, rfl⟩ := List.getElem?_eq_some_iff.mp here
    obtain ⟨inside', rfl⟩ := List.getElem?_eq_some_iff.mp there
    obtain ⟨mark', annotated, reported⟩ := each.get inside inside'
    have marked : (rules.get ⟨i, inside'⟩).reportsFailures = some mark := marked
    rw [annotated] at marked
    obtain rfl := Option.some.inj marked
    exact reported
  exact ⟨(found 2 "u" true (by rw [same]; rfl) (by rw [marks]; rfl)).mp rfl,
    fun reported => absurd ((found 3 "v" false (by rw [same]; rfl) (by rw [marks]; rfl)).mpr reported)
      (by decide)⟩

end Grammar

end PegCompiler
