import PegCompiler.Compile.Pass
import PegCompiler.Proofs.Check.Acceptance
import PegCompiler.Proofs.Check.LeftWalk

/-!
What the check for left recursion finds. It finds an error exactly if some rule can come back to itself
over left calls (`Grammar.leftRecursion_exact`). Each of its paths goes round a cycle once, behind a way
that leads to the cycle, and all cycles are among them (`Grammar.leftRecursion_paths`).
-/

namespace PegCompiler

namespace Grammar

variable {g : Grammar} {settings : Settings}

/-- A way round over left calls: it ends with the rule that it begins with, and goes over no other
rule twice. -/
def IsCycle (g : Grammar) (cycle : List Text) : Prop :=
  ∃ name between, cycle = name :: between ++ [name] ∧ (name :: between).Nodup ∧
    cycle.IsChain g.LeftEdge

theorem transGen_of_isChain {path : List Text} {first last : Text}
    (edges : (first :: path ++ [last]).IsChain g.LeftEdge) :
    Relation.TransGen g.LeftEdge first last := by
  induction path generalizing first with
  | nil => exact .single edges.rel
  | cons next rest ih => exact .head edges.rel (ih edges.tail)

theorem IsCycle.transGen {cycle : List Text} (h : g.IsCycle cycle) :
    ∃ name, Relation.TransGen g.LeftEdge name name := by
  obtain ⟨name, between, rfl, -, edges⟩ := h
  exact ⟨name, transGen_of_isChain edges⟩

/-- A path that comes back leads to a cycle. -/
theorem split_of_lasso {path : List Text} {last : Text} (lasso : Check.Lasso g path last) :
    ∃ before cycle, path ++ [last] = before ++ cycle ∧ g.IsCycle cycle := by
  obtain ⟨apart, edges, returns⟩ := lasso
  obtain ⟨before, between, rfl⟩ := List.append_of_mem returns
  refine ⟨before, last :: between ++ [last], by simp, last, between, rfl, ?_, ?_⟩
  · exact (List.nodup_append.mp apart).2.1
  · rw [List.append_assoc] at edges
    exact edges.right_of_append

theorem IsCycle.lasso {cycle : List Text} (h : g.IsCycle cycle) :
    ∃ path last, cycle = path ++ [last] ∧ Check.Lasso g path last := by
  obtain ⟨name, between, rfl, apart, edges⟩ := h
  exact ⟨name :: between, name, rfl, apart, edges, by simp⟩

/-- What the check for left recursion finds is found by following a rule. -/
theorem mem_found {d : Diagnostic} (found : d ∈ (Pass.leftRecursion.run settings g).found) :
    ∃ r ∈ g.rules, .ok d ∈ Check.followRule g (g.rules.length + 1) [] r :=
  List.mem_flatMap.mp (Trail.mem_of_mem_cut found)

/-- On what a text gives the check meets no fault, and finds all that is found by following rules. -/
theorem leftRecursion_whole (textual : ∀ r ∈ g.rules, Rule.Body r.body) :
    (Pass.leftRecursion.run settings g).failure = none ∧
      ∀ r ∈ g.rules, ∀ d, .ok d ∈ Check.followRule g (g.rules.length + 1) [] r →
        d ∈ (Pass.leftRecursion.run settings g).found := by
  have entries : ∀ entry ∈ Check.leftRecursion g, ∃ d, entry = .ok d := by
    intro entry member
    obtain ⟨r, member, found⟩ := List.mem_flatMap.mp member
    exact Check.exists_ok_of_followRule textual _ r member found
  obtain ⟨findings, whole⟩ := Trail.exists_map_ok entries
  refine ⟨?_, fun r member d found => ?_⟩
  · simp [Pass.run, Pass.checked, whole, Trail.cut_map_ok]
  · have found : .ok d ∈ Check.leftRecursion g := List.mem_flatMap.mpr ⟨r, member, found⟩
    rw [whole] at found
    simpa [Pass.run, Pass.checked, whole, Trail.cut_map_ok] using found

/-- What the check for left recursion finds are errors about paths that come back. -/
theorem lasso_of_found (names : g.ruleNames.Nodup) {d : Diagnostic}
    (found : d ∈ (Pass.leftRecursion.run settings g).found) :
    ∃ path last, d.finding = .leftRecursion (path ++ [last]) ∧ Check.Lasso g path last := by
  obtain ⟨r, member, found⟩ := mem_found found
  exact Check.lasso_of_followRule _ r (find?_of_mem names member)
    (.concat .nil (List.mem_map_of_mem member) (by simp)) (.singleton _) found

/-- Every path that comes back is found. -/
theorem found_of_lasso (settings : Settings) (textual : ∀ r ∈ g.rules, Rule.Body r.body)
    {path : List Text} {last : Text} (lasso : Check.Lasso g path last) :
    ∃ d ∈ (Pass.leftRecursion.run settings g).found, d.finding = .leftRecursion (path ++ [last]) := by
  obtain ⟨r, member, d, found, finding⟩ := Check.exists_of_lasso textual lasso
  exact ⟨d, (leftRecursion_whole textual).2 r member d found, finding⟩

/-- On a way round over left calls there is a path that comes back. -/
theorem exists_lasso {name : Text} (round : Relation.TransGen g.LeftEdge name name) :
    ∃ path last, Check.Lasso g path last := by
  by_contra none
  simp only [not_exists] at none
  obtain ⟨_, -, _, _, -, -, defined⟩ := Relation.TransGen.tail'_iff.mp round
  have acc := Check.acc_of_no_lasso none name defined
  -- an endless chain of left calls goes round
  suffices each : ∀ caller, Acc (fun callee caller => g.LeftEdge caller callee) caller →
      ¬Relation.TransGen g.LeftEdge caller caller from each name acc round
  intro caller acc
  induction acc with
  | intro caller _ ih =>
    intro round
    obtain ⟨next, edge, back⟩ := Relation.TransGen.head'_iff.mp round
    exact ih next edge (Relation.TransGen.tail' back edge)

/-- The check for left recursion ends by itself, also where the rules go round, and so does the analysis
that it asks. It finds an error exactly if some rule can come back to itself over left calls. -/
theorem leftRecursion_exact {text : Text} {source : Option Text}
    (read : Grammar.read text source = .ok g) (names : g.ruleNames.Nodup) (settings : Settings) :
    (∀ bottom name, (Consumption.refer g)^[g.rules.length + 1] bottom [] name =
      Consumption.reference g g.rules.length [] name) ∧
    (∀ bottom, ∀ r ∈ g.rules, (Check.follow g)^[g.rules.length + 1] bottom [] r =
      Check.followRule g (g.rules.length + 1) [] r) ∧
    (Pass.leftRecursion.run settings g).failure = none ∧
    ((∃ d ∈ (Pass.leftRecursion.run settings g).found, d.severity = .error) ↔
      ∃ name, Relation.TransGen g.LeftEdge name name) := by
  have textual := bodies_of_read read
  refine ⟨fun bottom => ?_, fun bottom r member => ?_, (leftRecursion_whole textual).1, ?_, ?_⟩
  · exact Consumption.refer_iterate bottom _ [] .nil (by simp)
  · exact Check.follow_iterate bottom _ r (.concat .nil (List.mem_map_of_mem member) (by simp)) (by simp)
  · rintro ⟨d, found, -⟩
    obtain ⟨path, last, -, lasso⟩ := lasso_of_found names found
    obtain ⟨before, cycle, -, cyclic⟩ := split_of_lasso lasso
    exact cyclic.transGen
  · rintro ⟨name, round⟩
    obtain ⟨path, last, lasso⟩ := exists_lasso round
    obtain ⟨d, found, finding⟩ := found_of_lasso settings textual lasso
    exact ⟨d, found, by simp [Diagnostic.severity, finding, Finding.severity]⟩

/-! A sample: a rule comes back to itself over what need not consume, and over a delimiter. -/

def betweenText : Text := .ofString "s = ('a'? t)|1.., ','|\nt = ('b'?)|2, !'c' s 'd'| / 'e'"

theorem between_recurs : ∃ g, Grammar.read betweenText none = .ok g ∧ g.ruleNames.Nodup ∧
    (∃ d ∈ (Pass.leftRecursion.run plainSettings g).found, d.severity = .error) ∧
    ∃ name, Relation.TransGen g.LeftEdge name name := by
  obtain ⟨g, read, holds⟩ := exists_of_read (fun g => g.ruleNames.Nodup ∧
    ∃ d ∈ (Pass.leftRecursion.run plainSettings g).found, d.severity = .error)
    (show (Grammar.read betweenText none).toOption.any _ = true by decide +kernel)
  obtain ⟨names, found⟩ := of_decide_eq_true holds
  exact ⟨g, read, names, found, (leftRecursion_exact read names plainSettings).2.2.2.mp found⟩

/-- What the check for left recursion says of a path: it leads to a cycle and goes round it once, over
left calls, and over no rule twice before that. Every cycle of a textual grammar is reported as it is,
from each of its rules. -/
theorem leftRecursion_paths (names : g.ruleNames.Nodup) (settings : Settings) :
    (∀ d ∈ (Pass.leftRecursion.run settings g).found, ∃ before cycle,
      d.finding = .leftRecursion (before ++ cycle) ∧ g.IsCycle cycle ∧
        (before ++ cycle).IsChain g.LeftEdge ∧ (before ++ cycle).dropLast.Nodup) ∧
    ((∀ r ∈ g.rules, Rule.Body r.body) → ∀ cycle, g.IsCycle cycle →
      ∃ d ∈ (Pass.leftRecursion.run settings g).found, d.finding = .leftRecursion cycle) := by
  constructor
  · intro d found
    obtain ⟨path, last, finding, lasso⟩ := lasso_of_found names found
    obtain ⟨before, cycle, same, cyclic⟩ := split_of_lasso lasso
    refine ⟨before, cycle, same ▸ finding, cyclic, same ▸ lasso.edges, ?_⟩
    rw [← same, List.dropLast_concat]
    exact lasso.apart
  · intro textual cycle cyclic
    obtain ⟨path, last, rfl, lasso⟩ := cyclic.lasso
    exact found_of_lasso settings textual lasso

/-- The check finds the path, in a grammar whose rules have different names. -/
def findsPath (path : List Text) (g : Grammar) : Bool :=
  decide g.ruleNames.Nodup && (Pass.leftRecursion.run plainSettings g).found.any fun d =>
    match d.finding with
    | .leftRecursion found => found == path
    | _ => false

theorem exists_of_findsPath {path : List Text} (holds : g.findsPath path = true) :
    g.ruleNames.Nodup ∧
      ∃ d ∈ (Pass.leftRecursion.run plainSettings g).found, d.finding = .leftRecursion path := by
  simp only [findsPath, Bool.and_eq_true, decide_eq_true_eq, List.any_eq_true] at holds
  obtain ⟨names, d, found, same⟩ := holds
  refine ⟨names, d, found, ?_⟩
  split at same
  · rename_i finding
    rw [finding, eq_of_beq same]
  · cases same

/-! A sample: a cycle that is also come to from a rule beside it. -/

def aheadText : Text := .ofString "s = 'x'? a\na = b / 'y'\nb = a 'z'"

theorem ahead_paths : ∃ g, Grammar.read aheadText none = .ok g ∧ g.ruleNames.Nodup ∧
    ∃ d ∈ (Pass.leftRecursion.run plainSettings g).found,
      d.finding = .leftRecursion ["s", "a", "b", "a"] ∧
      ∃ before cycle, d.finding = .leftRecursion (before ++ cycle) ∧ g.IsCycle cycle ∧
        (before ++ cycle).IsChain g.LeftEdge ∧ (before ++ cycle).dropLast.Nodup := by
  obtain ⟨g, read, holds⟩ := exists_of_read (findsPath ["s", "a", "b", "a"])
    (show (Grammar.read aheadText none).toOption.any _ = true by decide +kernel)
  obtain ⟨names, d, found, finding⟩ := exists_of_findsPath holds
  exact ⟨g, read, names, d, found, finding, (leftRecursion_paths names plainSettings).1 d found⟩

/-! Another one: the rule that the walk starts from is not on the cycle, but on the path. -/

def enteredText : Text := .ofString "s = a\na = a"

theorem entered_not_cycle : ∃ g, Grammar.read enteredText none = .ok g ∧ g.ruleNames.Nodup ∧
    ∃ d ∈ (Pass.leftRecursion.run plainSettings g).found, ∃ path,
      d.finding = .leftRecursion path ∧ path.head? ≠ path.getLast? ∧ ¬g.IsCycle path := by
  obtain ⟨g, read, holds⟩ := exists_of_read (findsPath ["s", "a", "a"])
    (show (Grammar.read enteredText none).toOption.any _ = true by decide +kernel)
  obtain ⟨names, d, found, finding⟩ := exists_of_findsPath holds
  have ends : (["s", "a", "a"] : List Text).head? ≠ (["s", "a", "a"] : List Text).getLast? := by decide
  refine ⟨g, read, names, d, found, _, finding, ends, ?_⟩
  rintro ⟨name, between, same, -, -⟩
  rw [same, List.getLast?_concat] at ends
  exact ends rfl

end Grammar

end PegCompiler
