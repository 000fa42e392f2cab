import PegCompiler.Compile.Pass
import PegCompiler.Proofs.Analysis.Inference

/-!
What match inference comes to. A rule carries the verdict of its body and a node that of its parts, but
a reference may have been left open where two rules lead to each other, and is then not gone over again
(`Grammar.matching_settles`). Where no two rules do, all references carry the verdicts of their rules; the
verdicts are then the least that agree with all bodies, so that they do not depend on the order of the
rules.
-/

namespace PegCompiler

namespace Verdict

theorem Below.antisymm {v w : Verdict} (h : v.Below w) (k : w.Below v) : v = w := by
  rcases h with rfl | same
  · rcases k with rfl | same
    · rfl
    · exact same.symm
  · exact same

end Verdict

namespace Grammar

/-- Rules that lead to each other are the same. -/
def Layered (g : Grammar) : Prop := ∀ a b, g.Leads a b → g.Leads b a → a = b

section Order

variable {g h : Grammar} (order : h.rules.Perm g.rules)

include order

theorem Inferable.perm (inferable : g.Inferable) : h.Inferable := by
  have names : h.ruleNames.Perm g.ruleNames := order.map _
  refine ⟨fun r member => inferable.native r (order.mem_iff.mp member), names.nodup_iff.mpr inferable.names,
    fun r member => ?_, fun r member => inferable.fresh r (order.mem_iff.mp member)⟩
  refine (inferable.resolves r (order.mem_iff.mp member)).imp fun name defined => ?_
  rw [defines_iff] at defined ⊢
  exact names.mem_iff.mpr defined

theorem Layered.perm (layered : g.Layered) : h.Layered := by
  have refers : h.RefersTo = g.RefersTo := by
    funext caller callee
    simp only [RefersTo, order.mem_iff]
  unfold Layered Leads
  rw [refers]
  exact layered

theorem IsFixpoint.perm {ofRule : Text → Verdict} (fixed : g.IsFixpoint ofRule) : h.IsFixpoint ofRule :=
  fun r member => fixed r (order.mem_iff.mp member)

end Order

namespace Infers

variable {g : Grammar} {rules : List Rule} (inferred : g.Infers rules)

include inferred

theorem names : ({ g with rules } : Grammar).ruleNames = g.ruleNames := by
  refine List.ext_getElem (by simp [ruleNames, inferred.length]) fun i bound bound' => ?_
  simp only [ruleNames, List.length_map] at bound'
  obtain ⟨ofRule, here, -⟩ := inferred.rule i _ (List.getElem?_eq_getElem bound')
  obtain ⟨_, same⟩ := List.getElem?_eq_some_iff.mp here
  simp only [ruleNames, List.getElem_map, same]
  rfl

/-- Where no two rules lead to each other, references carry the verdicts of their rules. -/
theorem exact (inferable : g.Inferable) (layered : g.Layered) {r : Rule} (member : r ∈ rules) :
    r.body.Everywhere (Expr.Carries fun name v => ({ g with rules } : Grammar).known name = some v) := by
  obtain ⟨q, before, ofRule, rfl, refers⟩ := inferred.of_mem member
  refine Expr.judge_carries (inferable.native q before) (Expr.refers_iff.mpr fun name mentions => ?_)
  refine (Expr.refers_iff.mp refers name mentions).resolve_right fun ⟨_, other, back⟩ => ?_
  exact other (layered _ _ back (.single ⟨q, before, rfl, mentions⟩))

theorem eq_map (layered : g.Layered) :
    rules = g.rules.map (Rule.judged ({ g with rules } : Grammar).verdictOf) := by
  refine List.ext_getElem? fun i => ?_
  rw [List.getElem?_map]
  cases at? : g.rules[i]? with
  | none =>
    rw [List.getElem?_eq_none_iff, ← inferred.length, ← List.getElem?_eq_none_iff] at at?
    rw [at?, Option.map_none]
  | some r =>
    obtain ⟨ofRule, here, refers⟩ := inferred.rule i r at?
    have same : r.body.judge ofRule = r.body.judge ({ g with rules } : Grammar).verdictOf := by
      refine Expr.judge_congr (Expr.refers_iff.mpr fun name mentions => ?_)
      have edge : g.RefersTo r.name name := ⟨r, List.mem_of_getElem? at?, rfl, mentions⟩
      rcases Expr.refers_iff.mp refers name mentions with stored | ⟨-, other, back⟩
      · simp only [verdictOf, stored, Option.getD_some]
      · exact absurd (layered _ _ back (.single edge)) other
    rw [here, Option.map_some, Rule.judged, Rule.judged, same]

theorem known_eq (inferable : g.Inferable) (layered : g.Layered) {r : Rule} (member : r ∈ g.rules) :
    ({ g with rules } : Grammar).known r.name =
      some (r.body.judge ({ g with rules } : Grammar).verdictOf).verdict := by
  have there : r.judged ({ g with rules } : Grammar).verdictOf ∈ ({ g with rules } : Grammar).rules := by
    have image := List.mem_map_of_mem (f := Rule.judged ({ g with rules } : Grammar).verdictOf) member
    exact (congrArg (_ ∈ ·) (inferred.eq_map layered)).mpr image
  have found := find?_of_mem (inferred.names ▸ inferable.names) there
  simp only [known, show ({ g with rules } : Grammar).find? r.name = _ from found]
  rfl

/-- The verdicts agree with all bodies. -/
theorem isFixpoint (inferable : g.Inferable) (layered : g.Layered) :
    g.IsFixpoint ({ g with rules } : Grammar).verdictOf := by
  intro r member
  conv => rhs; rw [verdictOf, inferred.known_eq inferable layered member]
  rfl

end Infers

/-- With the rules in another order the same verdicts are found. -/
theorem Infers.perm {g h : Grammar} {rules rules' : List Rule} (inferred : g.Infers rules)
    (inferred' : h.Infers rules') (inferable : g.Inferable) (layered : g.Layered)
    (order : h.rules.Perm g.rules) : rules'.Perm rules := by
  have inferable' := inferable.perm order
  have layered' := layered.perm order
  have agrees (r : Rule) (member : r ∈ g.rules) :
      ({ g with rules } : Grammar).verdictOf r.name =
        ({ h with rules := rules' } : Grammar).verdictOf r.name := by
    have known := inferred.known_eq inferable layered member
    have known' := inferred'.known_eq inferable' layered' (order.mem_iff.mpr member)
    have fixed := (inferred.isFixpoint inferable layered).perm order
    have fixed' := (inferred'.isFixpoint inferable' layered').perm order.symm
    have below := inferred.least _ fixed' _ _ known
    have above := inferred'.least _ fixed _ _ known'
    rw [(inferred.isFixpoint inferable layered) r member] at below
    rw [(inferred'.isFixpoint inferable' layered') r (order.mem_iff.mpr member)] at above
    exact below.antisymm above
  have judged (r : Rule) (member : r ∈ g.rules) :
      r.judged ({ h with rules := rules' } : Grammar).verdictOf =
        r.judged ({ g with rules } : Grammar).verdictOf := by
    have same : r.body.judge ({ h with rules := rules' } : Grammar).verdictOf =
        r.body.judge ({ g with rules } : Grammar).verdictOf := by
      have mentioned := Matching.mentioned inferable member
      refine Expr.judge_congr (mentioned.imp fun name ⟨_, _, q, at?, named⟩ => ?_)
      rw [← named]
      exact (agrees q (List.mem_of_getElem? at?)).symm
    rw [Rule.judged, Rule.judged, same]
  rw [inferred.eq_map layered, inferred'.eq_map layered',
    List.map_congr_left fun r member => judged r (order.mem_iff.mp member)]
  exact order.map _

/-- Match inference settles every rule of a grammar. It finds nothing, and changes annotations only. Rules
carry the verdicts of their bodies and nodes what is concluded for them; a reference carries the verdict of
its rule, or it is left open and names another rule that leads back. No verdict says more than a fixpoint.
Where no two rules lead to each other, the verdicts are a fixpoint that all references carry, and do not
depend on the order of the rules. -/
theorem matching_settles {g : Grammar} (inferable : g.Inferable) (settings : Settings) :
    ∃ rules, Pass.matching.run settings g = ⟨{ g with rules }, [], none⟩ ∧
      List.Forall₂ Matching.Annotates g.rules rules ∧
      (∀ r ∈ rules, r.verdict = some r.body.verdict ∧ r.body.Everywhere (Expr.Carries fun name v =>
        ({ g with rules } : Grammar).known name = some v ∨
          v = .sometimes ∧ name ≠ r.name ∧ g.Leads name r.name)) ∧
      (∀ ofRule, g.IsFixpoint ofRule → ∀ name v, ({ g with rules } : Grammar).known name = some v →
        v.Below (ofRule name)) ∧
      (g.Layered → g.IsFixpoint ({ g with rules } : Grammar).verdictOf ∧
        (∀ r ∈ rules, r.body.Everywhere (Expr.Carries fun name v =>
          ({ g with rules } : Grammar).known name = some v)) ∧
        ∀ h : Grammar, h.rules.Perm g.rules →
          (Pass.matching.run settings h).grammar.rules.Perm rules) := by
  obtain ⟨rules, annotate, inferred⟩ := Matching.annotate_infers inferable
  refine ⟨rules, by simp [Pass.run, annotate], inferred.annotates,
    fun r member => inferred.carries inferable member, inferred.least, fun layered =>
      ⟨inferred.isFixpoint inferable layered, fun r member => inferred.exact inferable layered member,
        fun h order => ?_⟩⟩
  obtain ⟨rules', annotate', inferred'⟩ := Matching.annotate_infers (inferable.perm order)
  simp only [Pass.run, annotate']
  exact inferred.perm inferred' inferable layered order

/-- Rules that only refer to themselves and to rules of a lower rank. -/
theorem layered_of_rank {g : Grammar} (rank : Text → Nat)
    (falls : ∀ r ∈ g.rules, r.body.Refers fun name => name = r.name ∨ rank name < rank r.name) :
    g.Layered := by
  have step {a b : Text} (refers : g.RefersTo a b) : b = a ∨ rank b < rank a := by
    obtain ⟨r, member, rfl, mentions⟩ := refers
    exact Expr.refers_iff.mp (falls r member) b mentions
  have all {a b : Text} (leads : g.Leads a b) : b = a ∨ rank b < rank a := by
    induction leads with
    | single refers => exact step refers
    | tail _ refers ih =>
      rcases ih with rfl | lower
      · exact step refers
      · rcases step refers with rfl | further
        · exact .inr lower
        · exact .inr (by omega)
  intro a b leads back
  rcases all leads with same | lower
  · exact same.symm
  · rcases all back with same | higher
    · exact same
    · omega

/-- A grammar that was read and checked is one to begin with. -/
theorem inferable_of_read {text : Text} {g : Grammar} (read : Grammar.read text none = .ok g)
    (checked : (Stage.check.run plainSettings g).failure = none) : g.Inferable :=
  (accepted_of_read read checked).inferable fun r member => (fresh_of_read read r member).1

/-! A sample: the last rule calls itself, and the others call what stands behind them. -/

def layersText : Text := .ofString "s = !a b\nb = 'y' / a\na = ('x' a)?"

def layersRank (name : Text) : Nat := if name = "a" then 0 else if name = "b" then 1 else 2

/-- The references that a rule is found to have are to itself or to rules of a lower rank. -/
def fallsAt (r : Rule) (entry : Except TreeFault (Text × Option Location)) : Bool :=
  match entry with
  | .ok (name, _) => name = r.name || layersRank name < layersRank r.name
  | .error _ => false

def layersSample (g : Grammar) : Bool :=
  (Stage.check.run plainSettings g).failure.isNone &&
    g.rules.all (fun r => (r.body.references fun _ => false).all (fallsAt r)) &&
    (Pass.matching.run plainSettings g).grammar.rules.map Rule.verdict =
      [some .never, some .sometimes, some .always]

theorem layers_settle : ∃ g, Grammar.read layersText none = .ok g ∧ g.Inferable ∧ g.Layered ∧
    ∃ rules, Pass.matching.run plainSettings g = ⟨{ g with rules }, [], none⟩ ∧
      rules.map Rule.verdict = [some .never, some .sometimes, some .always] ∧
      g.IsFixpoint ({ g with rules } : Grammar).verdictOf := by
  obtain ⟨g, read, holds⟩ := exists_of_read layersSample
    (show (Grammar.read layersText none).toOption.any _ = true by decide +kernel)
  simp only [layersSample, Bool.and_eq_true, Option.isNone_iff_eq_none, List.all_eq_true,
    decide_eq_true_eq] at holds
  obtain ⟨⟨checked, falls⟩, verdicts⟩ := holds
  have inferable := inferable_of_read read checked
  have layered : g.Layered := layered_of_rank layersRank fun r member => by
    refine Expr.everywhere_of_body (bodies_of_read read r member) (falls r member)
      (fun _ _ _ => trivial) fun e _ entries => ?_
    cases e with
    | ruleRef info name => simpa [fallsAt] using entries (.ok (name, info.location)) (by simp)
    | _ => trivial
  obtain ⟨rules, run, -, -, -, whole⟩ := matching_settles inferable plainSettings
  rw [run] at verdicts
  exact ⟨g, read, inferable, layered, rules, run, verdicts, (whole layered).1⟩

/-! Another one: the second rule is solved while the first one is open, and not gone over again. -/

def staleText : Text := .ofString "s = (\"x\" b)?\nb = s s"

def staleSample (g : Grammar) : Bool :=
  let inferred := (Pass.matching.run plainSettings g).grammar
  (Stage.check.run plainSettings g).failure.isNone && inferred.rules.any fun r =>
    r.verdict = some .sometimes && (r.body.judge inferred.verdictOf).verdict = .always &&
      (Pass.matching.run plainSettings { g with rules := g.rules.reverse }).grammar.known r.name =
        some .always

theorem stale_not_fixpoint : ∃ g, Grammar.read staleText none = .ok g ∧ g.Inferable ∧
    ∃ r ∈ (Pass.matching.run plainSettings g).grammar.rules, r.verdict = some .sometimes ∧
      (r.body.judge (Pass.matching.run plainSettings g).grammar.verdictOf).verdict = .always ∧
      (Pass.matching.run plainSettings { g with rules := g.rules.reverse }).grammar.known r.name =
        some .always := by
  obtain ⟨g, read, holds⟩ := exists_of_read staleSample
    (show (Grammar.read staleText none).toOption.any _ = true by decide +kernel)
  simp only [staleSample, Bool.and_eq_true, Option.isNone_iff_eq_none, List.any_eq_true,
    decide_eq_true_eq] at holds
  obtain ⟨checked, r, member, ⟨stored, concluded⟩, other⟩ := holds
  exact ⟨g, read, inferable_of_read read checked, r, member, stored, concluded, other⟩

end Grammar

end PegCompiler
