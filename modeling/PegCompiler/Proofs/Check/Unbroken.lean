import PegCompiler.Proofs.Analysis.Marks
import PegCompiler.Proofs.Check.LabelScopes
import PegCompiler.Proofs.Check.LeftRecursion

/-!
No check breaks off on a tree that a text gives, also not where earlier checks have found errors. The one
thing that the last of them cannot deal with is a start rule that is a collection
(`Grammar.check_breaks`).
-/

namespace PegCompiler

/-- There is no fault on the trail. -/
def Trail.Sound {α : Type} (trail : Trail α) : Prop := ∀ entry ∈ trail, ∃ found, entry = .ok found

namespace Trail.Sound

variable {α β : Type} {first second : Trail α}

theorem nil : Sound ([] : Trail α) := List.forall_mem_nil _

theorem single (found : α) : Sound [.ok found] := List.forall_mem_singleton.mpr ⟨found, rfl⟩

theorem append (h : first.Sound) (k : second.Sound) : Sound (first ++ second) :=
  List.forall_mem_append.mpr ⟨h, k⟩

theorem flatMap {items : List β} {f : β → Trail α} (each : ∀ b ∈ items, (f b).Sound) :
    Sound (items.flatMap f) := by
  intro entry member
  obtain ⟨b, known, member⟩ := List.mem_flatMap.mp member
  exact each b known entry member

theorem map (found : List α) : Sound (found.map .ok) :=
  List.forall_mem_map.mpr fun a _ => ⟨a, rfl⟩

end Trail.Sound

namespace Check

variable {g : Grammar}

theorem autoLabels_sound (e : Expr) : ∀ finished, e.Everywhere Expr.Native →
    (autoLabels finished e).Sound := by
  induction e using Expr.byChildren with
  | node e ih =>
    intro finished native
    have below : ∀ c ∈ e.children, ∀ finished, (autoLabels finished c).Sound :=
      fun c hc finished => ih c hc finished (native.child hc)
    have all (es : List Expr) (finished : Bool)
        (each : ∀ c ∈ es, ∀ finished, (autoLabels finished c).Sound) :
        (autoLabelsAll finished es).Sound := by
      clear ih native below
      induction es with
      | nil => exact .nil
      | cons c rest ih =>
        exact .append (each c (by simp) finished) (ih fun c hc => each c (by simp [hc]))
    cases e with
    | literal | charClass | any | ruleRef | predicate => exact .nil
    | foreign => exact absurd native.here id
    | sequence info es | choice info es => exact all es _ below
    | named info name body | action info code at? body | unary info operator body =>
      exact below body (by simp [Expr.children]) _
    | labeled info label at? auto body =>
      refine .append (below body (by simp [Expr.children]) _) ?_
      split
      · exact .single _
      · exact .nil
    | range info min max body delimiter =>
      cases delimiter with
      | none => exact below body (by simp [Expr.children]) _
      | some separator =>
        exact .append (below separator (by simp [Expr.children]) _) (below body (by simp [Expr.children]) _)

theorem deciding_sound {answer : Decision} (decided : ∃ truth, answer = .ok truth) (d : Diagnostic) :
    (deciding answer fun truth => if truth then [] else [.ok d]).Sound := by
  obtain ⟨truth, rfl⟩ := decided
  cases truth with
  | true => exact .nil
  | false => exact .single d

theorem idleAt_sound {e : Expr} (decides : g.Decides e) : (idleAt g e).Sound := by
  have below {c : Expr} (child : c ∈ e.children) : ∃ truth, g.consumes c = .ok truth :=
    (decides.child child).here.2
  unfold idleAt
  split
  · exact deciding_sound (below (by simp [Expr.children])) _
  · exact deciding_sound (below (by simp [Expr.children])) _
  · rename_i info min max body delimiter
    refine deciding_sound (Consumption.orElse_decided ?_ ?_) _
    · exact below (by cases delimiter <;> simp [Expr.children])
    · cases delimiter with
      | none => exact ⟨_, rfl⟩
      | some separator => exact below (by simp [Expr.children])
  · exact .nil

variable (textual : ∀ r ∈ g.rules, Rule.Body r.body)

include textual

theorem references_sound : g.references.Sound :=
  .flatMap fun r hr => Expr.trail_sound ((textual r hr).expressions.mono fun n native =>
    ⟨native, by cases n <;> simp⟩)

theorem undefinedRules_sound (startRules : List Value) : (undefinedRules g startRules).Sound := by
  refine .append (.flatMap fun reference known => ?_) ?_
  · obtain ⟨found, rfl⟩ := references_sound textual reference known
    dsimp only
    split
    · exact .nil
    · exact .single _
  · exact List.forall_mem_map.mpr fun value _ => ⟨_, rfl⟩

theorem idleRepetitions_sound : (idleRepetitions g).Sound :=
  .flatMap fun r hr => Expr.trail_sound
    ((Grammar.decides_of_body textual (textual r hr)).nested.mono fun _ decides =>
      ⟨decides.here.1, idleAt_sound decides⟩)

theorem unusedRules_sound (startRules : List Value) : (unusedRules g startRules).Sound := by
  obtain ⟨found, whole⟩ := Trail.exists_map_ok (references_sound textual)
  simp only [unusedRules, whole, Trail.cut_map_ok]
  exact .map _

end Check

namespace Grammar

variable {g : Grammar} {settings : Settings}

theorem checked_unbroken {trail : Trail Diagnostic} (sound : trail.Sound) :
    (Pass.checked g trail).failure = none := by
  simp only [Pass.checked, Trail.cut_sound sound, Option.map_none]

/-- If a check of a textual tree breaks off, then at a start rule that is a collection. -/
theorem check_breaks (textual : ∀ r ∈ g.rules, Rule.Body r.body) {step : Step} {failure : Failure}
    (member : step ∈ Stage.check.steps) (broken : (Stage.runStep settings g step).failure = some failure) :
    ∃ value ∈ settings.startRules, value.isCollection = true ∧ failure = .startRule value := by
  have goesOn (unbroken : (Stage.runStep settings g step).failure = none) : False := by
    rw [unbroken] at broken
    cases broken
  simp only [Stage.check, List.map_cons, List.map_nil, List.mem_cons, List.not_mem_nil, or_false] at member
  rcases member with rfl | rfl | rfl | rfl | rfl | rfl | rfl
  · exact (goesOn (checked_unbroken (Check.undefinedRules_sound textual _))).elim
  · cases broken
  · obtain ⟨-, -, -, -, unbroken⟩ := (duplicateLabels_tallies textual).exists_keys
    refine (goesOn ?_).elim
    simp only [Stage.runStep, Pass.run, Pass.checked, unbroken, Option.map_none]
  · refine (goesOn (checked_unbroken (.flatMap fun r hr => ?_))).elim
    exact Check.autoLabels_sound r.body _ (textual r hr).expressions
  · exact (goesOn (@leftRecursion_whole g settings textual).1).elim
  · exact (goesOn (checked_unbroken (Check.idleRepetitions_sound textual))).elim
  · simp only [Stage.runStep, Pass.run] at broken goesOn
    split at broken
    · rename_i value found
      cases broken
      exact ⟨value, List.mem_of_find?_eq_some found, List.find?_some found, rfl⟩
    · rename_i usable
      rw [usable] at goesOn
      exact (goesOn (checked_unbroken (Check.unusedRules_sound textual _))).elim

end Grammar

end PegCompiler
