import PegCompiler.Proofs.Run.Tree

/-!
Labels on the stack of results. An environment gives every label a place; `Held` says that these
places hold the values of a scope. What is held stays held when more results are pushed, and an
element that has just given its value adds its label to both sides.
-/

namespace PegCompiler

/-- The environment and the scope have the same labels, and the places hold the values. -/
def Held (results : List Outcome) (labels : Environment) (scope : Scope) : Prop :=
  List.Forall₂ (fun label entry => label.1 = entry.1 ∧ Frame.Holds results label.2 entry.2)
    labels scope

namespace Held

variable {results : List Outcome} {labels : Environment} {scope : Scope}

theorem names (held : Held results labels scope) : labels.map Prod.fst = scope.map Prod.fst := by
  induction held with
  | nil => rfl
  | cons here _ ih => simp [here.1, ih]

theorem push (held : Held results labels scope) (top : List Outcome) :
    Held (top ++ results) labels scope :=
  List.Forall₂.imp (fun _ _ here => ⟨here.1, here.2.push top⟩) held

/-- Seen from the top, where the values of all labels are. -/
theorem distances (held : Held results labels scope) {top : Int} (here : top = results.length - 1) :
    List.Forall₂ (fun (distance : Int) value =>
      0 ≤ distance ∧ results[distance.toNat]? = some (some value))
      (labels.map fun (_, place) => top - place) (scope.map Prod.snd) := by
  induction held with
  | nil => exact .nil
  | cons first _ ih => exact .cons (first.2.below (by rw [here])) ih

theorem lookup (held : Held results labels scope) {name : Text} {place : Int}
    (found : List.lookup name labels = some place) :
    ∃ value, Value.lookup? name scope = some value ∧ Frame.Holds results place value := by
  induction held with
  | nil => cases found
  | @cons label entry _ _ here _ ih =>
    obtain ⟨same, holds⟩ := here
    rw [List.lookup_cons] at found
    by_cases equal : name = label.1
    · rw [beq_iff_eq.mpr equal] at found
      cases found
      exact ⟨entry.2, by simp [Value.lookup?, equal, same], holds⟩
    · rw [beq_eq_false_iff_ne.mpr equal] at found
      obtain ⟨value, at?, holds⟩ := ih found
      refine ⟨value, ?_, holds⟩
      rw [Value.lookup?, if_neg (fun other => equal (other.symm.trans same.symm)), at?]

/-- A label is added, or gets a new value. -/
theorem setField (held : Held results labels scope) {name : Text} {place : Int} {value : Value}
    (holds : Frame.Holds results place value) :
    Held results (Lower.define name place labels) (Value.setField name value scope) := by
  induction held with
  | nil => exact .cons ⟨rfl, holds⟩ .nil
  | @cons label entry _ _ here others ih =>
    obtain ⟨same, old⟩ := here
    by_cases equal : label.1 = name
    · rw [Lower.define, Value.setField, if_pos equal, if_pos (same ▸ equal)]
      exact .cons ⟨equal.symm.trans same, holds⟩ others
    · rw [Lower.define, Value.setField, if_neg equal, if_neg (same ▸ equal)]
      exact .cons ⟨same, old⟩ ih

/-- Behind an element that gave a value. -/
theorem define (held : Held results labels scope) (e : Expr) (value : Value) :
    Held (some value :: results) (e.define results.length labels) (e.extend value scope) := by
  have pushed := held.push [some value]
  unfold Expr.define Expr.extend
  cases e.label? with
  | none => exact pushed
  | some name => exact pushed.setField (Frame.holds_top results value)

end Held

/-- The places of the auto labels of a sequence hold these values. -/
def Kept (results : List Outcome) (places : List Int) (values : List Value) : Prop :=
  List.Forall₂ (Frame.Holds results) places values

namespace Kept

variable {results : List Outcome} {places : List Int} {values : List Value}

theorem push (kept : Kept results places values) (top : List Outcome) :
    Kept (top ++ results) places values :=
  List.Forall₂.imp (fun _ _ holds => holds.push top) kept

theorem collect (kept : Kept results places values) (e : Expr) (value : Value) :
    Kept (some value :: results) (e.collect (results.length : Int) places)
      (e.collect value values) := by
  have pushed := kept.push [some value]
  unfold Expr.collect
  split
  · exact List.rel_append pushed (.cons (Frame.holds_top results value) .nil)
  · exact pushed

theorem distances (kept : Kept results places values) {top : Int} (here : top = results.length - 1) :
    List.Forall₂ (fun (distance : Int) value =>
      0 ≤ distance ∧ results[distance.toNat]? = some (some value)) (places.map (top - ·)) values := by
  induction kept with
  | nil => exact .nil
  | cons first _ ih => exact .cons (first.below (by rw [here])) ih

end Kept

end PegCompiler
